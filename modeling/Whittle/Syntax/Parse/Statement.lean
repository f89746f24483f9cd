import Whittle.Syntax.Parse.Expression

/-!
# Statements
-/

namespace Whittle.Syntax.Parser

/-- An expression in parentheses. -/
def parenthesized (r : Productions) : Parser Expr := do
  let _ ← expect .openParen "`(`"
  let e ← expression r
  let _ ← expect .closeParen "`)`"
  return e

/-- One variable of a declaration. -/
def declarator (r : Productions) : Parser Declarator := do
  let start ← start
  let pattern ← target r
  typeAnnotation r
  let value ←
    if ← atEquals then
      skip
      pure (some (← assignment r))
    else pure none
  return .mk (← nodeFrom start) pattern value

/-- Variables between commas; one at least. -/
def declarators (r : Productions) : Parser (List Declarator) := do
  let round : Parser (Round Declarator) := do
    let d ← declarator r
    if ← eat .comma then return .more d else return .last d
  collect round (← rounds)

/-- A declaration of variables, without the end of the statement. -/
def variableList (r : Productions) : Parser (VarKind × List Declarator) := do
  match ← next with
  | none => unexpected "declaration keyword"
  | some token =>
    match VarKind.ofText? token.text with
    | none => failAt token.span.start "expected `var`, `let` or `const`"
    | some kind => return (kind, ← declarators r)

/-- Whether the next token starts a declaration of variables. -/
def atVariables : Parser Bool :=
  nextIs fun t => t.isKeyword "var" || t.isKeyword "let" || t.isKeyword "const"

/-- A conditional statement. -/
def ifStatement (r : Productions) (start : Nat) : Parser Stmt := do
  expectKeyword "if"
  let test ← parenthesized r
  let consequent ← r.statement
  let alternate ←
    if ← atKeyword "else" then
      skip
      pure (some (← r.statement))
    else pure none
  return .ifElse (← nodeFrom start) test consequent alternate

/-- What stands first in the head of a loop. -/
def forHead (r : Productions) : Parser (Option ForHead) := do
  if ← atKind .semicolon then return none
  else if ← atVariables then
    let (kind, ds) ← variableList r
    return some (.declaration kind ds)
  else return some (.expression (← expression r))

/-- An expression unless a token of the given kind comes first. -/
def expressionUnless (r : Productions) (kind : TokenKind) : Parser (Option Expr) := do
  if ← atKind kind then return none else return some (← expression r)

/-- A loop with a head. -/
def forStatement (r : Productions) (start : Nat) : Parser Stmt := do
  expectKeyword "for"
  let _ ← expect .openParen "`(`"
  let head ← forbiddingIn (forHead r)
  let isIn ← atKeyword "in"
  if isIn || (← atContextual "of") then
    match head with
    | none => unexpected "`;`"
    | some head =>
      skip
      let subject ← if isIn then expression r else assignment r
      let _ ← expect .closeParen "`)`"
      let body ← r.statement
      return .forEach (← nodeFrom start) head (!isIn) subject body
  else
    let _ ← expect .semicolon "`;`"
    let test ← expressionUnless r .semicolon
    let _ ← expect .semicolon "`;`"
    let update ← expressionUnless r .closeParen
    let _ ← expect .closeParen "`)`"
    let body ← r.statement
    return .for (← nodeFrom start) head test update body

/-- A member of a class body: nothing for a lone semicolon. -/
def classMember (r : Productions) : Parser (Option Method) := do
  if ← eat .semicolon then return none
  let isStatic := (← atKeyword "static") && (← peekAt 1).any (·.kind != .openParen)
  if isStatic then skip
  let start ← start
  let key ← propertyKey r
  if !(← atKind .openParen) then
    unexpected "method parameters (class fields are not supported)"
  let f ← method r start
  return some (.mk isStatic key f)

/-- A class. -/
def classBody (r : Productions) : Parser Class := do
  let start ← start
  expectKeyword "class"
  let name ← if ← atKind .identifier then pure (some (← ident)) else pure none
  let parent ←
    if ← atKeyword "extends" then
      skip
      pure (some (← callMember r))
    else pure none
  let _ ← expect .openBrace "`\x7b`"
  let round : Parser (Round (Option Method)) := do
    if ← atKind .closeBrace then return .stop
    return .more (← classMember r)
  let members ← collect round (← rounds)
  let _ ← expect .closeBrace "`\x7d`"
  return .mk (← nodeFrom start) name parent (members.filterMap fun m => m)

/-- One name of an import list. -/
def importSpecifier : Parser ImportSpecifier := do
  let imported ← moduleName
  let bound ←
    if ← atContextual "as" then
      skip
      ident
    else
      let place := (← get).lastEnd
      pure ⟨← nodeFrom place, imported⟩
  return ⟨.named imported, bound⟩

/-- The names that an import binds, up to and including `from`. -/
def importSpecifiers : Parser (List ImportSpecifier) := do
  let first ←
    if ← atKind .identifier then
      let bound ← ident
      let _ ← eat .comma
      pure [ImportSpecifier.mk .default bound]
    else pure []
  let others ←
    if ← atOperator "*" then
      skip
      expectContextual "as"
      pure [ImportSpecifier.mk .whole (← ident)]
    else if ← eat .openBrace then
      let found ← separated .closeBrace importSpecifier
      let _ ← expect .closeBrace "`\x7d`"
      pure found
    else pure []
  expectContextual "from"
  return first ++ others

/-- An import. -/
def importStatement (start : Nat) : Parser Stmt := do
  expectKeyword "import"
  let specifiers ← if ← atKind .string then pure [] else importSpecifiers
  let source ← string
  endStatement
  return .importFrom (← nodeFrom start) specifiers source

/-- One name of an export list. -/
def exportSpecifier : Parser ExportSpecifier := do
  let bound ← word
  let exported ←
    if ← atContextual "as" then
      skip
      moduleName
    else pure bound.name
  return ⟨bound, exported⟩

/-- The value of a default export. -/
def exportedValue (r : Productions) : Parser Expr := do
  let start ← start
  if ← atKeyword "function" then
    let f ← function r false
    return .function (← nodeFrom start) f
  else
    let e ← assignment r
    endStatement
    return e

/-- Whether a statement may follow `export`. -/
def isDeclaration : Stmt → Bool
  | .declaration .. | .function .. | .classDeclaration .. => true
  | _ => false

/-- An export. -/
def exportStatement (r : Productions) (start : Nat) : Parser Stmt := do
  expectKeyword "export"
  if ← atKeyword "default" then
    skip
    let value ← exportedValue r
    return .exportDefault (← nodeFrom start) value
  if ← eat .openBrace then
    let specifiers ← separated .closeBrace exportSpecifier
    let _ ← expect .closeBrace "`\x7d`"
    let source ←
      if ← atContextual "from" then
        skip
        pure (some (← string))
      else pure none
    endStatement
    return .exportNames (← nodeFrom start) specifiers source
  if ← atOperator "*" then throw (.unsupported "export * declaration")
  let inner ← r.statement
  if isDeclaration inner then
    return .exportDeclaration (← nodeFrom start) inner
  else failAt inner.node.span.start "expected declaration after `export`"

/-- The label that may follow a jump on its line. -/
def label : Parser (Option Ident) := do
  if (← atKind .identifier) && !(← atStatementEnd) then return some (← ident) else return none

/-- An expression as a statement. -/
def expressionStatement (r : Productions) (start : Nat) : Parser Stmt := do
  let e ← expression r
  endStatement
  return .expression (← nodeFrom start) e

/-- A statement that starts with a keyword. -/
def keywordStatement (r : Productions) (word : String) (start : Nat) : Parser Stmt := do
  match word with
  | "var" | "let" | "const" =>
    let (kind, ds) ← variableList r
    endStatement
    return .declaration (← nodeFrom start) kind ds
  | "function" =>
    let f ← function r true
    return .function (← nodeFrom start) f
  | "class" =>
    let c ← classBody r
    return .classDeclaration (← nodeFrom start) c
  | "return" =>
    skip
    let value ← if ← atStatementEnd then pure none else pure (some (← expression r))
    endStatement
    return .return (← nodeFrom start) value
  | "if" => ifStatement r start
  | "while" =>
    skip
    let test ← parenthesized r
    let body ← r.statement
    return .while (← nodeFrom start) test body
  | "do" =>
    skip
    let body ← r.statement
    expectKeyword "while"
    let test ← parenthesized r
    let _ ← eat .semicolon
    return .doWhile (← nodeFrom start) body test
  | "for" => forStatement r start
  | "break" =>
    skip
    let target ← label
    endStatement
    return .break (← nodeFrom start) target
  | "continue" =>
    skip
    let target ← label
    endStatement
    return .continue (← nodeFrom start) target
  | "throw" =>
    skip
    let value ← expression r
    endStatement
    return .throw (← nodeFrom start) value
  | "import" => importStatement start
  | "export" => exportStatement r start
  | _ => expressionStatement r start

/-- A statement. -/
def statement (r : Productions) : Parser Stmt := do
  let start ← start
  match ← peek with
  | none => unexpected "statement"
  | some token =>
    match token.kind with
    | .keyword => keywordStatement r token.text start
    | .openBrace =>
      let statements ← block r
      return .block (← nodeFrom start) statements
    | .semicolon =>
      skip
      return .empty (← nodeFrom start)
    | _ => expressionStatement r start

end Whittle.Syntax.Parser
