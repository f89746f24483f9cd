import Whittle.Syntax.Parse.Pattern

/-!
# Expressions

From the tightest layer to the loosest: primary expressions, calls and members, postfix and unary
operators, binary operators by precedence, conditionals, assignments, sequences.
-/

namespace Whittle.Syntax.Parser

/-- Statements between braces. -/
def block (r : Productions) : Parser (List Stmt) := do
  let _ ← expect .openBrace "`\x7b`"
  let round : Parser (Round Stmt) := do
    if ← atKind .closeBrace then return .stop
    if (← peek).isNone then unexpected "`\x7d`"
    return .more (← r.statement)
  let statements ← collect round (← rounds)
  let _ ← expect .closeBrace "`\x7d`"
  return statements

/-- A function that starts with its keyword. -/
def function (r : Productions) (requireName : Bool) : Parser Func := do
  let start ← start
  expectKeyword "function"
  let name ←
    if ← atKind .identifier then
      pure (some (← ident))
    else if requireName then unexpected "function name"
    else pure none
  typeParameters
  let params ← parameters r
  typeAnnotation r
  let body ← block r
  return .mk (← nodeFrom start) name params (.block body) false

/-- A method from its parameters on. -/
def method (r : Productions) (start : Nat) : Parser Func := do
  let params ← parameters r
  typeAnnotation r
  let body ← block r
  return .mk (← nodeFrom start) none params (.block body) false

/-- An element of an array literal or an argument. -/
def element (r : Productions) : Parser Element := do
  if ← eat .ellipsis then return .spread (← r.assignment) else return .one (← r.assignment)

/-- An array literal. -/
def arrayLiteral (r : Productions) : Parser (List Element) := do
  let _ ← expect .openBracket "`[`"
  let elements ← separated .closeBracket do
    if ← atKind .comma then unexpected "array element (holes are not supported)"
    element r
  let _ ← expect .closeBracket "`]`"
  return elements

/-- A property of an object literal. -/
def property (r : Productions) : Parser Property := do
  if ← eat .ellipsis then return .spread (← r.assignment)
  let start ← start
  let keyToken ← peek
  let key ← propertyKey r
  if ← eat .colon then
    return .keyValue key (← r.assignment) false
  else if ← atKind .openParen then
    return .method key (← method r start)
  else
    match key, keyToken with
    | .name text, some token =>
      if token.kind == .identifier then
        let ident : Ident := ⟨← nodeAt token.span, text⟩
        return .keyValue key (.name (← nodeFrom start) ident) true
      else unexpected "`:`"
    | _, _ => unexpected "`:`"

/-- An object literal. -/
def objectLiteral (r : Productions) : Parser (List Property) := do
  let _ ← expect .openBrace "`\x7b`"
  let properties ← separated .closeBrace (property r)
  let _ ← expect .closeBrace "`\x7d`"
  return properties

/-- An expression that starts with a keyword. -/
def keywordPrimary (r : Productions) (token : Token) (start : Nat) : Parser Expr := do
  match token.text with
  | "true" =>
    skip
    return .literal (← nodeFrom start) (.boolean true)
  | "false" =>
    skip
    return .literal (← nodeFrom start) (.boolean false)
  | "null" =>
    skip
    return .literal (← nodeFrom start) .null
  | "this" =>
    skip
    return .this (← nodeFrom start)
  | "function" =>
    let f ← function r false
    return .function (← nodeFrom start) f
  | _ => unexpected "expression"

/-- Names, literals, functions and everything in brackets. -/
def primary (r : Productions) : Parser Expr := do
  let start ← start
  match ← peek with
  | none => unexpected "expression"
  | some token =>
    match token.kind with
    | .identifier =>
      let name ← ident
      return .name (← nodeFrom start) name
    | .number =>
      skip
      let value ← numberOf token
      return .literal (← nodeFrom start) (.number value)
    | .string =>
      let value ← string
      return .literal (← nodeFrom start) (.string value)
    | .keyword => keywordPrimary r token start
    | .openParen =>
      skip
      let inner ← allowingIn r.expression
      let _ ← expect .closeParen "`)`"
      return inner
    | .openBracket =>
      let elements ← arrayLiteral r
      return .array (← nodeFrom start) elements
    | .openBrace =>
      let properties ← objectLiteral r
      return .object (← nodeFrom start) properties
    | _ => unexpected "expression"

/-- The arguments of a call. -/
def arguments (r : Productions) : Parser (List Element) := do
  let _ ← expect .openParen "`(`"
  let found ← separated .closeParen (element r)
  let _ ← expect .closeParen "`)`"
  return found

/-- Member accesses and, if wanted, calls that follow an expression. -/
def suffixes (r : Productions) (calls : Bool) (start : Nat) (e : Expr) : (fuel : Nat) → Parser Expr
  | 0 => stalled
  | fuel + 1 => do
    match ← peekKind with
    | some .dot =>
      skip
      let property ← word
      suffixes r calls start (.member (← nodeFrom start) e property.name) fuel
    | some .openBracket =>
      skip
      let property ← r.expression
      let _ ← expect .closeBracket "`]`"
      suffixes r calls start (.index (← nodeFrom start) e property) fuel
    | some .openParen =>
      if calls then
        let found ← arguments r
        suffixes r calls start (.call (← nodeFrom start) e found) fuel
      else return e
    | _ => return e

/-- The callee of `new`: members, no calls. -/
def memberOnly (r : Productions) : Parser Expr := do
  let start ← start
  let e ← primary r
  suffixes r false start e (← rounds)

/-- Calls, members and `new`. -/
def callMember (r : Productions) : Parser Expr := do
  let start ← start
  let e ←
    if ← atKeyword "new" then
      skip
      let callee ← memberOnly r
      let found ← if ← atKind .openParen then arguments r else pure []
      pure (Expr.construct (← nodeFrom start) callee found)
    else primary r
  suffixes r true start e (← rounds)

/-- The update operator of a token kind. -/
def updateOp? : TokenKind → Option UpdateOp
  | .plusPlus => some .increment
  | .minusMinus => some .decrement
  | _ => none

/-- An expression and the update operator that may follow on its line. -/
def postfixUpdate (r : Productions) : Parser Expr := do
  let start ← start
  let e ← callMember r
  match ← peek with
  | none => return e
  | some token =>
    if token.newlineBefore then return e
    match updateOp? token.kind with
    | some op =>
      skip
      return .update (← nodeFrom start) op false e
    | none => return e

/-- The unary operator that a token is. -/
def unaryOp? (token : Token) : Option UnaryOp :=
  match token.kind with
  | .operator => UnaryOp.ofText? token.text
  | .keyword => (UnaryOp.ofText? token.text).filter (·.isWord)
  | _ => none

/-- Operators before an operand. -/
def unary (r : Productions) : Parser Expr := do
  let start ← start
  match ← peek with
  | none => unexpected "expression"
  | some token =>
    match updateOp? token.kind, unaryOp? token with
    | some op, _ =>
      skip
      let argument ← r.unary
      return .update (← nodeFrom start) op true argument
    | none, some op =>
      skip
      let argument ← r.unary
      return .unary (← nodeFrom start) op argument
    | none, none => postfixUpdate r

/-- An operator between two operands. -/
inductive InfixOp where
  | binary (op : BinaryOp)
  | logical (op : LogicalOp)
deriving DecidableEq

namespace InfixOp

/-- Binding power. -/
def precedence : InfixOp → Nat
  | .binary op => op.precedence
  | .logical op => op.precedence

/-- The least precedence of a right operand. -/
def rightPrecedence : InfixOp → Nat
  | .binary op => if op.isRightAssociative then op.precedence else op.precedence + 1
  | .logical op => op.precedence + 1

/-- The operator applied. -/
def apply (op : InfixOp) (node : Node) (left right : Expr) : Expr :=
  match op with
  | .binary op => .binary node op left right
  | .logical op => .logical node op left right

/-- The operator that a token is. -/
def ofToken? (noIn : Bool) (token : Token) : Option InfixOp :=
  match token.kind with
  | .operator => (BinaryOp.ofText? token.text).map .binary
  | .keyword =>
    match token.text with
    | "in" => if noIn then none else some (.binary .isIn)
    | "instanceof" => some (.binary .instanceOf)
    | _ => none
  | .logicalAnd => some (.logical .and)
  | .logicalOr => some (.logical .or)
  | .nullish => some (.logical .nullish)
  | _ => none

end InfixOp

/-- Operators of at least a precedence after a left operand. -/
def binaryRest (r : Productions) (least start : Nat) (left : Expr) : (fuel : Nat) → Parser Expr
  | 0 => stalled
  | fuel + 1 => do
    match (← peek).bind (InfixOp.ofToken? (← get).noIn) with
    | none => return left
    | some op =>
      if op.precedence < least then return left
      skip
      let right ← r.binary op.rightPrecedence
      binaryRest r least start (op.apply (← nodeFrom start) left right) fuel

/-- Operators of at least a precedence. -/
def binary (r : Productions) (least : Nat) : Parser Expr := do
  let start ← start
  let left ← unary r
  binaryRest r least start left (← rounds)

/-- A conditional, or what may be its test. -/
def conditional (r : Productions) : Parser Expr := do
  let start ← start
  let test ← binary r 0
  if ← eat .question then
    let consequent ← allowingIn r.assignment
    let _ ← expect .colon "`:`"
    let alternate ← r.assignment
    return .conditional (← nodeFrom start) test consequent alternate
  else return test

/-- Tries to read parameters followed by an arrow.  If that fails the cursor goes back, except for
what the attempt said about `in`. -/
def arrowParameters? (r : Productions) : Parser (Option (List Pattern)) := fun input c =>
  let attempt : Parser (List Pattern × Bool) := do
    let params ← parameters r
    typeAnnotation r
    return (params, ← atKind .arrow)
  match attempt input c with
  | .ok (params, true) c' => .ok (some params) c'
  | .ok (_, false) c' => .ok none { c with noIn := c'.noIn }
  | .error _ c' => .ok none { c with noIn := c'.noIn }

/-- An arrow function from its arrow on. -/
def arrowRest (r : Productions) (start : Nat) (params : List Pattern) : Parser Expr := do
  let _ ← expect .arrow "`=>`"
  let body ←
    if ← atKind .openBrace then
      pure (Body.block (← block r))
    else pure (Body.expression (← r.assignment))
  let f := Func.mk (← nodeFrom start) none params body true
  return .function (← nodeFrom start) f

/-- An arrow function, if one stands here. -/
def arrow? (r : Productions) : Parser (Option Expr) := do
  let start ← start
  match ← peekKind with
  | some .identifier =>
    if (← peekAt 1).any (·.kind == .arrow) then
      let param ← target r
      return some (← arrowRest r start [param])
    else return none
  | some .openParen =>
    match ← arrowParameters? r with
    | some params => return some (← arrowRest r start params)
    | none => return none
  | _ => return none

/-- Whether an expression may stand before a compound assignment. -/
def isReference : Expr → Bool
  | .name .. | .member .. | .index .. => true
  | _ => false

/-- The target of an assignment. -/
def assignmentTarget (op : AssignOp) (left : Expr) : Parser Pattern := do
  if op != .set && !isReference left then
    failAt left.node.span.start "invalid assignment target"
  match left.toPattern with
  | .ok target => return target
  | .error place => failAt place "invalid assignment target"

/-- An arrow function, an assignment, or what may be the left side of one. -/
def assignment (r : Productions) : Parser Expr := do
  let start ← start
  match ← arrow? r with
  | some arrow => return arrow
  | none =>
    let left ← conditional r
    match ← peek with
    | none => return left
    | some token =>
      if token.kind != .assignment then return left
      match AssignOp.ofText? token.text with
      | none => failAt token.span.start "unknown assignment operator"
      | some op =>
        let target ← assignmentTarget op left
        skip
        let value ← r.assignment
        return .assign (← nodeFrom start) op target value

/-- Expressions after commas. -/
def sequenceRest (r : Productions) : Parser (List Expr) := do
  let round : Parser (Round Expr) := do
    if ← eat .comma then return .more (← r.assignment) else return .stop
  collect round (← rounds)

/-- An expression. -/
def expression (r : Productions) : Parser Expr := do
  let start ← start
  let first ← assignment r
  if ← atKind .comma then
    let others ← sequenceRest r
    return .sequence (← nodeFrom start) (first :: others)
  else return first

end Whittle.Syntax.Parser
