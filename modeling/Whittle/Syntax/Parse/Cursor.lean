import Whittle.Syntax.Tree
import Whittle.Token.Literal
import Whittle.Token.Scan

/-!
# Walking over tokens

A parser reads a fixed list of tokens through a cursor.  An error keeps the cursor where it was
found, because an attempt that fails gives the cursor back to the parser that made it.
-/

namespace Whittle.Syntax

/-- What a parse reads: the source and its tokens. -/
structure Input where
  /-- The source. -/
  source : Source
  /-- Its tokens. -/
  tokens : Array Token

/-- How far a parse has come. -/
structure Cursor where
  /-- The next token. -/
  position : Nat
  /-- The byte after the last token taken. -/
  lastEnd : Nat
  /-- The next free node number. -/
  nextNode : Nat
  /-- Set inside the head of a `for` statement, where `in` is no operator. -/
  noIn : Bool
deriving DecidableEq, Inhabited

/-- A parser. -/
abbrev Parser (α : Type) := ReaderT Input (EStateM Error Cursor) α

namespace Parser

/-- The token `n` places ahead. -/
def peekAt (n : Nat) : Parser (Option Token) := do
  return (← read).tokens[(← get).position + n]?

/-- The next token. -/
def peek : Parser (Option Token) := peekAt 0

/-- The kind of the next token. -/
def peekKind : Parser (Option TokenKind) := do
  return (← peek).map (·.kind)

/-- Takes the next token. -/
def next : Parser (Option Token) := do
  match ← peek with
  | some token =>
    modify fun c => { c with position := c.position + 1, lastEnd := token.span.stop }
    return some token
  | none => return none

/-- Takes the next token, whatever it is. -/
def skip : Parser Unit := do
  let _ ← next

/-- The byte where the next token starts. -/
def start : Parser Nat := do
  match ← peek with
  | some token => return token.span.start
  | none => return (← read).source.text.utf8ByteSize

/-- The span from a byte to the end of the last token taken. -/
def spanFrom (start : Nat) : Parser Span := do
  return ⟨start, max (← get).lastEnd start⟩

/-- A fresh node at the given place. -/
def nodeAt (span : Span) : Parser Node := do
  let id := (← get).nextNode
  modify fun c => { c with nextNode := id + 1 }
  return ⟨some id, span⟩

/-- A fresh node from a byte to the end of the last token taken. -/
def nodeFrom (start : Nat) : Parser Node := do
  nodeAt (← spanFrom start)

/-- Stops with an error at a byte of the source. -/
def failAt {α : Type} (position : Nat) (message : String) : Parser α := do
  throw ((← read).source.errorAt message position)

/-- Stops because the next token is not what stands here. -/
def unexpected {α : Type} (expecting : String) : Parser α := do
  match ← peek with
  | some token =>
    failAt token.span.start ("expected " ++ expecting ++ " but found `" ++ token.text ++ "`")
  | none =>
    failAt (← read).source.text.utf8ByteSize ("expected " ++ expecting ++
      " but reached end of file")

/-- Stops because a loop took more rounds than there are tokens. -/
def stalled {α : Type} : Parser α := throw (.invariantViolation "the parser made no progress")

/-- Whether the next token satisfies a test. -/
def nextIs (test : Token → Bool) : Parser Bool := do
  return (← peek).any test

/-- Whether the next token is of a kind. -/
def atKind (kind : TokenKind) : Parser Bool := nextIs (·.kind == kind)

/-- Whether the next token is a keyword. -/
def atKeyword (word : String) : Parser Bool := nextIs (·.isKeyword word)

/-- Whether the next token is an operator. -/
def atOperator (text : String) : Parser Bool := nextIs (·.isOperator text)

/-- Whether the next token is a name that has a meaning here. -/
def atContextual (word : String) : Parser Bool :=
  nextIs fun t => t.kind == .identifier && t.text == word

/-- Whether the next token is the plain assignment sign. -/
def atEquals : Parser Bool := nextIs fun t => t.kind == .assignment && t.text == "="

/-- Takes the next token if it is of a kind. -/
def eat (kind : TokenKind) : Parser Bool := do
  if ← atKind kind then
    skip
    return true
  else return false

/-- Takes the next token, which must be of a kind. -/
def expect (kind : TokenKind) (expecting : String) : Parser Token := do
  match ← peek with
  | some token =>
    if token.kind == kind then
      skip
      return token
    else unexpected expecting
  | none => unexpected expecting

/-- Takes a keyword. -/
def expectKeyword (word : String) : Parser Unit := do
  if ← atKeyword word then skip else unexpected word

/-- Takes a name that has a meaning here. -/
def expectContextual (word : String) : Parser Unit := do
  if ← atContextual word then skip else unexpected ("`" ++ word ++ "`")

/-- Whether a statement may end before the next token. -/
def atStatementEnd : Parser Bool := do
  match ← peek with
  | none => return true
  | some t => return t.kind == .semicolon || t.kind == .closeBrace || t.newlineBefore

/-- Ends a statement: by a semicolon, before a closing brace, at a line end or at the end. -/
def endStatement : Parser Unit := do
  if ← eat .semicolon then return ()
  match ← peek with
  | none => return ()
  | some t => if t.kind == .closeBrace || t.newlineBefore then return () else unexpected "`;`"

/-- A name at its token. -/
def identOf (token : Token) : Parser Ident := do
  return ⟨← nodeAt token.span, token.text⟩

/-- An identifier. -/
def ident : Parser Ident := do
  identOf (← expect .identifier "identifier")

/-- An identifier or a keyword. -/
def word : Parser Ident := do
  match ← peek with
  | some token =>
    if token.isWord then
      skip
      identOf token
    else unexpected "identifier"
  | none => unexpected "identifier"

/-- The value of a string literal. -/
def string : Parser String := do
  let token ← expect .string "string literal"
  return (Text.unquote? token.text).getD ""

/-- The value of a numeric token that has been taken. -/
def numberOf (token : Token) : Parser Number := do
  match Token.number? token.text with
  | some value => return value
  | none => failAt token.span.start "invalid number literal"

/-- The name of an import or export: a word or a string. -/
def moduleName : Parser String := do
  if ← atKind .string then string else return (← word).name

/-- Runs a parser with `in` as an operator and puts the old rule back, also after an error. -/
def allowingIn {α : Type} (p : Parser α) : Parser α := fun input c =>
  match p input { c with noIn := false } with
  | .ok a c' => .ok a { c' with noIn := c.noIn }
  | .error e c' => .error e { c' with noIn := c.noIn }

/-- Runs a parser without `in` as an operator; afterwards it is one, also after an error. -/
def forbiddingIn {α : Type} (p : Parser α) : Parser α := fun input c =>
  match p input { c with noIn := true } with
  | .ok a c' => .ok a { c' with noIn := false }
  | .error e c' => .error e { c' with noIn := false }

/-- What one round of a list parser found. -/
inductive Round (α : Type) where
  /-- The list has ended. -/
  | stop
  /-- The last item. -/
  | last (item : α)
  /-- An item with more to come. -/
  | more (item : α)

/-- Collects the items of rounds; every round takes a token, so there are fewer than `fuel`. -/
def collect {α : Type} (round : Parser (Round α)) : (fuel : Nat) → Parser (List α)
  | 0 => stalled
  | fuel + 1 => do
    match ← round with
    | .stop => return []
    | .last item => return [item]
    | .more item => return item :: (← collect round fuel)

/-- More rounds than any list of this input has. -/
def rounds : Parser Nat := do
  return (← read).tokens.size + 1

/-- Items between commas up to a closing token, which is not taken.  A comma may follow the last
item. -/
def separated {α : Type} (close : TokenKind) (item : Parser α) : Parser (List α) := do
  let round : Parser (Round α) := do
    if ← atKind close then return .stop
    let a ← item
    if ← eat .comma then return .more a else return .last a
  collect round (← rounds)

end Parser

end Whittle.Syntax
