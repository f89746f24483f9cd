import Whittle.Syntax.Parse.Grammar

/-!
# Type annotations

Types are read and thrown away.
-/

namespace Whittle.Syntax.Parser

/-- How a token changes the number of open brackets. -/
def bracketDepth (depth : Nat) (token : Token) : Nat :=
  match token.kind with
  | .openParen | .openBrace | .openBracket => depth + 1
  | .closeParen | .closeBrace | .closeBracket => depth - 1
  | .operator =>
    if token.text == "<" then depth + 1
    else if token.text == ">" then depth - 1
    else if token.text == ">>" then depth - 2
    else depth
  | _ => depth

/-- Takes tokens until no bracket is open. -/
def untilClosed (depth : Nat) : (fuel : Nat) → Parser Unit
  | 0 => stalled
  | fuel + 1 => do
    match ← next with
    | none => unexpected "closing bracket"
    | some token =>
      let depth := bracketDepth depth token
      if depth == 0 then return () else untilClosed depth fuel

/-- Takes a group of tokens with all brackets it opens. -/
def balanced : Parser Unit := do
  untilClosed 0 (← rounds)

/-- Takes type parameters, if there are any. -/
def typeParameters : Parser Unit := do
  if ← atOperator "<" then balanced

/-- Takes `.name` as long as there is one. -/
def typePath : (fuel : Nat) → Parser Unit
  | 0 => stalled
  | fuel + 1 => do
    if ← atKind .dot then
      skip
      let _ ← word
      typePath fuel

/-- Takes `[]` as long as there is one. -/
def typeSuffix : (fuel : Nat) → Parser Unit
  | 0 => stalled
  | fuel + 1 => do
    if (← atKind .openBracket) && (← peekAt 1).any (·.kind == .closeBracket) then
      skip
      skip
      typeSuffix fuel

/-- Takes one member of a union of types. -/
def typeMember (r : Productions) : Parser Unit := do
  match ← peekKind with
  | some .openParen | some .openBrace | some .openBracket =>
    balanced
    if ← eat .arrow then r.typeOnly
  | some .identifier | some .keyword | some .string | some .number =>
    skip
    typePath (← rounds)
    typeParameters
  | _ => unexpected "type"
  typeSuffix (← rounds)

/-- Takes the members of a union or intersection of types. -/
def typeUnion (r : Productions) : (fuel : Nat) → Parser Unit
  | 0 => stalled
  | fuel + 1 => do
    typeMember r
    if (← atOperator "|") || (← atOperator "&") then
      skip
      typeUnion r fuel

/-- Takes a type. -/
def typeOnly (r : Productions) : Parser Unit := do
  typeUnion r (← rounds)

/-- Takes `: type`, if there is one. -/
def typeAnnotation (r : Productions) : Parser Unit := do
  if ← eat .colon then typeOnly r

end Whittle.Syntax.Parser
