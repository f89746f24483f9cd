import Whittle.Syntax.Parse.Statement

/-!
# Parsing modules

Ties the layers of the grammar together.  A call back to a higher layer is made only after a token
was taken, so as many compositions as there are tokens reach every statement.
-/

namespace Whittle.Syntax

/-- The grammar composed with itself the given number of times. -/
def Productions.nest : Nat → Productions
  | 0 => .none
  | n + 1 =>
    let r := nest n
    ⟨Parser.typeOnly r, Parser.target r, Parser.unary r, Parser.binary r, Parser.assignment r,
     Parser.expression r, Parser.statement r⟩

namespace Parser

/-- The statements of a module. -/
def statements : Parser (List Stmt) := do
  let r := Productions.nest (← rounds)
  let round : Parser (Round Stmt) := do
    if (← peek).isNone then return .stop
    return .more (← r.statement)
  collect round (← rounds)

end Parser

/-- The cursor at the start of a source. -/
def Cursor.initial : Cursor := ⟨0, 0, 0, false⟩

/-- The tree of a source. -/
def parse (source : Source) : Outcome Module := do
  let tokens ← source.tokens
  match Parser.statements ⟨source, tokens.toArray⟩ Cursor.initial with
  | .ok body _ => return ⟨⟨0, source.text.utf8ByteSize⟩, body⟩
  | .error e _ => throw e

end Whittle.Syntax
