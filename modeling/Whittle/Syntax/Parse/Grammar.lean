import Whittle.Syntax.Parse.Cursor

/-!
# Productions that call each other

The grammar is layered: a production calls the ones below it directly.  A call back to a higher layer
goes through `Productions`, and only after a token was taken.  Parsing is then the composition of the
layers with themselves, once for every token at most.
-/

namespace Whittle.Syntax

/-- The productions that lower layers may call again. -/
structure Productions where
  /-- A type annotation, which is thrown away. -/
  typeOnly : Parser Unit
  /-- A name, an array pattern or an object pattern. -/
  target : Parser Pattern
  /-- An operand of a unary operator. -/
  unary : Parser Expr
  /-- Operators of at least the given precedence. -/
  binary : Nat → Parser Expr
  /-- An expression without comma. -/
  assignment : Parser Expr
  /-- An expression. -/
  expression : Parser Expr
  /-- A statement. -/
  statement : Parser Stmt

/-- Productions that never succeed. -/
def Productions.none : Productions :=
  ⟨Parser.stalled, Parser.stalled, Parser.stalled, fun _ => Parser.stalled, Parser.stalled,
   Parser.stalled, Parser.stalled⟩

end Whittle.Syntax
