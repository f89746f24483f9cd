/-!
# Source text

Positions in a source are byte offsets of its UTF-8 form.  Lines and columns count from one, and
columns count bytes.
-/

namespace Whittle

/-- A range of byte offsets, the end excluded. -/
structure Span where
  /-- First byte. -/
  start : Nat
  /-- Byte after the last one. -/
  stop : Nat
deriving DecidableEq, Inhabited, Repr

/-- A program text and the name under which messages mention it. -/
structure Source where
  /-- Where the text comes from. -/
  origin : String
  /-- The text. -/
  text : String
deriving DecidableEq

namespace Source

/-- A text that belongs to no file. -/
def inMemory (text : String) : Source := ⟨"<memory>", text⟩

/-- Walks to byte `position`, keeping line and column of the place reached. -/
def locate (position : Nat) : List Char → (offset line column : Nat) → Nat × Nat
  | [], _, line, column => (line, column)
  | c :: cs, offset, line, column =>
    if position ≤ offset then (line, column)
    else if c == '\n' then locate position cs (offset + 1) (line + 1) 1
    else locate position cs (offset + c.utf8Size) line (column + c.utf8Size)

/-- Line and column of a byte offset; offsets past the end count as the end. -/
def lineColumn (source : Source) (position : Nat) : Nat × Nat :=
  locate position source.text.toList 0 1 1

end Source

end Whittle
