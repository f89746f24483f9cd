import Std.Data.TreeMap.Basic
import Std.Data.TreeSet.Basic

/-!
# Ids of intermediate code

Things of intermediate code are known by number.  The kind of thing is part of the type, so that a
block is never taken for an instruction.
-/

namespace Whittle.Ir

/-- What an id counts. -/
inductive IdKind where
  | block
  | place
  | cell
  | declaration
  | instruction
  | function
  | phi
deriving DecidableEq, Repr

/-- What is written before the number. -/
def IdKind.mark : IdKind → String
  | .block => "bb"
  | .place => "%"
  | .cell => "$"
  | .declaration => "d"
  | .instruction => "i"
  | .function => "fn"
  | .phi => "phi_"

/-- The number of one thing. -/
structure Id (kind : IdKind) where
  /-- Counts from zero. -/
  index : Nat
deriving DecidableEq, Repr, Inhabited, Hashable

namespace Id

variable {kind : IdKind}

/-- The id as dumps and messages write it. -/
def text (id : Id kind) : String := kind.mark ++ toString id.index

/-- The id after this one. -/
def next (id : Id kind) : Id kind := ⟨id.index + 1⟩

instance : Ord (Id kind) := ⟨fun a b => compare a.index b.index⟩

instance : Std.TransOrd (Id kind) where
  eq_swap {a b} := Std.OrientedOrd.eq_swap (a := a.index) (b := b.index)
  isLE_trans {a b c} h₁ h₂ :=
    Std.TransOrd.isLE_trans (a := a.index) (b := b.index) (c := c.index) h₁ h₂

instance : Std.LawfulEqOrd (Id kind) where
  compare_self {a} := Std.ReflOrd.compare_self (a := a.index)
  eq_of_compare {a b} h := by
    cases a; cases b
    exact congrArg _ (Std.LawfulEqOrd.eq_of_compare h)

end Id

/-- A basic block. -/
abbrev BlockId := Id .block
/-- One occurrence of a cell. -/
abbrev PlaceId := Id .place
/-- One version of a declaration. -/
abbrev CellId := Id .cell
/-- A variable of the program, or a value without a name. -/
abbrev DeclId := Id .declaration
/-- An instruction. -/
abbrev InstrId := Id .instruction
/-- A function. -/
abbrev FuncId := Id .function
/-- A join of versions. -/
abbrev PhiId := Id .phi

/-- Something about many cells.  A function has as many cells as instructions, so looking one up has
to be fast; nothing depends on the order of the entries. -/
abbrev CellMap (ν : Type) := Std.TreeMap CellId ν
/-- A set of many cells. -/
abbrev CellSet := Std.TreeSet CellId

end Whittle.Ir
