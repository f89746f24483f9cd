import Whittle.Ir.Environment
import Whittle.Ir.Module

/-!
# Sites of instructions

Where instructions stand, which cells they write and how often each cell is read: what the passes ask
about a module before they change it.
-/

namespace Whittle.Ir

/-- Where an instruction stands. -/
structure Site where
  /-- In which function. -/
  function : FuncId
  /-- In which block, or in the header. -/
  block : Option BlockId
  /-- At which index. -/
  index : Nat
deriving DecidableEq, Repr

/-- Whether an instruction at `a` always runs before one at `b`, of a function with the given
control flow. -/
def Site.dominates (a b : Site) (flow : Flow) : Bool :=
  a.function == b.function &&
    match a.block, b.block with
    | none, none => a.index < b.index
    | none, some _ => true
    | some _, none => false
    | some p, some q => if p == q then a.index < b.index else flow.strictlyDominates p q

/-- The instructions of a function with their sites. -/
def Function.sited (f : Function) : List (Site × Instr) :=
  f.header.mapIdx (fun index i => (⟨f.id, none, index⟩, i)) ++
    f.blocks.entries.flatMap fun e =>
      e.2.instructions.mapIdx fun index i => (⟨f.id, some e.1, index⟩, i)

namespace Module

/-- The instructions of all functions with their sites. -/
def sited (m : Module) : List (Site × Instr) := m.functions.values.flatMap (·.sited)

/-- Where each cell is written. -/
def definitions (m : Module) : CellMap (List Site) :=
  m.sited.foldl
    (fun table e =>
      e.2.defined.foldl
        (fun table p => table.insert p.cell.id (table.getD p.cell.id [] ++ [e.1]))
        table)
    ∅

/-- How often each cell is read, terminals included. -/
def readCounts (m : Module) : CellMap Nat :=
  m.reads.foldl (fun counts p => counts.insert p.cell.id (counts.getD p.cell.id 0 + 1)) ∅

end Module

/-- Whether exactly one instruction writes a cell. -/
def isWrittenOnce (definitions : CellMap (List Site)) (cell : CellId) : Bool :=
  match definitions.get? cell with
  | some [_] => true
  | _ => false

/-- Loads whose value is written back into the variable they read.  They stand for the copies of
joins and have to stay loads. -/
def Function.selfCopies (f : Function) : CellSet :=
  let loads : CellMap DeclId := .ofList <| f.instructions.filterMap fun i =>
    match i.op with
    | .loadLocal place => some (i.place.cell.id, place.declaration)
    | _ => none
  let isSelf (target value : Place) : Bool := loads.get? value.cell.id == some target.declaration
  .ofList <| f.instructions.filterMap fun i =>
    match i.op with
    | .storeLocal target value _ | .copy target value =>
      if isSelf target value then some value.cell.id else none
    | _ => none

end Whittle.Ir
