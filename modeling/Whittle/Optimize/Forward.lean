import Whittle.Optimize.Site

/-!
# Forwarding stored values

Inside a block, a variable that is written once, read once and seen by nobody else is skipped: a store
of what was loaded from it becomes a store of what was stored in it.  The store and the load left
behind are dead.
-/

namespace Whittle.Ir

/-- What is known in the middle of a block. -/
structure Forwarding where
  /-- Values stored into variables that can be skipped. -/
  stores : CellMap Place := ∅
  /-- Loads of those variables: the stored value and the variable. -/
  loads : CellMap (Place × DeclId) := ∅

namespace Forwarding

/-- The value to store instead.  A value loaded from the variable itself stands for the copy of a join
and stays. -/
def source? (s : Forwarding) (target value : Place) : Option Place :=
  match s.loads.get? value.cell.id with
  | some (source, d) => if d == target.declaration then none else some source
  | none => none

/-- Takes notice of a store. -/
def noteStore (canSkip : Place → Place → Bool) (s : Forwarding) (target value : Place) :
    Forwarding :=
  if canSkip target value then { s with stores := s.stores.insert target.cell.id value } else s

/-- Takes notice of a load. -/
def noteLoad (s : Forwarding) (result place : Place) : Forwarding :=
  match s.stores.get? place.cell.id with
  | some value =>
    { s with loads := s.loads.insert result.cell.id (value, place.declaration) }
  | none => s

end Forwarding

/-- Forwards values through the instructions of a block; tells whether any was. -/
def forwardBlock (canSkip : Place → Place → Bool) : Forwarding → List Instr → Bool × List Instr
  | _, [] => (false, [])
  | s, i :: is =>
    match i.op with
    | .loadLocal place =>
      let (changed, is) := forwardBlock canSkip (s.noteLoad i.place place) is
      (changed, i :: is)
    | .storeLocal target value kind =>
      let source := s.source? target value
      let value := source.getD value
      let (changed, is) := forwardBlock canSkip (s.noteStore canSkip target value) is
      (source.isSome || changed, { i with op := .storeLocal target value kind } :: is)
    | .copy target value =>
      let source := s.source? target value
      let (changed, is) := forwardBlock canSkip s is
      (source.isSome || changed, { i with op := .copy target (source.getD value) } :: is)
    | _ =>
      let (changed, is) := forwardBlock canSkip s is
      (changed, i :: is)

/-- Whether a variable can be skipped, given where cells are written and how often they are read.
The stored value has to be a temporary: a named value may have changed by the time of the later
store. -/
def canSkip (definitions : CellMap (List Site)) (counts : CellMap Nat) (env : Environment)
    (target value : Place) : Bool :=
  isWrittenOnce definitions target.cell.id && counts.get? target.cell.id == some 1 &&
    !env.isCapturedMutable target.declaration && env.isTemporary value.declaration

/-- Applies a change to the instructions of every block; tells whether any block changed. -/
def Module.onBlocks (change : List Instr → Bool × List Instr) (m : Module) : Bool × Module :=
  let results := m.functions.map fun _ f =>
    let blocks := f.blocks.map fun _ b =>
      let (changed, instructions) := change b.instructions
      (changed, { b with instructions })
    (blocks.values.any (·.1), { f with blocks := blocks.map fun _ r => r.2 })
  (results.values.any (·.1), { m with functions := results.map fun _ r => r.2 })

/-- One round of forwarding. -/
def Module.forwardStores (m : Module) (env : Environment) : Bool × Module :=
  m.onBlocks (forwardBlock (canSkip m.definitions m.readCounts env) {})

end Whittle.Ir
