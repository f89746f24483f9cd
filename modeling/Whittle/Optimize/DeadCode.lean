import Whittle.Optimize.Site

/-!
# Dead code

An instruction without effects goes when nobody reads what it defines.  Blocks are visited in
post-order and scanned backwards, and what goes no longer reads, so a whole chain of unread values
goes in one round.
-/

namespace Whittle.Ir

/-- What tells whether the destructuring of an array does nothing but bind computed values. -/
structure ArrayShapes where
  /-- Array patterns and their targets. -/
  patterns : CellMap (List (Option Place))
  /-- Targets that are plain names. -/
  bindings : CellSet
  /-- Array literals without spreads. -/
  arrays : CellSet

/-- The shapes in a function. -/
def Function.arrayShapes (f : Function) : ArrayShapes :=
  let instructions := f.instructions
  let spreads : CellSet := .ofList <| instructions.filterMap fun i =>
    match i.op with
    | .spread _ => some i.place.cell.id
    | _ => none
  { patterns := .ofList <| instructions.filterMap fun i =>
      match i.op with
      | .arrayPattern elements => some (i.place.cell.id, elements)
      | _ => none
    bindings := .ofList <| instructions.filterMap fun i =>
      match i.op with
      | .binding _ => some i.place.cell.id
      | _ => none
    arrays := .ofList <| instructions.filterMap fun i =>
      match i.op with
      | .array elements =>
        if elements.any fun e => spreads.contains e.cell.id then none else some i.place.cell.id
      | _ => none }

/-- How often each cell is still read. -/
abbrev ReadCounts := CellMap Nat

/-- How often a place's cell is still read. -/
def ReadCounts.of (counts : ReadCounts) (p : Place) : Nat := counts.getD p.cell.id 0

/-- Takes back one read of each place. -/
def ReadCounts.release (counts : ReadCounts) (places : List Place) : ReadCounts :=
  places.foldl (fun counts p => counts.modify p.cell.id (· - 1)) counts

/-- Whether an instruction can go.  The copies of joins stay always; each target of an array pattern
is read once, by the pattern itself. -/
def Instr.isDead (env : Environment) (shapes : ArrayShapes) (counts : ReadCounts) (i : Instr) :
    Bool :=
  let isUnread (p : Place) : Bool := counts.of p == 0
  match i.op with
  | .copy .. => false
  | .storeLocal target _ _ =>
    isUnread i.place && isUnread target && !env.isCapturedMutable target.declaration
  | .destructure pattern value _ =>
    match shapes.patterns.get? pattern.cell.id with
    | none => false
    | some elements =>
      isUnread i.place && shapes.arrays.contains value.cell.id &&
        (elements.flatMap Option.toList).all fun e =>
          shapes.bindings.contains e.cell.id && counts.of e ≤ 1 &&
            !env.isCapturedMutable e.declaration
  | op => op.isPure && isUnread i.place

/-- Removes dead instructions from the end of a block to its start. -/
def sweepBlock (env : Environment) (shapes : ArrayShapes) :
    List Instr → ReadCounts → List Instr × ReadCounts
  | [], counts => ([], counts)
  | i :: is, counts =>
    let (kept, counts) := sweepBlock env shapes is counts
    if i.isDead env shapes counts then (kept, counts.release i.reads) else (i :: kept, counts)

/-- Removes dead instructions from the blocks of a function, in post-order. -/
def Function.sweep (env : Environment) (f : Function) (counts : ReadCounts) :
    Function × ReadCounts :=
  let shapes := f.arrayShapes
  f.flow.postOrder.foldl
    (fun (f, counts) id =>
      match f.blocks.get? id with
      | none => (f, counts)
      | some b =>
        let (instructions, counts) := sweepBlock env shapes b.instructions counts
        (f.setBlock id { b with instructions }, counts))
    (f, counts)

/-- One round of removing dead code; tells whether there was any. -/
def Module.sweepDead (m : Module) (env : Environment) : Bool × Module :=
  let (result, _) := m.functions.entries.foldl
    (fun (result, counts) e =>
      let (f, counts) := e.2.sweep env counts
      (Module.setFunction result e.1 f, counts))
    (m, m.readCounts)
  (result.instructions.length != m.instructions.length, result)

end Whittle.Ir
