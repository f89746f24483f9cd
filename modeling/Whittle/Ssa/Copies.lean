import Whittle.Ssa.Phis

/-!
# Removing joins

A phi with at least two operands becomes ordinary instructions: a store of the first version right
behind its definition, a copy of each operand at the end of its predecessor, and reads of the operands
that the phi decides are redirected to it.  Other phis just go.
-/

namespace Whittle.Ir

/-- Puts an instruction behind the first one that satisfies `p`, else at the end. -/
def insertBehind (p : Instr → Bool) (new : Instr) : List Instr → List Instr
  | [] => [new]
  | i :: is => if p i then i :: new :: is else i :: insertBehind p new is

namespace Function

/-- The version of a declaration that the function records first. -/
def firstVersion? (f : Function) (env : Environment) (d : DeclId) : Option VersionRecord :=
  (env.versionsOf d).find? fun r => f.blocks.contains r.block

/-- Stores the first version of the variable into the phi, behind its definition. -/
def storeInitial (f : Function) (env : Environment) (phi : Phi) : Function × Environment :=
  match f.firstVersion? env phi.declaration with
  | none => (f, env)
  | some first =>
    let (store, env) := env.newInstr f.id (.storeLocal phi.place first.place .reassign)
    let blocks := f.blocks.modify first.block fun b =>
      { b with instructions := insertBehind (·.defined.contains first.place) store b.instructions }
    ({ f with blocks }, env)

/-- Where a cell is defined: its block and, unless it is defined before all instructions of the
block, its index there. -/
structure DefinitionPoint where
  /-- The block. -/
  block : BlockId
  /-- The index in the block. -/
  index : Option Nat

/-- Where the operands of a phi are defined. -/
def operandPoints (f : Function) (env : Environment) (phi : Phi) : Table CellId DefinitionPoint :=
  Table.ofList <| phi.operands.values.filterMap fun operand =>
    let id := operand.cell.id
    ((env.versionsOf phi.declaration).find? (·.place.cell.id == id)).map fun r =>
      let index := (f.blocks.get? r.block).bind fun b =>
        b.instructions.findIdx? fun i => i.defined.any (·.cell.id == id)
      (id, ⟨r.block, index⟩)

/-- Whether a definition inside the region of a phi decides a read at the given point. -/
def DefinitionPoint.shadows (point : DefinitionPoint) (flow : Flow) (phi : Phi) (block : BlockId)
    (index : Nat) : Bool :=
  flow.dominates phi.block point.block &&
    if point.block == block then
      match point.index with
      | some i => i < index
      | none => true
    else flow.strictlyDominates point.block block

/-- Whether one of the reads at a point is decided by the phi. -/
def isRedirected (flow : Flow) (points : Table CellId DefinitionPoint) (phi : Phi)
    (operands : KeySet CellId) (block : BlockId) (index : Nat) (reads : List Place) : Bool :=
  reads.any fun p =>
    operands.contains p.cell.id &&
      match points.get? p.cell.id with
      | some point => !point.shadows flow phi block index
      | none => true

/-- Redirects the reads of operands to the phi, in the blocks that it dominates. -/
def redirectReads (f : Function) (env : Environment) (phi : Phi) : Function :=
  let points := f.operandPoints env phi
  let operands := KeySet.ofList (phi.operands.values.map (·.cell.id))
  let toPhi : Place → Place := fun p => if operands.contains p.cell.id then phi.place else p
  f.mapBlocks fun id b =>
    if f.flow.dominates phi.block id then
      let redirected := isRedirected f.flow points phi operands id
      { instructions := b.instructions.mapIdx fun index i =>
          if redirected index i.reads then i.mapReads toPhi else i
        terminal := b.terminal.map fun t =>
          if redirected b.instructions.length t.reads then t.mapReads toPhi else t }
    else b

/-- Copies operands into the phi at the ends of their predecessors. -/
def insertCopies (phi : Phi) : List (BlockId × Place) → Function → Environment →
    Outcome (Function × Environment)
  | [], f, env => .ok (f, env)
  | (predecessor, operand) :: more, f, env =>
    let (load, env) := env.newInstr f.id (.loadLocal operand)
    let (copy, env) := env.newInstr f.id (.copy phi.place load.place)
    let (statement, env) := env.newInstr f.id (.expressionStatement copy.place)
    match f.blocks.get? predecessor with
    | none => .error (.blockNotFound predecessor.text)
    | some b =>
      let b := { b with instructions := b.instructions ++ [load, copy, statement] }
      insertCopies phi more (f.setBlock predecessor b) env

/-- Replaces one phi by instructions. -/
def eliminatePhi (phi : Phi) (f : Function) (env : Environment) :
    Outcome (Function × Environment) :=
  let (f, env) := f.storeInitial env phi
  insertCopies phi phi.operands.entries (f.redirectReads env phi) env

/-- Replaces phis by instructions, one after the other. -/
def eliminatePhis : List Phi → Function → Environment → Outcome (Function × Environment)
  | [], f, env => .ok (f, env)
  | phi :: phis, f, env =>
    if phi.operands.size ≤ 1 then eliminatePhis phis f env
    else do
      let (f, env) ← eliminatePhi phi f env
      eliminatePhis phis f env

/-- The phis in reverse post-order of their blocks, those of one block by number.  An inner loop's
phi so sees reads that an outer one has redirected. -/
def orderedPhis (f : Function) : List Phi :=
  let order := f.flow.reversePostOrder
  let rank (phi : Phi) : Nat := (order.findIdx? (· == phi.block)).getD order.length
  f.phis.mergeSort fun p q =>
    rank p < rank q || (rank p == rank q && p.id.index ≤ q.id.index)

/-- Removes the phis of a function. -/
def eliminateSsa (f : Function) (env : Environment) : Outcome (Function × Environment) :=
  eliminatePhis f.orderedPhis { f with phis := [] } env

end Function

namespace Module

/-- Runs a step on the functions of a module in the order of their numbers. -/
def forFunctions (step : Function → Environment → Outcome (Function × Environment))
    (m : Module) (env : Environment) : Outcome (Module × Environment) :=
  m.functions.entries.foldlM
    (fun (m, env) e => do
      let (f, env) ← step e.2 env
      return (m.setFunction e.1 f, env))
    (m, env)

/-- Gives every function its phis. -/
def buildSsa (m : Module) (env : Environment) : Outcome (Module × Environment) :=
  m.forFunctions (fun f env => .ok (f.buildSsa env)) env

/-- Removes the phis of every function. -/
def eliminateSsa (m : Module) (env : Environment) : Outcome (Module × Environment) :=
  m.forFunctions (fun f env => f.eliminateSsa env) env

/-- Takes every function through its joins and out of them again. -/
def throughSsa (m : Module) (env : Environment) : Outcome (Module × Environment) :=
  m.forFunctions
    (fun f env =>
      let (f, env) := f.buildSsa env
      f.eliminateSsa env)
    env

end Module

end Whittle.Ir
