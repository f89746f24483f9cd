import Whittle.Optimize.Fold
import Whittle.Optimize.Site
import Whittle.Project.Path

/-!
# Constant propagation

Instructions whose operands are known become literals.  Values flow from literals through stores and
the destructuring of arrays to loads.  Only a cell with a single write is trusted, and only where that
write comes first; a variable that code elsewhere may still change is never followed.  What a module
exports is published, so that modules importing it can use it.
-/

namespace Whittle.Ir

/-- Known exports of the modules of a project, by path and exported name. -/
structure Constants where
  /-- The exports of each module. -/
  modules : Table String (Table String Value) := ∅
deriving Inhabited

namespace Constants

/-- The known exports of a module, if it has published any. -/
def exportsOf? (c : Constants) (path : String) : Option (Table String Value) :=
  c.modules.get? (Path.key path)

/-- The value exported under a name. -/
def get? (c : Constants) (path name : String) : Option Value :=
  (c.exportsOf? path).bind (·.get? name)

/-- Publishes a value; tells whether that was news. -/
def publish (c : Constants) (path name : String) (value : Value) : Bool × Constants :=
  let exports := (c.exportsOf? path).getD ∅
  let isKnown := (exports.get? name).any (·.same value)
  let exports := if isKnown then exports else exports.insert name value
  (!isKnown, { c with modules := c.modules.insert (Path.key path) exports })

end Constants

/-- Known values of cells. -/
abbrev Known := CellMap Value

/-- What is known about the values of a module. -/
structure Facts where
  /-- Where each cell is written. -/
  definitions : CellMap (List Site)
  /-- The cells whose value is known. -/
  known : Known

/-- Whether the value of a cell can be followed. -/
def isTrackable (env : Environment) (definitions : CellMap (List Site)) (cell : Cell) : Bool :=
  isWrittenOnce definitions cell.id && !env.isCapturedMutable cell.declaration

/-- Adds what the targets of an array pattern take from the elements of an array literal. -/
def learnPositions (isTracked : Cell → Bool) (ops : CellMap Op) :
    List (Option Place × Place) → Known → Known
  | [], known => known
  | (none, _) :: more, known => learnPositions isTracked ops more known
  | (some target, source) :: more, known =>
    let isBinding := match ops.get? target.cell.id with
      | some (.binding _) => true
      | _ => false
    let isSpread := match ops.get? source.cell.id with
      | some (.spread _) => true
      | _ => false
    let known :=
      if isBinding && !isSpread && isTracked target.cell then
        match known.get? source.cell.id with
        | some value => known.insert target.cell.id value
        | none => known
      else known
    learnPositions isTracked ops more known

/-- Adds what an instruction makes known. -/
def learn (isTracked : Cell → Bool) (ops : CellMap Op) (known : Known) (i : Instr) : Known :=
  match i.op with
  | .storeLocal target value _ =>
    match known.get? value.cell.id with
    | some v =>
      let known := if isTracked target.cell then known.insert target.cell.id v else known
      known.insert i.place.cell.id v
    | none => known
  | .destructure pattern value _ =>
    match ops.get? pattern.cell.id, ops.get? value.cell.id with
    | some (.arrayPattern targets), some (.array sources) =>
      if targets.length == sources.length then
        learnPositions isTracked ops (targets.zip sources) known
      else known
    | _, _ => known
  | _ => known

/-- The operations of a function by the cell they define. -/
def Function.ops (f : Function) : CellMap Op :=
  .ofList (f.instructions.map fun i => (i.place.cell.id, i.op))

namespace Module

/-- The values of literals. -/
def literals (m : Module) : Known :=
  .ofList <| m.instructions.filterMap fun i =>
    match i.op with
    | .literal value => some (i.place.cell.id, value)
    | _ => none

/-- What is known about the values of a module. -/
def facts (m : Module) (env : Environment) : Facts :=
  let definitions := m.definitions
  let isTracked := isTrackable env definitions
  { definitions
    known := m.functions.values.foldl
      (fun known f => f.instructions.foldl (learn isTracked f.ops) known)
      m.literals }

end Module

/-- The value of an operation on known values. -/
def Op.value? (known : Known) : Op → Option Value
  | .binary op left right => do Value.binary? op (← val left) (← val right)
  | .unary op argument => do Value.unary? op (← val argument)
  | .logical op left right => return Value.logical op (← val left) (← val right)
  | .conditional test consequent alternate => do
    let c ← val consequent
    let a ← val alternate
    return if (← val test).isTruthy then c else a
  | _ => none
where
  val (p : Place) : Option Value := known.get? p.cell.id

/-- The value that a load gives.  The one write of the cell has to come first; in another function,
which may run at any time, the variable has to be one that never changes. -/
def loadValue? (env : Environment) (facts : Facts) (flow : Flow) (site : Site) (cell : Cell) :
    Option Value := do
  let value ← facts.known.get? cell.id
  match facts.definitions.get? cell.id with
  | some [definition] =>
    let isTrusted :=
      if definition.function == site.function then definition.dominates site flow
      else !(env.kindOf cell.declaration).isMutable
    if isTrusted then some value else none
  | _ => none

/-- The value that an import gives. -/
def Module.importValue? (m : Module) (constants : Constants) (name : String) : Option Value := do
  let binding ← m.globals.get? name
  constants.get? (← binding.resolved) (← binding.imported)

/-- The value that an instruction can be replaced by. -/
def Module.instrValue? (m : Module) (env : Environment) (constants : Constants) (facts : Facts)
    (flow : Flow) (guarded : CellSet) (site : Site) (i : Instr) : Option Value :=
  match i.op with
  | .literal _ => none
  | .loadLocal place =>
    if guarded.contains i.place.cell.id then none
    else loadValue? env facts flow site place.cell
  | .loadGlobal name => m.importValue? constants name
  | op => op.value? facts.known

/-- Replaces instructions by literals where `value?` knows their value; tells whether there were
any. -/
def replaceKnown (value? : Nat → Instr → Option Value) (instructions : List Instr) :
    Bool × List Instr :=
  let results := instructions.mapIdx fun index i =>
    match value? index i with
    | some value => (true, { i with op := .literal value })
    | none => (false, i)
  (results.any (·.1), results.map (·.2))

/-- Replaces the known instructions of a function. -/
def Module.foldFunction (m : Module) (env : Environment) (constants : Constants) (facts : Facts)
    (f : Function) : Bool × Function :=
  let guarded := f.selfCopies
  let blocks := f.blocks.map fun id b =>
    let (changed, instructions) := replaceKnown
      (fun index => m.instrValue? env constants facts f.flow guarded ⟨f.id, some id, index⟩)
      b.instructions
    (changed, { b with instructions })
  (blocks.values.any (·.1), { f with blocks := blocks.map fun _ r => r.2 })

/-- The value that an export instruction publishes. -/
def exportValue? (env : Environment) (facts : Facts) (i : Instr) : Option Value :=
  match i.op with
  | .exportSpecifier bound _ =>
    if isWrittenOnce facts.definitions bound.cell.id &&
        (env.versionsOf bound.declaration).length == 1 then
      facts.known.get? bound.cell.id
    else none
  | .exportDefault value => facts.known.get? value.cell.id
  | _ => none

/-- Publishes the known exports of a module; tells whether that was news. -/
def Module.publishExports (m : Module) (env : Environment) (facts : Facts)
    (constants : Constants) : Bool × Constants :=
  m.exports.entries.foldl
    (fun (changed, constants) e =>
      match (m.instructions.find? (·.id == e.2)).bind (exportValue? env facts) with
      | some value =>
        let (isNew, constants) := constants.publish m.path e.1 value
        (changed || isNew, constants)
      | none => (changed, constants))
    (false, constants)

/-- One round of constant propagation.  All values are found before anything changes. -/
def Module.propagateConstants (m : Module) (env : Environment) (constants : Constants) :
    Bool × Module × Constants :=
  let facts := m.facts env
  let folded := m.functions.map fun _ f => m.foldFunction env constants facts f
  let folds := folded.values.any (·.1)
  let result := { m with functions := folded.map fun _ r => r.2 }
  let (published, constants) := result.publishExports env facts constants
  (folds || published, result, constants)

end Whittle.Ir
