import Whittle.Ir.Environment
import Whittle.Ir.Module
import Whittle.Lowering.Scope
import Whittle.Syntax.Binding
import Whittle.Syntax.Names

/-!
# The state of lowering

What is known while the tree of a module becomes intermediate code: the function being filled, the
current version of every variable, the scopes, and the functions that are done.  The steps here do
not look at trees; the walk over them is in `Whittle.Lowering.Build`.
-/

namespace Whittle.Lowering

open Ir Syntax

/-- The current version of each variable. -/
abbrev Versions := Table DeclId Place

/-- The versions at the end of a path, and whether control reaches that end. -/
structure Path where
  /-- The versions. -/
  versions : Versions
  /-- Whether control gets there. -/
  isReachable : Bool

/-- The versions where paths meet.  A variable that a reachable path changed takes the version of
that path; where several paths changed it, the last of them wins. -/
def mergeVersions (base : Versions) (paths : List Path) : Versions :=
  (paths.filter (·.isReachable)).foldl
    (fun merged path =>
      path.versions.entries.foldl
        (fun merged e => if base.get? e.1 == some e.2 then merged else merged.insert e.1 e.2)
        merged)
    base

/-- A loop whose body is being lowered. -/
structure LoopFrame where
  /-- Where the loop is left to. -/
  exit : BlockId
  /-- The versions at each reachable `break` out of it, the latest first. -/
  breaks : List Versions

/-- A function being filled. -/
structure Frame where
  /-- What is done of it. -/
  function : Function
  /-- The block being filled. -/
  block : BlockId
  /-- The instructions of that block, the latest first. -/
  filled : List Instr
  /-- Whether control gets here. -/
  isReachable : Bool
  /-- Whether instructions go to the header. -/
  inHeader : Bool
  /-- The current version of each variable of the function. -/
  versions : Versions
  /-- Variables whose first version no declaring statement has taken yet. -/
  unclaimed : KeySet DeclId
  /-- Variables that may not be used yet. -/
  uninitialized : KeySet DeclId
  /-- The loops around, the innermost first. -/
  loops : List LoopFrame

/-- An empty function. -/
def Frame.start (f : Function) : Frame :=
  { function := f, block := f.entry, filled := [], isReachable := true, inHeader := false,
    versions := ∅, unclaimed := ∅, uninitialized := ∅, loops := [] }

/-- Everything known while a module is lowered. -/
structure State where
  /-- Ids and declarations. -/
  env : Environment
  /-- The open scopes. -/
  scopes : Scopes
  /-- The function being filled. -/
  frame : Frame
  /-- The functions around it, the innermost first, with their current versions. -/
  outer : List (FuncId × Versions)
  /-- The functions that are done. -/
  functions : Table FuncId Function
  /-- What imports bind. -/
  globals : Table String ImportBinding
  /-- The export instructions so far. -/
  exports : Table String InstrId

/-- A step of lowering. -/
abbrev Lower := StateT State (Except Error)

/-- Stops with a broken promise. -/
def broken {α : Type} (message : String) : Lower α := throw (.invariantViolation message)

/-- Stops at a construct that cannot be lowered. -/
def refuse {α : Type} (construct : String) : Lower α := throw (.unsupported construct)

/-- Runs a step on the environment. -/
def onEnv {α : Type} (step : Environment → α × Environment) : Lower α :=
  modifyGet fun s =>
    let (a, env) := step s.env
    (a, { s with env })

/-- Changes the function being filled. -/
def onFrame (change : Frame → Frame) : Lower Unit :=
  modify fun s => { s with frame := change s.frame }

/-- The function being filled. -/
def getFrame : Lower Frame := return (← get).frame

/-- The number of the function being filled. -/
def currentFunction : Lower FuncId := return (← getFrame).function.id

/-- Changes the scopes. -/
def onScopes (change : Scopes → Option Scopes) : Lower Unit := do
  match change (← get).scopes with
  | some scopes => modify fun s => { s with scopes }
  | none => broken "no scope is open"

/-- What a name stands for. -/
def lookUp (name : String) : Lower (Option DeclId) := return (← get).scopes.find? name

/-- What a name stands for that some enclosing scope declares. -/
def declared (name : String) : Lower DeclId := do
  match ← lookUp name with
  | some d => pure d
  | none => broken ("`" ++ name ++ "` was not bound by the bindings pre-pass")

/-- Runs a step in a scope of its own. -/
def inScope {α : Type} (kind : ScopeKind) (step : Lower α) : Lower α := do
  onScopes fun scopes => some (scopes.enter kind)
  let a ← step
  onScopes Scopes.leave?
  pure a

/-! ## Blocks -/

/-- The function with its last block put in. -/
def Frame.close (frame : Frame) (terminal : Terminal) : Function :=
  frame.function.setBlock frame.block ⟨frame.filled.reverse, some terminal⟩

/-- Ends the current block and goes on with an empty one. -/
def Frame.endBlock (frame : Frame) (terminal : Terminal) (next : BlockId) : Frame :=
  { frame with function := frame.close terminal, block := next, filled := [] }

/-- Ends the current block and goes on with an empty one. -/
def endBlock (terminal : Terminal) (next : BlockId) : Lower Unit :=
  onFrame (·.endBlock terminal next)

/-- A new block. -/
def newBlock : Lower BlockId := onEnv (·.newBlock)

/-- Ends the current block where control does not go on behind it. -/
def endUnreachable (terminal : Terminal) : Lower Unit := do
  let next ← newBlock
  endBlock terminal next
  onFrame ({ · with isReachable := false })

/-- Adds an instruction that defines the given place. -/
def put (place : Place) (op : Op) (origin : Option Nat) : Lower InstrId := do
  let i ← onEnv (·.newInstrAt place origin op)
  onFrame fun frame =>
    if frame.inHeader then
      { frame with function := { frame.function with header := frame.function.header ++ [i] } }
    else { frame with filled := i :: frame.filled }
  pure i.id

/-- Adds an instruction that defines a new temporary. -/
def emit (op : Op) (origin : Option Nat) : Lower Place := do
  let owner ← currentFunction
  let place ← onEnv (·.newTemporary owner)
  let _ ← put place op origin
  pure place

/-- The paths that leave here. -/
def Frame.path (frame : Frame) : Path := ⟨frame.versions, frame.isReachable⟩

/-- Goes on as at the end of a path. -/
def resume (path : Path) : Lower Unit :=
  onFrame ({ · with versions := path.versions, isReachable := path.isReachable })

/-! ## Variables -/

/-- Marks a declaration as visible outside its function. -/
def capture (d : DeclId) : Lower Unit := modify fun s => { s with env := s.env.capture d }

/-- The next version of a declaration, created in the current block. -/
def newVersion (d : DeclId) : Lower Place := do
  let place ← onEnv (·.newPlace d)
  let frame ← getFrame
  modify fun s => { s with env := s.env.record d frame.block place }
  if (← get).env.ownerOf d == some frame.function.id then
    onFrame fun frame => { frame with versions := frame.versions.insert d place }
  else capture d
  pure place

/-- Adds a declaration of the current function. -/
def newDeclaration (name : String) (kind : DeclKind) : Lower DeclId := do
  let owner ← currentFunction
  onEnv (·.declare (some name) kind owner)

/-- Adds a declaration, binds its name and gives it the version it starts with. -/
def declare (name : String) (kind : DeclKind) (bind : String → DeclId → Scopes → Option Scopes) :
    Lower DeclId := do
  let d ← newDeclaration name kind
  onScopes (bind name d)
  let _ ← newVersion d
  onFrame fun frame => { frame with unclaimed := KeySet.add frame.unclaimed d }
  pure d

/-- The place that a declaring occurrence binds: the first version where nobody has taken it, it is
the only one and it was made in the current block, and a new version otherwise. -/
def bindingPlace (d : DeclId) : Lower Place := do
  let frame ← getFrame
  onFrame fun frame =>
    { frame with
      uninitialized := frame.uninitialized.erase d, unclaimed := frame.unclaimed.erase d }
  match (← get).env.versionsOf d with
  | [only] =>
    if frame.unclaimed.contains d && only.block == frame.block then pure only.place
    else newVersion d
  | _ => newVersion d

/-- Whether the function being filled owns a declaration. -/
def isOwn (d : DeclId) : Lower Bool := do
  return (← get).env.ownerOf d == some (← getFrame).function.id

/-- Whether a declaration of the current function may not be used yet. -/
def isTooEarly (d : DeclId) : Lower Bool := do
  return (← isOwn d) && (← getFrame).uninitialized.contains d

/-- The current version of a declaration of the current function. -/
def ownVersion (d : DeclId) (failure : String) : Lower Place := do
  match (← getFrame).versions.get? d with
  | some place => pure place
  | none => broken failure

/-- The current version of a declaration as its owner around the current function has it, or the one
recorded last. -/
def State.outerVersion? (s : State) (d : DeclId) : Option Place :=
  let held := (s.outer.find? fun o => some o.1 == s.env.ownerOf d).bind (·.2.get? d)
  held.or (s.env.latest? d)

/-- The current version of a declaration as the current function sees it. -/
def readVersion (name : String) (d : DeclId) : Lower Place := do
  if ← isOwn d then
    if ← isTooEarly d then throw (.useBeforeDeclaration name)
    ownVersion d ("declaration `" ++ name ++ "` has no version in its own function")
  else
    capture d
    match (← get).outerVersion? d with
    | some place => pure place
    | none => broken ("captured declaration `" ++ name ++ "` has no version")

/-! ## Source kept as it stands -/

/-- The names in order, each once. -/
def distinctNames (idents : List Ident) : List String := (addNew [] idents).map (·.name)

/-- The variables that kept source mentions.  It may read and write them in ways that no instruction
shows, so all of them count as captured; mentioning one before its declaration is no error. -/
def captureAll (exclude : Option DeclId) : List String → Lower (List (String × Place))
  | [] => pure []
  | name :: names => do
    match ← lookUp name with
    | none => captureAll exclude names
    | some d =>
      if some d == exclude then captureAll exclude names
      else
        capture d
        let place ←
          if ← isTooEarly d then ownVersion d ("declaration `" ++ name ++ "` has no version")
          else readVersion name d
        return (name, place) :: (← captureAll exclude names)

/-- Keeps an expression as it stands. -/
def keepExpr (e : Expr) : Lower Place := do
  let bindings ← captureAll none (distinctNames e.names)
  emit (.unsupported (.expression e) bindings) e.node.id

/-- Keeps a statement as it stands.  A statement that declares a name defines the version of it. -/
def keepStmt (s : Stmt) (defines : Option DeclId) : Lower Unit := do
  let bindings ← captureAll defines (distinctNames s.names)
  let op := Op.unsupported (.statement s) bindings
  match defines with
  | some d => let _ ← put (← bindingPlace d) op s.node.id
  | none => let _ ← emit op s.node.id

/-! ## Reading and writing names -/

/-- Reads a name. -/
def loadName (ident : Ident) : Lower Place := do
  match ← lookUp ident.name with
  | some d => emit (.loadLocal (← readVersion ident.name d)) ident.node.id
  | none =>
    if ident.name == "undefined" && !(← get).globals.contains ident.name then
      emit (.literal .undefined) ident.node.id
    else emit (.loadGlobal ident.name) ident.node.id

/-- Writes a name. -/
def storeName (ident : Ident) (value : Place) (origin : Option Nat) : Lower Place := do
  match ← lookUp ident.name with
  | some d =>
    if ← isTooEarly d then throw (.useBeforeDeclaration ident.name)
    let target ← newVersion d
    emit (.storeLocal target value .reassign) origin
  | none => emit (.storeGlobal ident.name value) origin

/-- How the names of a pattern are bound. -/
inductive PatternUse where
  /-- They were declared when their scope was opened. -/
  | declaration
  /-- They are declared here. -/
  | parameter
  /-- They exist already. -/
  | assignment
deriving DecidableEq, Repr

/-- The version that a name in a pattern binds. -/
def PatternUse.target (use : PatternUse) (name : String) : Lower Place := do
  match use with
  | .declaration => bindingPlace (← declared name)
  | .parameter =>
    let d ← newDeclaration name .parameter
    onScopes (Scopes.bind? name d)
    newVersion d
  | .assignment => newVersion (← declared name)

/-! ## Opening scopes -/

/-- Declares the variables of a whole function that no parameter declares. -/
def declareHoisted : List Ident → Lower Unit
  | [] => pure ()
  | ident :: idents => do
    if ((← get).scopes.findHere? ident.name).isNone then
      let _ ← declare ident.name .varKind Scopes.hoist?
    declareHoisted idents

/-- Declares the names of a statement list.  Answers the declarations and first versions of its
functions, in order: they are built once every name is bound, so that they can mention each other. -/
def declareLexical : List LexicalBinding → Lower (List (DeclId × Place))
  | [] => pure []
  | binding :: bindings => do
    let name := binding.ident.name
    match binding.kind with
    | .functionBinding =>
      let d ← newDeclaration name .functionKind
      onScopes (Scopes.bind? name d)
      let place ← newVersion d
      return (d, place) :: (← declareLexical bindings)
    | .letBinding => declareVariable name .letKind; declareLexical bindings
    | .constBinding => declareVariable name .constKind; declareLexical bindings
    | .classBinding => declareVariable name .classKind; declareLexical bindings
where
  declareVariable (name : String) (kind : DeclKind) : Lower Unit := do
    let d ← declare name kind Scopes.bind?
    onFrame fun frame => { frame with uninitialized := KeySet.add frame.uninitialized d }

/-- Fills a new function in a scope of its own.  The function around it is left as it was. -/
def inFunction (id : FuncId) (name : Option String) (kind : FunctionKind) (origin : Option Nat)
    (fill : Lower Unit) : Lower FuncId := do
  let entry ← newBlock
  let around ← getFrame
  let start := Function.start id name (some around.function.id) kind origin entry
  modify fun s =>
    { s with
      frame := Frame.start start
      outer := (around.function.id, around.versions) :: s.outer }
  inScope .function fill
  modify fun s =>
    { s with
      frame := around
      outer := s.outer.tail
      functions := s.functions.insert id (s.frame.close (.ret none)).recomputeFlow }
  pure id

/-! ## Exports -/

/-- Notes an export instruction. -/
def addExport (exported : String) (id : InstrId) : Lower Unit :=
  modify fun s => { s with exports := s.exports.insert exported id }

/-- Adds an instruction that publishes a value under a name. -/
def emitExport (op : Op) (exported : String) (origin : Option Nat) : Lower Place := do
  let owner ← currentFunction
  let place ← onEnv (·.newTemporary owner)
  let id ← put place op origin
  addExport exported id
  pure place

/-- Publishes declarations; importers can see them from now on. -/
def exportLocals (origin : Option Nat) : List (DeclId × String) → Lower (List Place)
  | [] => pure []
  | (d, exported) :: more => do
    let name := ((← get).env.nameOf d).getD exported
    let place ← readVersion name d
    capture d
    let specifier ← emitExport (.exportSpecifier place exported) exported origin
    return specifier :: (← exportLocals origin more)

/-- Publishes declarations together. -/
def exportAll (origin : Option Nat) (locals : List (DeclId × String)) : Lower Unit := do
  let specifiers ← exportLocals origin locals
  let _ ← emit (.exportNames specifiers) origin

end Whittle.Lowering
