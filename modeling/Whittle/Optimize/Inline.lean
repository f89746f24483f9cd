import Whittle.Optimize.Site

/-!
# Inlining

A call of a small function of the module is replaced by a copy of its body.  The function has to be
declared at the top of the module, run straight through to its return, have plain names for parameters
and not reach itself through calls.  The arguments are bound to the parameters by the destructuring of
one array, so all of them are evaluated before any parameter is written.
-/

namespace Whittle.Ir

/-- A call whose callee is known. -/
structure CallSite where
  /-- The block of the call. -/
  block : BlockId
  /-- Its index there. -/
  index : Nat
  /-- What is called. -/
  callee : FuncId
deriving DecidableEq, Repr

/-- Which functions each function calls. -/
abbrev CallGraph := Table FuncId (KeySet FuncId)

/-- Which functions are known to reach themselves through calls, or not to. -/
abbrev RecursionCache := Table FuncId Bool

/-- The calls whose callee is a function declaration that nothing else writes. -/
def Function.directCalls (f : Function) (env : Environment) : List CallSite :=
  let loads : CellMap DeclId := .ofList <| f.instructions.filterMap fun i =>
    match i.op with
    | .loadLocal place => some (i.place.cell.id, place.declaration)
    | _ => none
  f.blocks.entries.flatMap fun e =>
    e.2.instructions.zipIdx.filterMap fun (i, index) => do
      let .call callee _ := i.op | none
      let d ← loads.get? callee.cell.id
      let target ← env.functions.get? d
      if (env.versionsOf d).length == 1 then some ⟨e.1, index, target⟩ else none

/-- Which functions each function of a module calls directly. -/
def Module.callGraph (m : Module) (env : Environment) : CallGraph :=
  m.functions.map fun _ f => KeySet.ofList ((f.directCalls env).map (·.callee))

/-- Whether a walk from the stack reaches the goal.  Every function is expanded once, so no more
rounds are needed than there are calls and stack entries. -/
def reachesCall (graph : CallGraph) (goal : FuncId) :
    (fuel : Nat) → (stack : List FuncId) → (seen : KeySet FuncId) → Bool
  | 0, _, _ => false
  | _, [], _ => false
  | fuel + 1, id :: stack, seen =>
    if id == goal then true
    else if seen.contains id then reachesCall graph goal fuel stack seen
    else reachesCall graph goal fuel ((graph.getD id ∅).keys ++ stack) (KeySet.add seen id)

/-- Whether a function reaches itself through calls.  What was found once is kept, whatever becomes
of the calls. -/
def isRecursive (graph : CallGraph) (cache : RecursionCache) (id : FuncId) :
    Bool × RecursionCache :=
  match cache.get? id with
  | some known => (known, cache)
  | none =>
    let start := (graph.getD id ∅).keys
    let edges := graph.total (·.size)
    let result := reachesCall graph id (edges + start.length + 1) start ∅
    (result, cache.insert id result)

/-- The blocks from the given one along plain jumps to a return. -/
def Function.chainFrom (f : Function) : (fuel : Nat) → BlockId → (seen : List BlockId) →
    Option (List Block)
  | 0, _, _ => none
  | fuel + 1, id, seen =>
    if seen.contains id then none
    else do
      let b ← f.blocks.get? id
      match b.terminal with
      | some (.jump target) => return b :: (← f.chainFrom fuel target (id :: seen))
      | some (.ret _) => return [b]
      | _ => none

/-- The body of a function without control flow, in the order of its execution: all its reachable
blocks. -/
def Function.straightBody? (f : Function) : Option (List Block) := do
  let chain ← f.chainFrom (f.blocks.size + 1) f.entry []
  if (f.blocks.keys.filter f.flow.isReachable).length == chain.length then some chain else none

/-- Whether all parameters are plain names. -/
def Function.hasPlainParams (f : Function) : Bool :=
  (f.header.all fun i => match i.op with
    | .binding _ => true
    | _ => false) &&
    f.params.all fun p => f.header.any (·.place.cell.id == p.cell.id)

/-- Whether an instruction may be copied into a caller: no nested function, no kept source, no use of
the argument object, and no write to a variable of another function. -/
def Instr.isCopyable (env : Environment) (owner : FuncId) (i : Instr) : Bool :=
  let isPlain := match i.op with
    | .unsupported .. => false
    | .loadGlobal name => name != "arguments"
    | op => op.functions.isEmpty
  isPlain && i.defined.all fun p => env.ownerOf p.declaration == some owner

/-- The body of a function that is small enough to be copied. -/
def Module.smallBody? (m : Module) (env : Environment) (f : Function) : Option (List Block) := do
  let body ← f.straightBody?
  if f.kind == .declaration && f.parent == some m.entry && f.hasPlainParams &&
      f.instructions.all (·.isCopyable env f.id) then
    some body
  else none

/-- A call to replace. -/
structure Inlining where
  /-- The calling function. -/
  caller : Function
  /-- Where the call stands. -/
  site : CallSite
  /-- The called function. -/
  callee : Function
  /-- Its body. -/
  body : List Block

/-- The first of the calls that can be replaced. -/
def Module.findInlining (m : Module) (env : Environment) (graph : CallGraph) :
    List (Function × CallSite) → RecursionCache → Option Inlining × RecursionCache
  | [], cache => (none, cache)
  | (caller, site) :: more, cache =>
    match m.functions.get? site.callee with
    | none => findInlining m env graph more cache
    | some callee =>
      match m.smallBody? env callee with
      | none => findInlining m env graph more cache
      | some body =>
        let (recursive, cache) := isRecursive graph cache site.callee
        if recursive then findInlining m env graph more cache
        else (some ⟨caller, site, callee, body⟩, cache)

/-! ## Copying -/

/-- A copy in progress: the callee's declarations and cells have counterparts in the caller. -/
structure Copying where
  /-- Ids and declarations. -/
  env : Environment
  /-- The calling function. -/
  caller : FuncId
  /-- The called function. -/
  callee : FuncId
  /-- New declarations. -/
  declarations : Table DeclId DeclId
  /-- New places by the cell they stand for. -/
  places : Substitution

namespace Copying

/-- What a declaration of the callee becomes. -/
def kind : DeclKind → DeclKind
  | .temporary => .temporary
  | .constKind => .constKind
  | _ => .letKind

/-- The counterpart of a declaration, made on first use. -/
def declaration (c : Copying) (d : DeclId) : DeclId × Copying :=
  match c.declarations.get? d with
  | some fresh => (fresh, c)
  | none =>
    let (fresh, env) := c.env.declare (c.env.nameOf d) (kind (c.env.kindOf d)) c.caller
    (fresh, { c with env, declarations := c.declarations.insert d fresh })

/-- Makes the counterpart of a place of the callee, unless there is one. -/
def add (c : Copying) (p : Place) : Copying :=
  if c.env.ownerOf p.declaration != some c.callee || c.places.contains p.cell.id then c
  else
    let (fresh, c) := c.declaration p.declaration
    let (place, env) := c.env.newPlace fresh
    { c with env, places := c.places.insert p.cell.id place }

/-- The counterpart of a place; places of other functions stand for themselves. -/
def place (c : Copying) (p : Place) : Place :=
  if c.env.ownerOf p.declaration != some c.callee then p else c.places.apply p

/-- Replaces the variable that an operation writes. -/
def onTarget (f : Place → Place) : Op → Op
  | .storeLocal target value kind => .storeLocal (f target) value kind
  | .copy target value => .copy (f target) value
  | op => op

/-- Copies an instruction.  Counterparts are made in the order of its operands, then for the variable
it writes, then for its own place. -/
def instr (c : Copying) (i : Instr) : Instr × Copying :=
  let c := (i.reads ++ i.op.target?.toList ++ [i.place]).foldl add c
  let op := onTarget c.place (i.op.mapReads c.place)
  let (copy, env) := c.env.newInstrAt (c.place i.place) i.origin op
  (copy, { c with env })

/-- Copies instructions. -/
def instrs (c : Copying) : List Instr → List Instr × Copying
  | [] => ([], c)
  | i :: is =>
    let (copy, c) := c.instr i
    let (copies, c) := c.instrs is
    (copy :: copies, c)

/-- A new instruction of the caller. -/
def new (c : Copying) (op : Op) : Instr × Copying :=
  let (i, env) := c.env.newInstr c.caller op
  (i, { c with env })

end Copying

/-- Records the variables that copied instructions define. -/
def recordDefined (block : BlockId) (instructions : List Instr) (env : Environment) : Environment :=
  (instructions.flatMap (·.defined)).foldl
    (fun env p => if env.isTemporary p.declaration then env else env.record p.declaration block p)
    env

/-- The instructions that replace a call, and the place of its result if the callee returns a value.
Where it returns none, the result is the value of the last instruction. -/
def Inlining.expansion (inl : Inlining) (env : Environment) (call : Instr)
    (arguments : List Place) : List Instr × Option Place × Environment :=
  let c : Copying := ⟨env, inl.caller.id, inl.callee.id, ∅, ∅⟩
  let (array, c) := c.new (.array arguments)
  let (header, c) := c.instrs inl.callee.header
  let c := inl.callee.params.foldl Copying.add c
  let (pattern, c) := c.new (.arrayPattern (inl.callee.params.map fun p => some (c.place p)))
  let (bind, c) := c.new (.destructure pattern.place array.place .letKind)
  let (body, c) := c.instrs (inl.body.flatMap (·.instructions))
  let spliced := array :: header ++ [pattern, bind] ++ body
  match (inl.body.getLast?).bind (·.terminal) with
  | some (.ret (some value)) =>
    let c := c.add value
    (spliced, some (c.place value), c.env)
  | _ => (spliced ++ [{ call with op := .literal .undefined }], none, c.env)

/-- Replaces a call; nothing where the site holds none. -/
def Inlining.replace? (inl : Inlining) (m : Module) (env : Environment) :
    Option (Module × Environment) := do
  let b ← inl.caller.blocks.get? inl.site.block
  let call ← b.instructions[inl.site.index]?
  let .call _ arguments := call.op | none
  let (spliced, result, env) := inl.expansion env call arguments
  let env := recordDefined inl.site.block spliced env
  let instructions :=
    b.instructions.take inl.site.index ++ spliced ++ b.instructions.drop (inl.site.index + 1)
  let caller := inl.caller.setBlock inl.site.block { b with instructions }
  let caller := match result with
    | none => caller
    | some place =>
      caller.mapBlocks fun _ b =>
        b.mapReads fun p => if p.cell.id == call.place.cell.id then place else p
  return (m.setFunction inl.caller.id caller, env)

/-- One round of inlining: the first call that can be replaced is. -/
def Module.inlineOne (m : Module) (env : Environment) (cache : RecursionCache) :
    Bool × Module × Environment × RecursionCache :=
  let calls := m.functions.values.flatMap fun f => (f.directCalls env).map (f, ·)
  let (found, cache) := m.findInlining env (m.callGraph env) calls cache
  match found.bind (·.replace? m env) with
  | some (m, env) => (true, m, env, cache)
  | none => (false, m, env, cache)

end Whittle.Ir
