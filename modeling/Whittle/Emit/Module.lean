import Whittle.Emit.Block

/-!
# Emission of functions and modules

A variable that is declared in an inner statement list and referred to outside of it has to be
declared at the start of the function.  Which variables these are is known once the function is
emitted, so a function is emitted again until no new ones turn up.
-/

namespace Whittle.Emit

open Ir Syntax

/-- All declarations that a function itself refers to. -/
def referredBy (f : Function) : List DeclId :=
  (f.instructions.flatMap (fun i => i.reads ++ i.defined) ++ f.reads).map (·.declaration)

/-- All declarations that a function or the functions inside it refer to. -/
def referredInside (m : Ir.Module) (root : FuncId) : List DeclId :=
  (m.functions.entries.filter fun e =>
    (ancestors m (m.functions.size + 1) e.1).contains root).flatMap fun e => referredBy e.2

/-- The declarations that a block refers to.  What a closure refers to counts for the block that
creates it. -/
def referredByBlock (m : Ir.Module) (b : Block) : List DeclId :=
  (b.instructions.flatMap fun i =>
    (i.reads ++ i.defined).map (·.declaration) ++ i.op.functions.flatMap (referredInside m)) ++
    b.terminal.toList.flatMap fun t => t.reads.map (·.declaration)

/-- Whether the place of a variable's declaration matters: functions, classes and `var` are seen in
the whole function anyway, and temporaries have no name. -/
def isBlockScoped (env : Environment) (d : DeclId) : Bool :=
  match env.kindOf d with
  | .functionKind | .classKind | .varKind | .temporary => false
  | _ => true

/-- The variables that are declared in an inner statement list and referred to outside of it. -/
def escaping (ctx : Context) (st : State) : KeySet DeclId :=
  let inner := st.firstDeclared.filter fun _ region => !region.isEmpty
  if inner.isEmpty then ∅
  else
    let references := ctx.function.blocks.map fun _ b =>
      KeySet.ofList ((referredByBlock ctx.module b).filter (isBlockScoped ctx.env))
    let isOutside (d : DeclId) (region : Region) : Bool :=
      references.entries.any fun e =>
        e.2.contains d && (st.blockRegions.get? e.1).any fun path => !region.isPrefixOf path
    (inner.filter isOutside).map fun _ _ => ()

/-- Takes the patterns of parameters; what they bind is declared. -/
def takeParams : List Place → Step (List Pattern)
  | [] => pure []
  | p :: ps => do
    let (pattern, bound) ← takePattern p
    modify fun st => { st with declared := KeySet.addAll st.declared bound }
    return pattern :: (← takeParams ps)

/-- The names of variables. -/
def namesOf : List DeclId → Step (List String)
  | [] => pure []
  | d :: ds => do
    let name ← nameOf d
    return name :: (← namesOf ds)

/-- Declares variables at the start of a function. -/
def hoistedStmt (names : List String) : Stmt :=
  .declaration Node.synthetic .letKind
    (names.map fun name => .mk Node.synthetic (namePattern name) none)

/-- Emits the parameters and the body of a function. -/
def emitFunction (hoisted : KeySet DeclId) : Step (List Pattern × List Stmt) := do
  let f := (← read).function
  emitInstrs f.header
  if !(← get).out.isEmpty then throw (.unsupported "parameter default with side effects")
  let params ← takeParams f.params
  emitBlock (f.blocks.size + 2) f.entry
  let body := (← get).out.reverse
  if hoisted.isEmpty then pure (params, body)
  else pure (params, hoistedStmt (← namesOf hoisted.keys) :: body)

/-- Emits a function until the hoisted variables include all that have to be.  Each further round
hoists another variable. -/
def emitHoisting (ctx : Context) : (fuel : Nat) → (hoisted : KeySet DeclId) → Names →
    Outcome ((List Pattern × List Stmt) × Names)
  | 0, _, _ => .error (.invariantViolation "hoisting does not settle")
  | fuel + 1, hoisted, names => do
    let (result, st) ← (emitFunction hoisted).run ctx |>.run { names, declared := hoisted }
    let found := escaping ctx st
    if KeySet.subset found hoisted then return (result, st.names)
    else emitHoisting ctx fuel (KeySet.addAll hoisted found.keys) st.names

/-- The body of a function; a single returned expression is written without braces where the source
was. -/
def bodyOf (f : Function) (statements : List Stmt) : Body :=
  match f.isConcise, statements with
  | true, [.return _ (some value)] => .expression value
  | _, statements => .block statements

/-- Emits the parameters and the body of a function, given how to emit the functions inside it. -/
def emitWith (m : Ir.Module) (env : Environment) (counts : CellMap Nat)
    (nested : FuncId → Names → Outcome (Func × Names)) (f : Function) (names : Names) :
    Outcome ((List Pattern × List Stmt) × Names) :=
  emitHoisting ⟨m, env, counts, f, nested⟩ (env.declarations.size + 1) ∅ names

/-- Emits a nested function.  A function has a larger number than the one around it, so nesting is
not deeper than there are functions. -/
def emitNested (m : Ir.Module) (env : Environment) (counts : CellMap Nat) :
    (fuel : Nat) → FuncId → Names → Outcome (Func × Names)
  | 0, id, _ => .error (.invariantViolation ("function " ++ id.text ++ " is nested too deep"))
  | fuel + 1, id, names =>
    match m.functions.get? id with
    | none => .error (.invariantViolation ("function " ++ id.text ++ " not found"))
    | some f => do
      let ((params, statements), names) ←
        emitWith m env counts (emitNested m env counts fuel) f names
      let name := f.name.map Ident.synthetic
      return (.mk Node.synthetic name params (bodyOf f statements) (f.kind == .arrow), names)

end Whittle.Emit

namespace Whittle.Ir.Module

open Emit

/-- The syntax tree of a module of intermediate code. -/
def toSyntax (m : Ir.Module) (env : Environment) : Outcome Syntax.Module :=
  match m.functions.get? m.entry with
  | none => .error (.invariantViolation ("module " ++ m.path ++ " has no entry function"))
  | some f => do
    let counts := m.readCounts
    let nested := emitNested m env counts (m.functions.size + 1)
    let ((_, body), _) ← emitWith m env counts nested f (Names.assign m env)
    return ⟨⟨0, 0⟩, body⟩

end Whittle.Ir.Module
