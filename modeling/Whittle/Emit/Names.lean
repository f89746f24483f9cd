import Whittle.Ir.Environment
import Whittle.Ir.Module
import Whittle.Syntax.Names

/-!
# Names in the output

All versions of a declaration are written under one name.  A declaration keeps its own name unless
another one in the same function has it, or it would hide an outer one that the function still refers
to, or the module uses the name without declaring it.
-/

namespace Whittle.Emit

open Ir

/-- The names of the output. -/
structure Names where
  /-- The name of each declaration that is referred to. -/
  assigned : Table DeclId String
  /-- All names that the output may contain. -/
  taken : KeySet String
  /-- The number of the next temporary. -/
  nextTemporary : Nat

/-- The names that kept source mentions. -/
def mentioned : Verbatim → List String
  | .statement s => s.names.map (·.name)
  | .expression e => e.names.map (·.name)

/-- The names that an instruction uses without declaring them.  In kept source, names that stand for
declarations of the module are left out: they are renamed along with them. -/
def globalsOf (env : Environment) (i : Instr) : List String :=
  match i.op with
  | .loadGlobal name => [name]
  | .storeGlobal name _ => [name]
  | .importSpecifier _ bound => [bound]
  | .unsupported source bindings =>
    let d := i.place.declaration
    let defined := if env.isTemporary d then [] else (env.nameOf d).toList
    let own := KeySet.ofList (bindings.map (·.1) ++ defined)
    (mentioned source).filter (!own.contains ·)
  | _ => []

/-- The names that a module uses without declaring them. -/
def globalNames (m : Module) (env : Environment) : KeySet String :=
  KeySet.ofList (m.globals.keys ++ m.instructions.flatMap (globalsOf env))

/-- The declarations with a name that a function itself refers to. -/
def directReferences (env : Environment) (f : Function) : KeySet DeclId :=
  let places := f.instructions.flatMap (fun i => i.reads ++ i.defined) ++ f.reads
  KeySet.ofList ((places.map (·.declaration)).filter (!env.isTemporary ·))

/-- A function and the functions around it, from the inside out. -/
def ancestors (m : Module) : (fuel : Nat) → FuncId → List FuncId
  | 0, _ => []
  | fuel + 1, id =>
    match (m.functions.get? id).bind (·.parent) with
    | some parent => id :: ancestors m fuel parent
    | none => [id]

/-- The declarations that each function, or a function inside it, refers to. -/
def references (m : Module) (env : Environment) : Table FuncId (KeySet DeclId) :=
  m.functions.entries.foldl
    (fun table e =>
      let direct := (directReferences env e.2).keys
      (ancestors m (m.functions.size + 1) e.1).foldl
        (fun table id => table.insert id (KeySet.addAll (table.getD id ∅) direct))
        table)
    ∅

/-- The first of `base`, `base_1`, `base_2`, … that is not in scope. -/
def unusedName (inScope : KeySet String) (base : String) : String :=
  if inScope.contains base then go (inScope.size + 1) 1 else base
where
  go : (fuel : Nat) → (suffix : Nat) → String
  | 0, suffix => base ++ "_" ++ toString suffix
  | fuel + 1, suffix =>
    let candidate := base ++ "_" ++ toString suffix
    if inScope.contains candidate then go fuel (suffix + 1) else candidate

/-- Names assigned so far, and the names in scope of the function at hand. -/
structure Naming where
  /-- The names assigned. -/
  assigned : Table DeclId String
  /-- The names in scope. -/
  inScope : KeySet String

/-- Names one declaration of a function. -/
def Naming.add (env : Environment) (function : FuncId) (n : Naming) (d : DeclId) : Naming :=
  if env.ownerOf d != some function || env.isTemporary d then n
  else
    match env.nameOf d with
    | none => n
    | some base =>
      let name := unusedName n.inScope base
      ⟨n.assigned.insert d name, KeySet.add n.inScope name⟩

/-- Names the declarations of one function.  The functions around it come first, so the outer names
are settled. -/
def nameFunction (env : Environment) (globals : KeySet String) (function : FuncId)
    (referenced : KeySet DeclId) (assigned : Table DeclId String) : Table DeclId String :=
  let outer := (referenced.keys.filter fun d => env.ownerOf d != some function).filterMap assigned.get?
  (referenced.keys.foldl (Naming.add env function) ⟨assigned, KeySet.addAll globals outer⟩).assigned

namespace Names

/-- Names all declarations of a module. -/
def assign (m : Module) (env : Environment) : Names :=
  let globals := globalNames m env
  let referenced := references m env
  let assigned := m.functions.keys.foldl
    (fun assigned f => nameFunction env globals f (referenced.getD f ∅) assigned) ∅
  ⟨assigned, KeySet.addAll globals assigned.values, 0⟩

/-- The name of a declaration; one that nobody refers to keeps its own. -/
def get? (names : Names) (env : Environment) (d : DeclId) : Option String :=
  (names.assigned.get? d).or (env.nameOf d)

/-- A name for a temporary, different from all names of the module. -/
def temporary (names : Names) : String × Names := go (names.taken.size + 1) names.nextTemporary
where
  go : (fuel : Nat) → (n : Nat) → String × Names
  | 0, n => ("_t" ++ toString n, { names with nextTemporary := n + 1 })
  | fuel + 1, n =>
    let candidate := "_t" ++ toString n
    if names.taken.contains candidate then go fuel (n + 1)
    else (candidate, { names with taken := KeySet.add names.taken candidate, nextTemporary := n + 1 })

end Names

end Whittle.Emit
