import Mathlib.Tactic.Common
import Whittle.Proofs.Inline.Module
import Whittle.Proofs.Ir.Samples
import Whittle.Proofs.Lowering.Coherent
import Whittle.Proofs.Optimize.Coherent
import Whittle.Proofs.Ssa.Coherent
import Whittle.Proofs.Ssa.Module

/-!
# Inlining in compiled modules

Whatever happens to a module on its way through the compiler, it stays coherent, so what inlining puts
in the place of a call always does what the call does.

Main statements: `Module.inlineOne_equals_call`, and `Module.inlineOne_differs_from_call`, why a function has to
return values of its own.
-/

namespace Whittle.Ir

/-- The modules that compiling leads to, with their environments: a lowered module, taken through its
joins and changed by any rounds of any passes in any order. -/
inductive Module.Arises : Module → Environment → Prop
  | lower {path tree m env} : Syntax.Module.lower path tree {} = .ok (m, env) → Arises m env
  /-- What imports refer to is found out. -/
  | resolve {m env} (globals : Table String ImportBinding) : Arises m env →
      Arises { m with globals } env
  | buildSsa {m env m' env'} : Arises m env → m.buildSsa env = .ok (m', env') → Arises m' env'
  | eliminateSsa {m env m' env'} : Arises m env → m.eliminateSsa env = .ok (m', env') → Arises m' env'
  | throughSsa {m env m' env'} : Arises m env → m.throughSsa env = .ok (m', env') → Arises m' env'
  | step {w : Workbench} (pass : Pass) : Arises w.module w.env →
      Arises (pass.step w).2.module (pass.step w).2.env

theorem Module.Arises.coherent {m : Module} {env : Environment} (h : m.Arises env) :
    m.Coherent env := by
  induction h with
  | lower hlower => exact Syntax.Module.coherent_lower hlower
  | resolve globals _ ih => exact ih
  | buildSsa _ hbuild ih => exact ih.buildSsa hbuild
  | eliminateSsa _ heliminate ih => exact ih.eliminateSsa heliminate
  | throughSsa _ hthrough ih => exact ih.throughSsa hthrough
  | step pass _ ih => exact pass.coherent_step ih

/-- One round of inlining equals calling.  It replaces one call of a function of the module, and
wherever the caller goes on from there, it finds the world and the values that it would find after the
call: the callee run on cells of its own, its parameters bound by position.  The result of the call is
read where the copy of the callee has left it. -/
theorem Module.inlineOne_equals_call {m m' : Module} {env env' : Environment}
    {cache cache' : RecursionCache} (hm : m.Coherent env)
    (h : m.inlineOne env cache = (true, m', env', cache')) :
    ∃ (inl : Inlining) (b : Block) (call : Instr) (function : Place) (arguments : List Place)
      (spliced : List Instr) (result : Option Place),
      inl.Replaces m env m' b call function arguments spliced result ∧
      ∀ (V W : Type) (M : Machine V W) (σ : Moment V W) (later : List Instr),
        M.Serves env inl.callee.id call.place → σ.Before M env inl.callee.id call.place →
        (∀ i ∈ later, inl.caller.Follows call.place i) →
        Agrees M env call.place.cell (result.getD call.place).cell
          (M.run (M.run σ spliced) (later.map (·.mapReads (redirect call.place result))))
          (M.run (M.call (env.owns inl.callee.id) inl.callee inl.body call.place arguments σ)
            later) := by
  obtain ⟨cells, hlogs, hfunctions⟩ := hm
  obtain ⟨inl, ⟨id, hcaller⟩, hsite, hcallee, hbody, hreplace⟩ := inlineOne_eq_true h
  obtain ⟨b, call, function, arguments, hb, hcall, hop, hmodule, -⟩ :=
    Inlining.replace?_eq_some hreplace
  obtain ⟨rfl, huses, -⟩ := hfunctions _ _ hcaller
  obtain ⟨hid, huses', -⟩ := hfunctions _ _ hcallee
  rw [← hid] at hcallee huses'
  have hof {b : Block} (hb : b ∈ inl.caller.blocks.values) {i : Instr} (hi : i ∈ b.instructions)
      {p : Place} (hp : p ∈ i.places) : p.IsOf cells := by
    obtain ⟨id, hid⟩ := Table.mem_values.1 hb
    exact (huses.blocks id b hid).instructions i hi p hp
  have hplace : call.place.IsOf cells :=
    hof (Table.mem_values.2 ⟨_, hb⟩) (List.mem_of_getElem? hcall) call.place_mem_places
  have hhas {p : Place} (hp : p.IsOf cells) : env.Has p.cell := ⟨(hlogs.has hp).1, (hlogs.has hp).2⟩
  refine ⟨inl, b, call, function, arguments, _, _, ⟨hcaller, hcallee, hsite, hid.symm,
    (smallBody?_eq_some hbody).1, hb, hcall, hop, hmodule⟩, fun V W M σ later hM hσ hlater => ?_⟩
  refine Inlining.agrees (Inlining.copyable hlogs huses' hbody) (hhas hplace) ?_ hM hσ hlater
  intro b' hb' i hi p hp
  exact ⟨hhas (hof hb' hi hp), (hof hb' hi hp).single hplace⟩

/-! A call with too few arguments, on a machine that builds terms. -/

/-- The terms that a machine builds; of a pattern it keeps how many parts it has. -/
inductive Term where
  | value (value : Value)
  | list (items : List Term)
  | pattern (size : Nat)

/-- A machine that logs what it performs. -/
def Machine.logging : Machine Term (List Term) where
  literal := .value
  perform _ operands log := (.list (operands.map (·.1)), log ++ [.list (operands.map (·.1))])
  pattern _ shapes _ := .pattern shapes.length
  expand terms log := (terms, log)
  array terms _ := .list terms
  bind
    | .pattern size, .list terms, log => (List.takeD size terms (.value .undefined), log)
    | _, _, log => ([], log)
  isShared _ := false
  load _ _ := .value .undefined
  store _ _ log := log

theorem Machine.serves_logging (env : Environment) (callee : FuncId) (call : Place) :
    Machine.logging.Serves env callee call where
  known _ hshared := by cases hshared
  foreign _ hshared := by cases hshared
  positional names terms log := by simp [arrayOf, logging, undefined]
  result := rfl

/-- A moment at which all cells hold an empty list that there are. -/
def Moment.listing (env : Environment) : Moment Term (List Term) where
  values c := if c.id.index < env.nextCell.index then .list [] else .value .undefined
  binders _ := Machine.logging.noBinder
  world := []

theorem Moment.before_listing (env : Environment) (callee : FuncId) (call : Place) :
    (Moment.listing env).Before Machine.logging env callee call where
  undefined _ hc := if_neg (Nat.not_lt.2 hc)
  unbound _ _ := rfl
  names _ _ hn := by cases hn
  unnamed _ _ hn := by cases hn

/-- `function first(a, b) { log(b); return a; } log(first(1));` -/
def takingFirst : Syntax.Module :=
  let ident (text : String) : Syntax.Ident := .synthetic text
  let name (text : String) : Syntax.Expr := .name .synthetic (ident text)
  let param (text : String) : Syntax.Pattern := .name .synthetic (ident text)
  let log (e : Syntax.Expr) : Syntax.Stmt :=
    .expression .synthetic (.call .synthetic (name "log") [.one e])
  ⟨⟨0, 0⟩,
    [.function .synthetic (.mk .synthetic (some (ident "first")) [param "a", param "b"]
      (.block [log (name "b"), .return .synthetic (some (name "a"))]) false),
     log (.call .synthetic (name "first") [.one (.literal .synthetic (.number Number.one))])]⟩

/-- What becomes of a module before the passes. -/
def joined? (m : Syntax.Module) : Option (Module × Environment) := do
  let lowered ← (m.lower "m" {}).toOption
  (lowered.1.throughSsa lowered.2).toOption

theorem exists_of_joined? {m : Syntax.Module} {t : Module × Environment} (h : joined? m = some t) :
    ∃ ir env, m.lower "m" {} = .ok (ir, env) ∧ ir.throughSsa env = .ok t := by
  obtain ⟨_, hlower, hthrough⟩ := Option.bind_eq_some_iff.1 h
  exact ⟨_, _, Syntax.Module.eq_ok_of_toOption hlower, Syntax.Module.eq_ok_of_toOption hthrough⟩

theorem arises_of_joined? {m : Syntax.Module} {t : Module × Environment} (h : joined? m = some t) :
    t.1.Arises t.2 := by
  obtain ⟨_, _, hlower, hthrough⟩ := exists_of_joined? h
  exact .throughSsa (.lower hlower) hthrough

/-- The copy of `first` in the place of its call does what the call does, whatever code follows. -/
theorem Module.inlineOne_equals_call_takingFirst :
    ∃ (m : Module) (env : Environment) (m' : Module) (env' : Environment) (cache : RecursionCache),
      joined? takingFirst = some (m, env) ∧ m.Arises env ∧
      m.inlineOne env ∅ = (true, m', env', cache) ∧
      ∃ (inl : Inlining) (b : Block) (call : Instr) (function : Place) (arguments : List Place)
        (spliced : List Instr) (result : Option Place),
        inl.Replaces m env m' b call function arguments spliced result ∧
        ∀ later : List Instr, (∀ i ∈ later, inl.caller.Follows call.place i) →
          Agrees Machine.logging env call.place.cell (result.getD call.place).cell
            (Machine.logging.run (Machine.logging.run (Moment.listing env) spliced)
              (later.map (·.mapReads (redirect call.place result))))
            (Machine.logging.run (Machine.logging.call (env.owns inl.callee.id) inl.callee inl.body
              call.place arguments (Moment.listing env)) later) := by
  obtain ⟨⟨m, env⟩, hjoined, hfound⟩ :
      ∃ t ∈ joined? takingFirst, (t.1.inlineOne t.2 ∅).1 = true := by
    decide +kernel
  rcases hround : m.inlineOne env ∅ with ⟨found, m', env', cache⟩
  obtain rfl : found = true := by simpa [hround] using hfound
  have hm : m.Arises env := arises_of_joined? hjoined
  obtain ⟨inl, b, call, function, arguments, spliced, result, hreplaces, hagrees⟩ :=
    Module.inlineOne_equals_call hm.coherent hround
  refine ⟨m, env, m', env', cache, hjoined, hm, hround, inl, b, call, function, arguments, spliced,
    result, hreplaces, fun later hlater => ?_⟩
  exact hagrees _ _ Machine.logging (Moment.listing env) later (Machine.serves_logging env _ _)
    (Moment.before_listing env _ _) hlater

/-! A call of a function that returns a variable of another one, on a machine that shows the variable. -/

/-- The elements of a list. -/
def Term.items : Term → List Term
  | .list items => items
  | _ => []

/-- A machine that shares a cell, and the cell holds what has been logged. -/
def Machine.watching (c : Cell) : Machine Term (List Term) :=
  { Machine.logging with
    isShared := (· == c)
    load := fun _ log => .list log }

/-- A call of `f`, and then another call. -/
def calling : Function :=
  let temporary (n : Nat) := Place.only n (.numbered 0)
  .ofCode [([(temporary 2, .loadLocal (.only 1 (.numbered 0))), (temporary 3, .call (temporary 2) []),
    (temporary 4, .loadGlobal "g"), (temporary 5, .call (temporary 4) [])], .ret none)]

/-- The block of `f`, which returns a variable that is not its own. -/
def returning : Block := ⟨[], some (.ret (some (.only 0 (.numbered 0))))⟩

/-- The function `f`. -/
def called : Function :=
  Function.recomputeFlow
    { Function.start ⟨1⟩ (some "f") (some ⟨0⟩) .declaration none ⟨1⟩ with
      blocks := Table.ofList [(⟨1⟩, returning)] }

def callingEnv : Environment :=
  { Environment.ofKinds [.letKind, .functionKind, .temporary, .temporary, .temporary, .temporary] [⟨0⟩] with
    nextBlock := ⟨2⟩
    nextInstr := ⟨6⟩
    nextFunc := ⟨2⟩
    versions := Table.ofList [(⟨1⟩, [⟨⟨0⟩, .only 1 (.numbered 0)⟩])]
    functions := Table.ofList [(⟨1⟩, ⟨1⟩)] }

/-- The call of `f` and what is called. -/
def callOfReturning : Inlining := ⟨calling, ⟨⟨0⟩, 1, ⟨1⟩⟩, called, [returning]⟩

theorem logs_callingEnv :
    callingEnv.Logs ((List.range 6).map fun n => (Place.only n (.numbered 0)).cell) := by
  refine ⟨rfl, by decide +kernel, by decide +kernel, fun d r hr => ?_⟩
  have hversions : callingEnv.versionsOf d =
      if d = ⟨1⟩ then [⟨⟨0⟩, .only 1 (.numbered 0)⟩] else [] := Table.getD_insert ..
  rw [hversions] at hr
  split at hr
  · next hd =>
    obtain rfl := List.mem_singleton.1 hr
    exact ⟨rfl, hd.symm⟩
  · cases hr

theorem Machine.serves_watching :
    (Machine.watching (Place.only 0 (.numbered 0)).cell).Serves callingEnv ⟨1⟩
      (.only 3 (.numbered 0)) where
  known c hshared := by
    obtain rfl := eq_of_beq hshared
    exact ⟨by decide, by decide⟩
  foreign c hshared := by
    obtain rfl := eq_of_beq hshared
    decide
  positional names terms log := by simp [arrayOf, watching, logging, undefined]
  result := by decide

/-- A call of a function that returns a variable of another one is not what inlining makes of it: the result
of the call stays what it was, but the variable, which is read instead, may have changed. -/
theorem Module.inlineOne_differs_from_call :
    ∃ (m : Module) (env : Environment) (cells : List Cell) (m' : Module) (env' : Environment)
      (cache : RecursionCache) (inl : Inlining) (b : Block) (call : Instr) (function : Place)
      (arguments : List Place) (spliced : List Instr) (result : Option Place),
      env.Logs cells ∧
      (∀ e ∈ m.functions.entries, e.2.id = e.1 ∧ e.2.phis = [] ∧ ∀ p ∈ e.2.places, p.IsOf cells) ∧
      m.inlineOne env ∅ = (true, m', env', cache) ∧
      inl.Replaces m env m' b call function arguments spliced result ∧
      ∃ (M : Machine Term (List Term)) (σ : Moment Term (List Term)) (later : List Instr),
        M.Serves env inl.callee.id call.place ∧ σ.Before M env inl.callee.id call.place ∧
        (∀ i ∈ later, inl.caller.Follows call.place i) ∧
        ¬ Agrees M env call.place.cell (result.getD call.place).cell
          (M.run (M.run σ spliced) (later.map (·.mapReads (redirect call.place result))))
          (M.run (M.call (env.owns inl.callee.id) inl.callee inl.body call.place arguments σ) later) := by
  let call : Instr := ⟨⟨3⟩, .only 3 (.numbered 0), none, .call (.only 2 (.numbered 0)) []⟩
  let load : Instr := ⟨⟨4⟩, .only 4 (.numbered 0), none, .loadGlobal "g"⟩
  let other : Instr := ⟨⟨5⟩, .only 5 (.numbered 0), none, .call (.only 4 (.numbered 0)) []⟩
  let spliced := callOfReturning.expansion callingEnv call []
  have hload : calling.Follows call.place load :=
    ⟨⟨_, List.mem_cons_self, List.mem_of_getElem? (i := 2) rfl⟩, by decide +kernel, by rintro p ⟨⟩⟩
  have hother : calling.Follows call.place other :=
    ⟨⟨_, List.mem_cons_self, List.mem_of_getElem? (i := 3) rfl⟩, by decide +kernel, by rintro p ⟨⟩⟩
  refine ⟨.ofFunctions [calling, called], callingEnv, _, _, _, _, callOfReturning, _, call, _, [],
    spliced.1, spliced.2.1, logs_callingEnv, by decide +kernel, rfl,
    ⟨rfl, rfl, by decide +kernel, rfl, rfl, rfl, rfl, rfl, rfl⟩, _, .listing callingEnv, [load, other],
    Machine.serves_watching, ?_, by simp [hload, hother, callOfReturning], fun hagrees => ?_⟩
  · exact ⟨⟨fun _ hc => if_neg (Nat.not_lt.2 hc), fun _ _ => rfl, fun _ _ hn => by cases hn⟩,
      fun _ _ hn => by cases hn⟩
  · exact absurd (congrArg (·.items.length) hagrees.result) (by decide +kernel)

end Whittle.Ir
