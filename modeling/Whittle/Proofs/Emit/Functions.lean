import Mathlib.Tactic.Common
import Whittle.Emit.Module
import Whittle.Lowering.Build
import Whittle.Proofs.Emit.Blocks

/-!
# Marks of functions

The code of a function has the effects of its header and of the blocks that were emitted, each as
often as they have it.

Main statement: `Module.emitWith_effects`.  It says how often an effect happens, for all code; in which
order effects happen is another question.
-/

namespace Whittle.Emit

open Ir Syntax

/-- The instructions of the header and of the blocks that are emitted. -/
def emittedInstrs (f : Function) (emitted : KeySet BlockId) : List Instr :=
  f.header ++ (f.blocks.entries.filter fun e => emitted.contains e.1).flatMap (·.2.instructions)

/-- An instruction is emitted or ahead. -/
theorem instructions_perm (f : Function) (emitted : KeySet BlockId) :
    (emittedInstrs f emitted ++ ahead f emitted).Perm f.instructions := by
  have hblocks := (List.filter_append_perm (fun e => emitted.contains e.1) f.blocks.entries).flatMap_right
    (·.2.instructions)
  rw [List.flatMap_append] at hblocks
  rw [emittedInstrs, ahead, Function.instructions, Table.values, List.flatMap_map, List.append_assoc]
  exact hblocks.append_left f.header

/-- The marks of the spreads and patterns that wait for a reader. -/
def State.unread (st : State) : List Mark :=
  st.spreads.toList.flatMap (·.2.expr.marks) ++ st.patterns.toList.flatMap (·.2.1.marks)

/-- The marks of the code that a function was emitted as, and of what no one has read. -/
def codeMarks (params : List Pattern) (body : List Stmt) (st : State) : List Mark :=
  params.flatMap (·.marks) ++ Stmt.marksAll body ++ st.unread

theorem weigh_flatMap {α : Type} (k : Mark → Nat) (f : α → List Mark) (l : List α) :
    weigh k (l.flatMap f) = (l.map fun a => weigh k (f a)).sum := by
  induction l with
  | nil => rfl
  | cons a l ih => rw [List.flatMap_cons, weigh_append, ih, List.map_cons, List.sum_cons]

namespace Ledger

variable {ctx : Context} {L : Ledger ctx} {st st' : State} {names : Names} {hoisted : KeySet DeclId}

theorem takes_takeParams (ps : List Place) :
    L.Takes (takeParams ps) (fun params => weigh L.weight (params.flatMap (·.marks))) Anything := by
  induction ps with
  | nil => exact fun _ => Balanced.pure rfl trivial
  | cons p ps ih =>
    refine fun _ => (takes_takePattern p).bind fun r _ => Takes.seq (takes_modify fun _ => rfl) fun _ _ =>
      ih.bind fun patterns _ => Balanced.pure ?_ trivial
    simp only [targeted, List.flatMap_cons, weigh_append]
    omega

theorem namesOf_run {ds : List DeclId} {written : List String}
    (hrun : namesOf ds ctx st = .ok (written, st')) : st' = st := by
  induction ds generalizing written with
  | nil =>
    cases hrun
    rfl
  | cons d ds ih =>
    obtain ⟨name, st₁, hname, hrest⟩ := step_bind_eq_ok hrun
    obtain ⟨rfl, _⟩ := nameOf_run hname
    obtain ⟨more, st₂, hmore, hpure⟩ := step_bind_eq_ok hrest
    cases hpure
    exact ih hmore

/-- Declarations of variables for later are not due. -/
theorem weigh_hoistedStmt (hexact : L.exact) (names : List String) :
    weigh L.weight (hoistedStmt names).marks = 0 := by
  simp only [hoistedStmt, Stmt.marks]
  induction names with
  | nil => rfl
  | cons name names ih =>
    rw [List.map_cons, Declarator.marksAll, weigh_append, ih]
    simp only [namePattern, Pattern.marks, Expr.marksOpt, weigh_append, weigh_cons, weigh_nil,
      L.exact_declare hexact, Nat.add_zero]

theorem Settled.holds {k : Mark → Nat} (h : Settled k st) :
    st.holds k = weigh k (Stmt.marksAll st.out) + weigh k st.unread := by
  have hvalues : (st.values.map fun e => weigh k e.2.expr.marks).sum = 0 := by
    refine List.sum_eq_zero_iff_forall_eq_nat.2 fun n hn => ?_
    obtain ⟨e, he, rfl⟩ := List.mem_map.1 hn
    exact h e he
  rw [State.holds, State.waiting, hvalues, State.unread, weigh_append, weigh_flatMap, weigh_flatMap,
    totalOf, totalOf, Nat.zero_add]

/-- The start of a function. -/
theorem steady_start (hoisted : KeySet DeclId)
    (hnodup : (ctx.function.instructions.map (·.place.cell.id)).Nodup)
    (hnames : ∀ d, names.get? ctx.env d = L.written d) (hfollower : L.Follower) :
    L.Steady ctx.function.header { names, declared := hoisted } ∧
      L.total ctx.function.header { names, declared := hoisted } =
        (ctx.function.instructions.map L.due).sum := by
  have hall : ctx.function.header ++ ahead ctx.function ∅ = ctx.function.instructions := by
    rw [Function.instructions, ahead, Table.values, List.flatMap_map]
    simp
  refine ⟨⟨⟨by simp, ?_, ?_, List.nodup_nil, by simp, ?_, ?_, hnames, by simp⟩, ?_, hfollower,
    hfollower.header⟩, ?_⟩
  · exact fun c p hp => by simp at hp
  · exact fun c r hr => by simp at hr
  · exact fun c _ => by simp
  · exact fun c _ => by simp
  · rw [hall]
    exact hnodup
  · rw [total, hall]
    exact Nat.zero_add _

/-- Declaring hoisted variables does nothing else. -/
theorem hoist_run {params : List Pattern} {body : List Stmt} {r : List Pattern × List Stmt}
    (hrun : (if hoisted.isEmpty then pure (params, body)
      else do pure (params, hoistedStmt (← namesOf hoisted.keys) :: body) : Step _) ctx st = .ok (r, st')) :
    st' = st ∧ r.1 = params ∧
      L.Meets (weigh L.weight (Stmt.marksAll body)) (weigh L.weight (Stmt.marksAll r.2)) := by
  split at hrun
  · cases hrun
    exact ⟨rfl, rfl, .of_eq rfl⟩
  · obtain ⟨written, st₁, hnames, hrun⟩ := step_bind_eq_ok hrun
    cases hrun
    refine ⟨namesOf_run hnames, rfl, ?_⟩
    rw [Stmt.marksAll, weigh_append]
    exact ⟨by omega, fun hexact => by rw [weigh_hoistedStmt hexact, Nat.zero_add]⟩

/-- What the instructions of a function that were emitted are due is in the code: exactly, or no less
than that. -/
structure Paid (L : Ledger ctx) (emitted : KeySet BlockId) (there : Nat) : Prop where
  enough : (ctx.function.instructions.map L.due).sum ≤ L.cap →
    ((emittedInstrs ctx.function emitted).map L.due).sum ≤ there
  exactly : L.exact → there = ((emittedInstrs ctx.function emitted).map L.due).sum

/-- The code of a function has what is due for the instructions that were emitted, up to what no one has
read. -/
theorem emitFunction_meets (hnodup : (ctx.function.instructions.map (·.place.cell.id)).Nodup)
    (hnames : ∀ d, names.get? ctx.env d = L.written d) (hfollower : L.Follower) {params : List Pattern}
    {body : List Stmt}
    (hrun : emitFunction hoisted ctx { names, declared := hoisted } = .ok ((params, body), st')) :
    (∀ d, st'.names.get? ctx.env d = L.written d) ∧
      L.Paid st'.emitted (weigh L.weight (codeMarks params body st')) := by
  obtain ⟨hst, htotal⟩ := steady_start hoisted hnodup hnames hfollower
  obtain ⟨ctx', st₁, hread, hrun⟩ := step_bind_eq_ok hrun
  cases hread
  obtain ⟨u₁, st₁, hheader, hrun⟩ := step_bind_eq_ok hrun
  obtain ⟨hst₁, hemitted₁, hcount₁⟩ := hst.instrs hheader
  obtain ⟨st₂, st₃, hget, hrun⟩ := step_bind_eq_ok hrun
  cases hget
  cases hout : st₁.out.isEmpty with
  | false =>
    simp only [hout] at hrun
    cases hrun
  | true =>
    simp only [hout] at hrun
    obtain ⟨params', st₂, hparams, hrun⟩ := step_bind_eq_ok hrun
    obtain ⟨hst₂, hemitted₂, hcount₂⟩ := hst₁.takes (takes_takeParams ctx.function.params) hparams
    obtain ⟨u₂, st₃, hblock, hrun⟩ := step_bind_eq_ok hrun
    have hstart : st₂.emitted.contains ctx.function.entry = true → Settled L.weight st₂ := by
      rw [hemitted₂, hemitted₁]
      exact nofun
    obtain ⟨hst₃, hsettled, hcount₃⟩ := emits_emitBlock _ _ hst₂ hstart hblock
    obtain ⟨st₄, st₅, hget, hrun⟩ := step_bind_eq_ok hrun
    cases hget
    obtain ⟨rfl, rfl, hbody⟩ := L.hoist_run hrun
    refine ⟨hst₃.sound.names, ?_⟩
    have hall := ((instructions_perm ctx.function st'.emitted).map L.due).sum_nat
    rw [List.map_append, List.sum_append_nat] at hall
    simp only [weigh_marksAll_reverse] at hbody
    have hcount := (hcount₁.trans hcount₂).trans (hcount₃.add _)
    rw [htotal, total, List.nil_append, hsettled.holds] at hcount
    dsimp only at hcount hbody
    rw [codeMarks, weigh_append, weigh_append]
    refine ⟨fun hcap => ?_, fun hexact => ?_⟩
    · have := hcount.enough
      have := hbody.enough
      omega
    · have := hcount.exactly hexact
      have := hbody.exactly hexact
      omega

/-- A function is emitted again until the hoisted variables are known; the last time counts. -/
theorem emitHoisting_run {fuel : Nat} {code : List Pattern × List Stmt} {names' : Names}
    (hnodup : (ctx.function.instructions.map (·.place.cell.id)).Nodup)
    (hnames : ∀ d, names.get? ctx.env d = L.written d) (hfollower : L.Follower)
    (hrun : emitHoisting ctx fuel hoisted names = .ok (code, names')) :
    (∀ d, names'.get? ctx.env d = L.written d) ∧
      ∃ (hoisted : KeySet DeclId) (start : Names) (st : State),
        emitFunction hoisted ctx { names := start, declared := hoisted } = .ok (code, st) ∧
        ∀ d, start.get? ctx.env d = L.written d := by
  induction fuel generalizing hoisted names with
  | zero => cases hrun
  | succ fuel ih =>
    rw [emitHoisting] at hrun
    cases hround : emitFunction hoisted ctx { names, declared := hoisted } with
    | error e =>
      rw [ReaderT.run, StateT.run, hround] at hrun
      cases hrun
    | ok r =>
      obtain ⟨code', st⟩ := r
      rw [ReaderT.run, StateT.run, hround] at hrun
      have hnames' := (emitFunction_meets hnodup hnames hfollower hround).1
      dsimp only [bind, Except.bind] at hrun
      split at hrun
      · cases hrun
        exact ⟨hnames', hoisted, names, _, hround, hnames⟩
      · exact ih hnames' hrun

/-! ## Counting one effect -/

/-- The books that count an effect that is no write to a variable of the module. -/
def counting (k : Effect) (written : DeclId → Option String)
    (hforeign : ∀ d name, written d = some name → k ≠ .write name)
    (hnested : ∀ id names f names', ctx.nested id names = .ok (f, names') →
      ∀ d, names'.get? ctx.env d = names.get? ctx.env d) : Ledger ctx where
  weight mark := if mark.effect? = some k then 1 else 0
  written := written
  foreign d name hname := if_neg fun heq => hforeign d name hname (Option.some.inj heq).symm
  nested := hnested
  callDue _ := if Effect.call = k then 1 else 0
  near := ∅
  access := .computed
  direct c e _ := by simp [Mark.effect?]
  cap := 0
  constant c e name _ := .inr (Nat.zero_le _)
  exact := True
  exact_call _ c e := by simp [Mark.effect?]
  exact_declare _ kind target value := rfl

section Counting

variable {k : Effect} {written : DeclId → Option String}
  {hforeign : ∀ d name, written d = some name → k ≠ .write name}
  {hnested : ∀ id names f names', ctx.nested id names = .ok (f, names') →
    ∀ d, names'.get? ctx.env d = names.get? ctx.env d}

theorem weigh_counting (marks : List Mark) : weigh (counting k written hforeign hnested).weight marks =
    (marks.filterMap Mark.effect?).count k := by
  rw [List.count_filterMap, ← weigh_eq_countP]
  congr 1
  funext mark
  simp [counting]

/-- What is due is how often an instruction has the effect. -/
theorem due_counting (i : Instr) :
    (counting k written hforeign hnested).due i = (instrEffects written ctx.env i).count k := by
  obtain ⟨id, place, origin, op⟩ := i
  cases op with
  | unsupported source bindings =>
    rw [due, firm_eq trivial]
    exact weigh_counting _
  | _ => simp [due, instrEffects, counting, Mark.effect?, List.count_singleton]

theorem follower_counting : (counting k written hforeign hnested).Follower where
  far := rfl
  header _ _ _ _ _ := .inr fun e => by simp [counting, Mark.effect?]
  blocks _ _ _ _ _ _ _ _ := .inr fun e => by simp [counting, Mark.effect?]

end Counting

end Ledger

end Whittle.Emit

namespace Whittle.Ir

open Emit Syntax

/-- No two instructions of a function define one cell. -/
def Module.DefinesOnce (m : Module) : Prop :=
  ∀ f ∈ m.functions.values, (f.instructions.map (·.place.cell.id)).Nodup

instance (m : Module) : Decidable m.DefinesOnce :=
  inferInstanceAs (Decidable (∀ f ∈ m.functions.values, (f.instructions.map (·.place.cell.id)).Nodup))

variable {m : Module} {env : Environment} {counts : CellMap Nat}

/-- Emitting a function inside another one names nothing but temporaries. -/
theorem Module.DefinesOnce.get?_emitNested (hm : m.DefinesOnce) {fuel : Nat} {id : FuncId}
    {names names' : Names} {f : Func} (h : emitNested m env counts fuel id names = .ok (f, names'))
    (d : DeclId) : names'.get? env d = names.get? env d := by
  induction fuel generalizing id names names' f d with
  | zero => cases h
  | succ fuel ih =>
    rw [emitNested] at h
    cases hfound : m.functions.get? id with
    | none =>
      rw [hfound] at h
      cases h
    | some inner =>
      rw [hfound] at h
      cases hwith : emitWith m env counts (emitNested m env counts fuel) inner names with
      | error e =>
        simp only [hwith] at h
        cases h
      | ok r =>
        simp only [hwith] at h
        cases h
        let ctx : Context := ⟨m, env, counts, inner, emitNested m env counts fuel⟩
        let L : Ledger ctx := .counting .call (names.get? env) (fun _ _ _ => nofun)
          fun _ _ _ _ hnested d => ih hnested d
        have hnodup := hm inner (Table.mem_values.2 ⟨id, hfound⟩)
        exact (Ledger.emitHoisting_run (L := L) hnodup (fun _ => rfl)
          Ledger.follower_counting hwith).1 d

/-- Emission neither loses nor repeats an effect.  The code of a function has each effect as often as
the header and the blocks that were emitted; an effect is missing only where no one has read the
spread or the pattern that it is in. -/
theorem Module.emitWith_effects {fuel : Nat} {f : Function} {names names' : Names}
    {params : List Pattern} {body : List Stmt} (hm : m.DefinesOnce) (hf : f ∈ m.functions.values)
    (h : emitWith m env counts (emitNested m env counts fuel) f names = .ok ((params, body), names'))
    (k : Effect) (hk : ∀ d name, names.get? env d = some name → k ≠ .write name) :
    ∃ (hoisted : KeySet DeclId) (start : Names) (st : State),
      emitFunction hoisted ⟨m, env, counts, f, emitNested m env counts fuel⟩
        { names := start, declared := hoisted } = .ok ((params, body), st) ∧
      ((codeMarks params body st).filterMap Mark.effect?).count k =
        ((emittedInstrs f st.emitted).flatMap (instrEffects (names.get? env) env)).count k := by
  let ctx : Context := ⟨m, env, counts, f, emitNested m env counts fuel⟩
  let L : Ledger ctx := .counting k (names.get? env) hk
    fun _ _ _ _ hnested d => hm.get?_emitNested hnested d
  obtain ⟨-, hoisted, start, st, hrun, hstart⟩ := Ledger.emitHoisting_run (L := L) (hm f hf)
    (fun _ => rfl) Ledger.follower_counting h
  refine ⟨hoisted, start, st, hrun, ?_⟩
  obtain ⟨-, hpaid⟩ := Ledger.emitFunction_meets (L := L) (hm f hf) hstart Ledger.follower_counting hrun
  have hall := hpaid.exactly trivial
  rw [Ledger.weigh_counting] at hall
  rw [hall, List.count_flatMap]
  congr 1
  exact List.map_congr_left fun i _ => Ledger.due_counting i

/-- `f(...a(), (b(), c()));` -/
def spreading : Syntax.Module :=
  let call (name : String) (arguments : List Element) : Expr :=
    .call .synthetic (nameExpr name) arguments
  ⟨⟨0, 0⟩,
    [exprStmt (call "f" [.spread (call "a" []), .one (.sequence .synthetic [call "b" [], call "c" []])])]⟩

/-- The entry function of a source module, and its code. -/
def entryCode? (source : Syntax.Module) :
    Option ((Module × Environment × Function) × (List Pattern × List Stmt) × Names) :=
  match source.lower "m" {} with
  | .error _ => none
  | .ok (m, env) =>
    match m.functions.get? m.entry with
    | none => none
    | some f =>
      match emitWith m env m.readCounts (emitNested m env m.readCounts 1) f (Names.assign m env) with
      | .error _ => none
      | .ok code => some ((m, env, f), code)

theorem entryCode?_eq_some {source : Syntax.Module} {m : Module} {env : Environment} {f : Function}
    {code : (List Pattern × List Stmt) × Names} (h : entryCode? source = some ((m, env, f), code)) :
    f ∈ m.functions.values ∧
      emitWith m env m.readCounts (emitNested m env m.readCounts 1) f (Names.assign m env) =
        .ok code := by
  rw [entryCode?] at h
  split at h
  · cases h
  · split at h
    · cases h
    case h_2 hf =>
      split at h
      · cases h
      case h_2 hcode =>
        cases h
        exact ⟨Table.mem_values.2 ⟨_, hf⟩, hcode⟩

/-- All four calls are in the code, and none twice. -/
theorem Module.emitWith_effects_spreading :
    ∃ (m : Module) (env : Environment) (f : Function) (params : List Pattern) (body : List Stmt)
      (names' : Names),
      entryCode? spreading = some ((m, env, f), (params, body), names') ∧ m.DefinesOnce ∧
      ((Stmt.marksAll body).filterMap Mark.effect?).count .call = 4 ∧
      ∃ (hoisted : KeySet DeclId) (start : Names) (st : State),
        emitFunction hoisted ⟨m, env, m.readCounts, f, emitNested m env m.readCounts 1⟩
          { names := start, declared := hoisted } = .ok ((params, body), st) ∧
        ((codeMarks params body st).filterMap Mark.effect?).count .call =
          ((emittedInstrs f st.emitted).flatMap
            (instrEffects ((Names.assign m env).get? env) env)).count .call := by
  obtain ⟨⟨⟨m, env, f⟩, ⟨params, body⟩, names'⟩, hcode, honce, hcalls⟩ :
      ∃ t ∈ entryCode? spreading, t.1.1.DefinesOnce ∧
        ((Stmt.marksAll t.2.1.2).filterMap Mark.effect?).count .call = 4 := by
    decide +kernel
  obtain ⟨hf, hwith⟩ := entryCode?_eq_some hcode
  exact ⟨m, env, f, params, body, names', hcode, honce, hcalls,
    Module.emitWith_effects honce hf hwith .call fun _ _ _ => nofun⟩

end Whittle.Ir
