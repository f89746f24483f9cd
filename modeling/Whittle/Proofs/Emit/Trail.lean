import Mathlib.Tactic.Common
import Whittle.Proofs.Emit.Evaluation
import Whittle.Proofs.Emit.Ledger
import Whittle.Proofs.Emit.Stack

/-!
# The trail of effects

While a block is emitted, its effects so far are those of the statements written down, followed by those
of the values that wait, in the order in which they came (`Watch.trail`).  A statement first writes down
all waiting values with effects, so it continues the trail; a value that waits is the new end of it.
-/

namespace Whittle.Emit

open Ir Syntax Ledger

/-- The effects that are followed: all but the writes to variables of the module, given the names under
which these are written.  Functions inside do not change the names. -/
structure Watch (ctx : Context) where
  keeps : Effect → Bool
  written : DeclId → Option String
  foreign : ∀ d name, written d = some name → keeps (.write name) = false
  nested : ∀ id names f names', ctx.nested id names = .ok (f, names') →
    ∀ d, names'.get? ctx.env d = names.get? ctx.env d

namespace Watch

variable {ctx : Context} (W : Watch ctx)

/-- The effects of a list that are followed. -/
def of (effects : List Effect) : List Effect := effects.filter W.keeps

@[simp] theorem of_nil : W.of [] = [] := rfl

@[simp] theorem of_append (xs ys : List Effect) : W.of (xs ++ ys) = W.of xs ++ W.of ys :=
  List.filter_append ..

/-- The effects of an expression that are followed. -/
def trace (e : Expr) : List Effect := W.of e.effects

/-! ## Sound states -/

/-- What a waiting value says about its effects is true. -/
structure Honest (p : Pending) : Prop where
  silent : p.hasEffects = false → W.trace p.expr = []
  repeatable : p.isRepeatable = true → W.trace p.expr = []
  selfCopy : p.isSelfCopy = true → W.trace p.expr = []
  store : ∀ s, p.store = some s → W.trace p.expr = W.trace s.value

/-- Neither a pattern nor the assignment to it has effects of its own. -/
structure Quiet (r : Pattern) : Prop where
  alone : W.of r.effects = []
  assigned : ∀ value, W.trace (assignExpr r value) = W.trace value

/-- All that waits can be told apart and is honest; effects wait in values only. -/
structure Sound (st : State) : Prop where
  values : ∀ e ∈ st.values, W.Honest e.2
  nodup : (st.values.map (·.1)).Nodup
  spreads : ∀ c : CellId, st.spreads[c]? = none
  patterns : ∀ (c : CellId) (r : Pattern × List DeclId), st.patterns[c]? = some r → W.Quiet r.1
  names : ∀ d, st.names.get? ctx.env d = W.written d

/-- What the statements do that are written down. -/
def written? (st : State) : List Effect := W.of (Stmt.effectsAll st.out.reverse)

/-- What waits, the latest last. -/
def load (st : State) : Load :=
  (st.values.reverse.map fun e => (e.1, W.trace e.2.expr)).filter (!·.2.isEmpty)

/-- The effects so far. -/
def trail (st : State) : List Effect := W.written? st ++ (W.load st).effects

variable {W} {st st' : State} {c : CellId} {p : Pending}

theorem mem_load {e : CellId × List Effect} :
    e ∈ W.load st ↔ e.2 ≠ [] ∧ ∃ p, (e.1, p) ∈ st.values ∧ W.trace p.expr = e.2 := by
  obtain ⟨c, effects⟩ := e
  simp only [load, List.mem_filter, List.mem_map, List.mem_reverse, Prod.mk.injEq, Prod.exists,
    Bool.not_eq_true', List.isEmpty_eq_false_iff]
  constructor
  · rintro ⟨⟨c, p, hp, rfl, rfl⟩, hne⟩
    exact ⟨hne, p, hp, rfl⟩
  · rintro ⟨hne, p, hp, rfl⟩
    exact ⟨⟨c, p, hp, rfl, rfl⟩, hne⟩

/-! ## Changes of the state -/

theorem load_drop (st : State) (c : CellId) : W.load (st.drop c) = (W.load st).without [c] := by
  rw [load, load, State.drop, Load.without, List.filter_filter, ← List.filter_reverse, List.filter_map,
    List.filter_map, List.filter_filter]
  congr 1
  refine List.filter_congr fun e _ => ?_
  by_cases heq : e.1 = c
  · simp [heq]
  · simp [heq]

theorem load_wait (st : State) (c : CellId) (p : Pending) :
    W.load (st.wait c p) =
      (W.load st).without [c] ++ if W.trace p.expr = [] then [] else [(c, W.trace p.expr)] := by
  have hwait : W.load (st.wait c p) =
      W.load (st.drop c) ++ [(c, W.trace p.expr)].filter (!·.2.isEmpty) := by
    rw [load, load, State.wait, State.drop, List.reverse_cons, List.map_append, List.filter_append]
    rfl
  rw [hwait, load_drop]
  split
  case isTrue h => simp [h]
  case isFalse h => simp [h]

theorem written?_push (st : State) (s : Stmt) :
    W.written? (st.push s) = W.written? st ++ W.of s.effects := by
  rw [written?, State.push, List.reverse_cons, Stmt.effectsAll_append, of_append, written?]
  simp [Stmt.effectsAll]

theorem Sound.push (h : W.Sound st) (s : Stmt) : W.Sound (st.push s) := { h with }

theorem Sound.fresh (h : W.Sound st) : W.Sound st.fresh :=
  { h with names := fun d => (get?_temporary st.names ctx.env d).trans (h.names d) }

theorem Sound.drop (h : W.Sound st) (c : CellId) : W.Sound (st.drop c) :=
  { h with
    values := fun e he => h.values e (List.mem_of_mem_filter he)
    nodup := h.nodup.sublist (List.filter_sublist.map _) }

theorem Sound.wait (h : W.Sound st) (c : CellId) (hp : W.Honest p) : W.Sound (st.wait c p) :=
  { h with
    values := List.forall_mem_cons.2 ⟨hp, (h.drop c).values⟩
    nodup := by
      refine List.nodup_cons.2 ⟨fun hmem => ?_, (h.drop c).nodup⟩
      obtain ⟨e, he, heq⟩ := List.mem_map.1 hmem
      exact absurd heq (bne_iff_ne.1 (List.mem_filter.1 he).2) }

/-- A value without effects is honest, whatever it says about them. -/
theorem Honest.of_trace_eq_nil (h : W.trace p.expr = []) (hstore : p.store = none) : W.Honest p where
  silent _ := h
  repeatable _ := h
  selfCopy _ := h
  store s hs := by simp [hstore] at hs

theorem honest_namedValue (name : String) : W.Honest (namedValue name) := .of_trace_eq_nil rfl rfl

theorem effects_constStmt (name : String) (p : Pending) :
    W.of (constStmt name p).effects = W.trace p.expr := by
  simp [constStmt, declareStmt, namePattern, Stmt.effects, Declarator.effectsAll, Pattern.effects,
    Expr.effectsOpt, trace]

/-! ## Settling -/

/-- Values that wait become statements in their order. -/
theorem settleAll_run {l : List (CellId × Pending)} (hl : (l.map (·.1)).Nodup) (hst : W.Sound st)
    (hmem : ∀ e ∈ l, e ∈ st.values) {u : Unit} (hrun : settleAll l ctx st = .ok (u, st')) :
    W.Sound st' ∧ st'.emitted = st.emitted ∧ W.load st' = (W.load st).without (l.map (·.1)) ∧
      W.written? st' = W.written? st ++ l.flatMap fun e => W.trace e.2.expr := by
  induction l generalizing st with
  | nil =>
    cases hrun
    exact ⟨hst, rfl, (Load.without_nil _).symm, (List.append_nil _).symm⟩
  | cons e l ih =>
    obtain ⟨c, p⟩ := e
    obtain ⟨hc, hl⟩ := List.nodup_cons.1 hl
    obtain ⟨hp, hmem⟩ := List.forall_mem_cons.1 hmem
    obtain ⟨name, st₁, hfresh, hrun⟩ := step_bind_eq_ok hrun
    obtain ⟨rfl, rfl⟩ := Prod.mk.inj (Except.ok.inj ((freshName_run st).symm.trans hfresh))
    obtain ⟨u₂, st₂, hpush, hrun⟩ := step_bind_eq_ok hrun
    obtain ⟨rfl, rfl⟩ := Prod.mk.inj (Except.ok.inj ((push_run _ st.fresh).symm.trans hpush))
    obtain ⟨u₃, st₃, hwait, hrun⟩ := step_bind_eq_ok hrun
    obtain ⟨rfl, rfl⟩ := Prod.mk.inj (Except.ok.inj ((wait_run _ _ _).symm.trans hwait))
    have hrest (e : CellId × Pending) (he : e ∈ l) : e.1 ≠ c := fun heq =>
      hc (List.mem_map.2 ⟨e, he, heq⟩)
    obtain ⟨hst', hemitted, hload, hwritten⟩ := ih hl
      ((hst.fresh.push _).wait c (honest_namedValue st.names.temporary.1))
      (fun e he => List.mem_cons_of_mem _ (List.mem_filter.2 ⟨hmem e he, bne_iff_ne.2 (hrest e he)⟩)) hrun
    refine ⟨hst', hemitted, ?_, ?_⟩
    · have hnamed : W.load ((st.fresh.push (constStmt st.names.temporary.1 p)).wait c
          (namedValue st.names.temporary.1)) = (W.load st).without [c] :=
        (load_wait _ _ _).trans (List.append_nil _)
      rw [hload, hnamed, Load.without_without]
      rfl
    · rw [hwritten, List.flatMap_cons, ← List.append_assoc, ← effects_constStmt]
      congr 1
      exact written?_push st.fresh _

/-- Where the values with effects are settled, their effects go to the statements and nothing waits. -/
theorem settle_run {which : Pending → Bool} (hwhich : ∀ p, p.hasEffects = true → which p = true)
    (hst : W.Sound st) {u : Unit} (hrun : settle which ctx st = .ok (u, st')) :
    W.Sound st' ∧ st'.emitted = st.emitted ∧ W.load st' = [] ∧ W.written? st' = W.trail st := by
  obtain ⟨st₁, st₂, hget, hrun⟩ := step_bind_eq_ok hrun
  cases hget
  have hpicked (e : CellId × Pending) (he : e ∈ st.values) (hne : W.trace e.2.expr ≠ []) :
      (!e.2.isRepeatable && !e.2.isSelfCopy && which e.2) = true := by
    have hhonest := hst.values e he
    have hrepeat : e.2.isRepeatable = false := Bool.eq_false_iff.2 fun h => hne (hhonest.repeatable h)
    have hself : e.2.isSelfCopy = false := Bool.eq_false_iff.2 fun h => hne (hhonest.selfCopy h)
    have heffects : e.2.hasEffects = true := by
      by_contra h
      exact hne (hhonest.silent (Bool.eq_false_iff.2 h))
    simp [hrepeat, hself, hwhich _ heffects]
  obtain ⟨hst', hemitted, hload, hwritten⟩ := settleAll_run
    (by
      rw [List.map_reverse, List.nodup_reverse]
      exact (List.filter_sublist.map _).nodup hst.nodup)
    hst (fun e he => List.mem_of_mem_filter (List.mem_reverse.1 he)) hrun
  refine ⟨hst', hemitted, ?_, ?_⟩
  · rw [hload, Load.without, List.filter_eq_nil_iff]
    intro e he
    obtain ⟨hne, p, hp, htrace⟩ := mem_load.1 he
    have hpick := hpicked (e.1, p) hp (htrace ▸ hne)
    simp only [List.map_reverse, List.contains_reverse, Bool.not_eq_true', Bool.not_eq_false,
      List.contains_iff_mem, List.mem_map, List.mem_filter]
    exact ⟨(e.1, p), ⟨hp, hpick⟩, rfl⟩
  · rw [hwritten, trail, Load.effects, load,
      Load.flatMap_filter_of_eq_nil fun e _ h => by simpa using h, List.flatMap_map,
      ← List.filter_reverse, Load.flatMap_filter_of_eq_nil fun e he h => ?_]
    by_contra hne
    rw [hpicked e (List.mem_reverse.1 he) hne] at h
    cases h

theorem disturbs_of_hasEffects (writes : Writes) (h : p.hasEffects = true) : writes.disturbs p = true := by
  simp [Writes.disturbs, h]

/-! ## Steps that continue the trail -/

variable {α β : Type} {waits : Bool} {gain gain' : List Effect}

/-- From one state to another the trail went on.  Nothing waits that did not before, but for the given
cell if it is to wait and there are new effects. -/
structure After (W : Watch ctx) (c : CellId) (waits : Bool) (st : State) (gain : List Effect)
    (st' : State) : Prop where
  sound : W.Sound st'
  emitted : st'.emitted = st.emitted
  load : (W.load st').cells.Sublist
    ((W.load st).cells ++ if waits = true ∧ gain ≠ [] then [c] else [])
  trail : W.trail st' = W.trail st ++ gain

/-- A step continues the trail, from any state in which nothing waits for the given cell. -/
def Adds (W : Watch ctx) (c : CellId) (waits : Bool) (act : Step α) (gain : List Effect)
    (P : α → Prop) : Prop :=
  ∀ st a st', W.Sound st → c ∉ (W.load st).cells → act ctx st = .ok (a, st') →
    W.After c waits st gain st' ∧ P a

/-- A step that writes nothing down and takes nothing that waits. -/
def Looks (W : Watch ctx) (act : Step α) (P : α → Prop) : Prop :=
  ∀ st a st', W.Sound st → act ctx st = .ok (a, st') →
    W.Sound st' ∧ st'.emitted = st.emitted ∧ st'.out = st.out ∧ st'.values = st.values ∧ P a

namespace Adds

variable {act : Step α} {next : α → Step β} {P : α → Prop} {R : β → Prop}

theorem bind (h : W.Adds c false act gain P) (h' : ∀ a, P a → W.Adds c waits (next a) gain' R) :
    W.Adds c waits (act >>= next) (gain ++ gain') R := by
  intro st b st'' hst hc hrun
  obtain ⟨a, st', hact, hnext⟩ := step_bind_eq_ok hrun
  obtain ⟨hfirst, ha⟩ := h st a st' hst hc hact
  have hsub : (W.load st').cells.Sublist (W.load st).cells := by simpa using hfirst.load
  obtain ⟨hsecond, hb⟩ := h' a ha st' b st'' hfirst.sound (fun hmem => hc (hsub.subset hmem)) hnext
  refine ⟨⟨hsecond.sound, hsecond.emitted.trans hfirst.emitted, hsecond.load.trans ?_, ?_⟩, hb⟩
  · refine hsub.append ?_
    by_cases hgain : waits = true ∧ gain' ≠ []
    · simp [hgain]
    · simp only [hgain, if_false, List.nil_sublist]
  · rw [hsecond.trail, hfirst.trail, List.append_assoc]

theorem gain_eq (h : W.Adds c waits act gain P) (heq : gain = gain') : W.Adds c waits act gain' P :=
  heq ▸ h

/-- A step that adds nothing comes first. -/
theorem seq (h : W.Adds c false act [] P) (h' : ∀ a, P a → W.Adds c waits (next a) gain R) :
    W.Adds c waits (act >>= next) gain R :=
  h.bind h'

theorem pure {a : α} (ha : P a) : W.Adds c waits (Pure.pure a : Step α) [] P := by
  intro st a' st' hst _ hrun
  cases hrun
  exact ⟨⟨hst, rfl, by simp, (List.append_nil _).symm⟩, ha⟩

end Adds

namespace Looks

variable {act : Step α} {next : α → Step β} {P : α → Prop} {R : β → Prop}

theorem adds (h : W.Looks act P) : W.Adds c waits act [] P := by
  intro st a st' hst _ hrun
  obtain ⟨hst', hemitted, hout, hvalues, ha⟩ := h st a st' hst hrun
  refine ⟨⟨hst', hemitted, ?_, ?_⟩, ha⟩
  · simp [load, hvalues]
  · simp [trail, load, written?, hout, hvalues]

theorem bind (h : W.Looks act P) (h' : ∀ a, P a → W.Looks (next a) R) : W.Looks (act >>= next) R := by
  intro st b st'' hst hrun
  obtain ⟨a, st', hact, hnext⟩ := step_bind_eq_ok hrun
  obtain ⟨hst', hemitted, hout, hvalues, ha⟩ := h st a st' hst hact
  obtain ⟨hst'', hemitted', hout', hvalues', hb⟩ := h' a ha st' b st'' hst' hnext
  exact ⟨hst'', hemitted'.trans hemitted, hout'.trans hout, hvalues'.trans hvalues, hb⟩

theorem pure {a : α} (ha : P a) : W.Looks (Pure.pure a : Step α) P := by
  intro st a' st' hst hrun
  cases hrun
  exact ⟨hst, rfl, rfl, rfl, ha⟩

theorem throw (e : Error) : W.Looks (throw e : Step α) P := by
  intro st a st' _ hrun
  cases hrun

theorem read : W.Looks (read : Step Context) (· = ctx) := by
  intro st a st' hst hrun
  cases hrun
  exact ⟨hst, rfl, rfl, rfl, rfl⟩

theorem get : W.Looks (get : Step State) W.Sound := by
  intro st a st' hst hrun
  cases hrun
  exact ⟨hst, rfl, rfl, rfl, hst⟩

/-- A change of what the trail does not depend on. -/
theorem modify {change : State → State} (hsound : ∀ st, W.Sound st → W.Sound (change st))
    (hsame : ∀ st, (change st).emitted = st.emitted ∧ (change st).out = st.out ∧
      (change st).values = st.values) : W.Looks (modify change : Step Unit) Anything := by
  intro st u st' hst hrun
  cases hrun
  obtain ⟨hemitted, hout, hvalues⟩ := hsame st
  exact ⟨hsound st hst, hemitted, hout, hvalues, trivial⟩

theorem nameOf (d : DeclId) : W.Looks (nameOf d) fun name => W.written d = some name := by
  intro st name st' hst hrun
  obtain ⟨rfl, hname⟩ := nameOf_run hrun
  exact ⟨hst, rfl, rfl, rfl, (hst.names d).symm.trans hname⟩

theorem readCount (place : Place) :
    W.Looks (readCount place) (· = ctx.counts.getD place.cell.id 0) :=
  Looks.read.bind fun ctx' h => by
    subst h
    exact Looks.pure rfl

theorem readName (d : DeclId) :
    W.Looks (readName d) fun p => W.trace p.expr = [] ∧ W.Honest p :=
  (Looks.nameOf d).bind fun _ _ => Looks.pure ⟨rfl, .of_trace_eq_nil rfl rfl⟩

theorem declaringWord (d : DeclId) (kind : StoreKind) : W.Looks (declaringWord d kind) Anything :=
  Looks.read.bind fun _ _ => Looks.get.bind fun _ _ => by
    split
    · exact Looks.pure trivial
    · exact Looks.pure trivial

theorem markDeclared (d : DeclId) (word : VarKind) : W.Looks (markDeclared d word) Anything :=
  Looks.modify (fun _ h => { h with }) fun _ => ⟨rfl, rfl, rfl⟩

end Looks

/-! ## Writing statements -/

/-- A statement comes behind all that waits. -/
theorem adds_statement (s : Stmt) (writes : Writes) :
    W.Adds c waits (statement s writes) (W.of s.effects) Anything := by
  intro st u st' hst _ hrun
  obtain ⟨u₁, st₁, hsettle, hpush⟩ := step_bind_eq_ok hrun
  obtain ⟨rfl, rfl⟩ := Prod.mk.inj (Except.ok.inj ((push_run s st₁).symm.trans hpush))
  obtain ⟨hst₁, hemitted, hload, hwritten⟩ :=
    settle_run (fun _ => disturbs_of_hasEffects writes) hst hsettle
  have hnone : W.load (st₁.push s) = [] := hload
  refine ⟨⟨hst₁.push s, hemitted, ?_, ?_⟩, trivial⟩
  · rw [hnone]
    exact List.nil_sublist _
  · rw [trail, hnone, written?_push, hwritten]
    exact List.append_nil _

theorem quiet_namePattern {d : DeclId} {name : String} (h : W.written d = some name) :
    W.Quiet (namePattern name) where
  alone := rfl
  assigned value := by
    have hwrite : W.of [.write name] = [] := by simp [of, W.foreign d name h]
    rw [trace, assignExpr, namePattern, Expr.effects, of_append, Ident.synthetic, hwrite, List.append_nil,
      trace]

theorem of_declareStmt (word : VarKind) {target : Pattern} (h : W.Quiet target) (value : Option Expr) :
    W.of (declareStmt word target value).effects = W.of (Expr.effectsOpt value) := by
  simp [declareStmt, Stmt.effects, Declarator.effectsAll, h.alone]

theorem adds_ensureDeclared (d : DeclId) : W.Adds c waits (ensureDeclared d) [] Anything := by
  refine (Looks.declaringWord d .reassign).adds.seq fun word _ => ?_
  cases word with
  | none => exact .pure trivial
  | some word =>
    refine (Looks.nameOf d).adds.seq fun name hname => (Looks.markDeclared d _).adds.seq fun _ _ => ?_
    exact (adds_statement _ _).gain_eq (of_declareStmt _ (quiet_namePattern hname) none)

theorem adds_ensureAll (ds : List DeclId) : W.Adds c waits (ensureAll ds) [] Anything := by
  induction ds with
  | nil => exact .pure trivial
  | cons d ds ih => exact (adds_ensureDeclared d).seq fun _ _ => ih

theorem trace_of_isName {name : String} {e : Expr} (h : isName name e = true) : W.trace e = [] := by
  cases e with
  | name _ _ => rfl
  | _ => cases h

theorem adds_storeStmt (s : Store) : W.Adds c waits (storeStmt s) (W.trace s.value) Anything := by
  refine (Looks.nameOf s.declaration).adds.seq fun name hname =>
    (Looks.declaringWord s.declaration s.kind).adds.seq fun word _ => ?_
  cases word with
  | none => exact (adds_statement _ _).gain_eq ((quiet_namePattern hname).assigned s.value)
  | some word =>
    refine (Looks.markDeclared s.declaration word).adds.seq fun _ _ => (adds_statement _ _).gain_eq ?_
    rw [of_declareStmt word (quiet_namePattern hname)]
    split
    case isTrue h => exact (trace_of_isName (Bool.and_eq_true_iff.1 h).1).symm
    case isFalse => rfl

theorem adds_valueStmt (hp : W.Honest p) :
    W.Adds c waits (valueStmt p) (W.trace p.expr) Anything := by
  rw [valueStmt]
  split
  case isTrue hself => exact (Adds.pure trivial).gain_eq (hp.selfCopy hself).symm
  case isFalse =>
    split
    case h_1 s hstore => exact (adds_storeStmt s).gain_eq (hp.store s hstore).symm
    case h_2 =>
      split
      case isTrue => exact adds_statement _ _
      case isFalse h =>
        have hsilent : p.hasEffects = false := (Bool.or_eq_false_iff.1 (Bool.eq_false_iff.2 h)).1
        exact (Adds.pure trivial).gain_eq (hp.silent hsilent).symm

/-! ## Defining places -/

/-- A value that waits is the new end of the trail. -/
theorem adds_wait (hp : W.Honest p) : W.Adds c true (wait c p) (W.trace p.expr) Anything := by
  intro st u st' hst hc hrun
  obtain ⟨rfl, rfl⟩ := Prod.mk.inj (Except.ok.inj ((wait_run c p st).symm.trans hrun))
  have hload : W.load (st.wait c p) = _ := load_wait st c p
  rw [Load.without_of_notMem hc] at hload
  refine ⟨⟨hst.wait c hp, rfl, ?_, ?_⟩, trivial⟩
  · rw [hload]
    by_cases h : W.trace p.expr = []
    · simp [h]
    · simp [h, Load.cells]
  · have hwritten : W.written? (st.wait c p) = W.written? st := rfl
    rw [trail, hload, hwritten, trail, List.append_assoc]
    congr 1
    by_cases h : W.trace p.expr = []
    · simp [h]
    · simp [h, Load.effects]

/-- A value without effects may wait anywhere. -/
theorem adds_wait_of_trace_eq_nil (hp : W.Honest p) (htrace : W.trace p.expr = []) :
    W.Adds c waits (wait c p) [] Anything := by
  intro st u st' hst hc hrun
  obtain ⟨⟨hst', hemitted, hload, htrail⟩, _⟩ := adds_wait hp st u st' hst hc hrun
  simp only [htrace, ne_eq, not_true, and_false, if_false, List.append_nil] at hload htrail
  exact ⟨⟨hst', hemitted, by simpa using hload, by simpa using htrail⟩, trivial⟩

theorem adds_materialize (p : Pending) :
    W.Adds c false (materialize p) (W.trace p.expr) fun q => W.Honest q ∧ W.trace q.expr = [] := by
  intro st q st' hst hc hrun
  obtain ⟨name, st₁, hfresh, hrun⟩ := step_bind_eq_ok hrun
  obtain ⟨rfl, rfl⟩ := Prod.mk.inj (Except.ok.inj ((freshName_run st).symm.trans hfresh))
  obtain ⟨u, st₂, hstatement, hrun⟩ := step_bind_eq_ok hrun
  cases hrun
  have hadds : W.Adds c false (statement (constStmt st.names.temporary.1 p) (.of p.hasEffects none))
      (W.of (constStmt st.names.temporary.1 p).effects) Anything := adds_statement _ _
  obtain ⟨⟨hst', hemitted, hload, htrail⟩, _⟩ := hadds st.fresh u st' hst.fresh hc hstatement
  rw [effects_constStmt] at htrail
  exact ⟨⟨hst', hemitted, hload, htrail⟩, honest_namedValue _, rfl⟩

/-- Defining a place continues the trail.  Where the place is read once, the value waits for its cell. -/
theorem adds_define {place : Place} (hp : W.Honest p) :
    W.Adds place.cell.id (readOnce ctx.counts place.cell.id) (define place p) (W.trace p.expr) Anything := by
  refine (Looks.readCount place).adds.seq fun count hcount => ?_
  rw [readOnce, ← hcount]
  split
  · exact adds_valueStmt hp
  · exact adds_wait hp
  · split
    case isTrue h =>
      have htrace : W.trace p.expr = [] := (Bool.or_eq_true_iff.1 h).elim hp.repeatable hp.selfCopy
      rw [htrace]
      exact adds_wait_of_trace_eq_nil hp htrace
    case isFalse =>
      refine Adds.gain_eq ((adds_materialize p).bind fun q ⟨hq, htrace⟩ => ?_) (List.append_nil _)
      exact adds_wait_of_trace_eq_nil hq htrace

end Watch

end Whittle.Emit
