import Mathlib.Tactic.Common
import Mathlib.Data.List.Nodup
import Mathlib.Data.Set.Insert
import Std.Data.TreeMap.Lemmas
import Whittle.Proofs.Emit.Effects

/-!
# Where effects are while code is emitted

The effects of the instructions emitted so far stand in the statements written down and in what waits
for a reader: values, spreads and patterns.  Taking a value out and putting it into a larger one
neither loses nor repeats an effect; only values without any may be dropped or repeated.
-/

namespace Whittle.Emit

open Ir Syntax

/-! ## Sums over what waits -/

section Sums

variable {α : Type}

/-- The sum of a quantity over all entries. -/
def totalOf (f : α → Nat) (m : CellMap α) : Nat := (m.toList.map fun e => f e.2).sum

theorem nodup_toList (m : CellMap α) : m.toList.Nodup := by
  refine Std.TreeMap.distinct_keys_toList.imp fun {a b} hne => ?_
  rintro rfl
  exact hne Std.ReflCmp.compare_self

/-- One entry more adds its own quantity. -/
theorem totalOf_eq_add {f : α → Nat} {m m' : CellMap α} {c : CellId} {v : α}
    (hc : m[c]? = none) (hm : ∀ c', m'[c']? = if c = c' then some v else m[c']?) :
    totalOf f m' = totalOf f m + f v := by
  have hfresh : (c, v) ∉ m.toList := by
    rw [Std.TreeMap.mem_toList_iff_getElem?_eq_some, hc]
    exact nofun
  have hperm : m'.toList.Perm ((c, v) :: m.toList) := by
    rw [List.perm_ext_iff_of_nodup (nodup_toList m') (List.nodup_cons.2 ⟨hfresh, nodup_toList m⟩)]
    rintro ⟨c', v'⟩
    rw [List.mem_cons, Std.TreeMap.mem_toList_iff_getElem?_eq_some,
      Std.TreeMap.mem_toList_iff_getElem?_eq_some, hm]
    by_cases heq : c = c'
    · subst heq
      simp [hc, eq_comm]
    · simp [heq, Ne.symm heq]
  rw [totalOf, (hperm.map _).sum_nat, List.map_cons, List.sum_cons, totalOf, Nat.add_comm]

theorem totalOf_insert (f : α → Nat) {m : CellMap α} {c : CellId} (v : α) (hc : m[c]? = none) :
    totalOf f (m.insert c v) = totalOf f m + f v := by
  refine totalOf_eq_add hc fun c' => ?_
  simp [Std.TreeMap.getElem?_insert]

theorem totalOf_erase (f : α → Nat) {m : CellMap α} {c : CellId} {v : α} (hc : m[c]? = some v) :
    totalOf f (m.erase c) + f v = totalOf f m := by
  refine (totalOf_eq_add (c := c) (by simp) fun c' => ?_).symm
  rw [Std.TreeMap.getElem?_erase]
  by_cases heq : c = c'
  · subst heq
    simp [hc]
  · simp [heq]

/-- Taking an entry out of a list of entries takes its quantity out. -/
theorem sum_filter_ne (f : α → Nat) {l : List (CellId × α)} (hl : (l.map (·.1)).Nodup) {c : CellId}
    {v : α} (h : (c, v) ∈ l) :
    ((l.filter (·.1 != c)).map fun e => f e.2).sum + f v = (l.map fun e => f e.2).sum := by
  induction l with
  | nil => cases h
  | cons e l ih =>
    obtain ⟨he, hl⟩ := List.nodup_cons.1 hl
    rcases List.mem_cons.1 h with rfl | h
    · have hrest : l.filter (·.1 != c) = l := by
        refine List.filter_eq_self.2 fun e' he' => bne_iff_ne.2 fun heq => ?_
        exact he (List.mem_map.2 ⟨e', he', heq⟩)
      simp [hrest, Nat.add_comm]
    · have hne : e.1 ≠ c := fun heq => he (List.mem_map.2 ⟨_, h, heq.symm⟩)
      simp only [List.filter_cons, bne_iff_ne.2 hne, if_true, List.map_cons, List.sum_cons,
        Nat.add_assoc, ih hl h]

end Sums

/-! ## The state -/

namespace State

/-- The state with one more statement. -/
def push (st : State) (s : Stmt) : State := { st with out := s :: st.out }

/-- The state in which no value waits for a cell. -/
def drop (st : State) (c : CellId) : State := { st with values := st.values.filter (·.1 != c) }

/-- The state in which a value waits for a cell. -/
def wait (st : State) (c : CellId) (p : Pending) : State :=
  { st with values := (c, p) :: st.values.filter (·.1 != c) }

/-- The state after a name was made. -/
def fresh (st : State) : State := { st with names := st.names.temporary.2 }

end State

/-- How much of what waits for a reader weighs. -/
def State.waiting (k : Mark → Nat) (st : State) : Nat :=
  (st.values.map fun e => weigh k e.2.expr.marks).sum + totalOf (fun p => weigh k p.expr.marks) st.spreads +
    totalOf (fun r => weigh k r.1.marks) st.patterns

/-- How much of what is written down or waits weighs. -/
def State.holds (k : Mark → Nat) (st : State) : Nat := weigh k (Stmt.marksAll st.out) + st.waiting k

/-- What a waiting value says about its effects is true. -/
structure Pending.Honest (k : Mark → Nat) (p : Pending) : Prop where
  silent : p.hasEffects = false → weigh k p.expr.marks = 0
  repeatable : p.isRepeatable = true → weigh k p.expr.marks = 0
  selfCopy : p.isSelfCopy = true → weigh k p.expr.marks = 0
  store : ∀ s, p.store = some s → weigh k p.expr.marks = weigh k s.value.marks

/-- A value that is read once and writes nothing has to be honest only when it has no effects. -/
theorem Pending.Honest.of_silent {k : Mark → Nat} {p : Pending} (hrepeatable : p.isRepeatable = false)
    (hself : p.isSelfCopy = false) (hstore : p.store = none)
    (hsilent : p.hasEffects = false → weigh k p.expr.marks = 0) : p.Honest k where
  silent := hsilent
  repeatable h := by simp [hrepeatable] at h
  selfCopy h := by simp [hself] at h
  store s h := by simp [hstore] at h

theorem Pending.Honest.of_hasEffects {k : Mark → Nat} {p : Pending} (heffects : p.hasEffects = true)
    (hrepeatable : p.isRepeatable = false) (hself : p.isSelfCopy = false) (hstore : p.store = none) :
    p.Honest k :=
  .of_silent hrepeatable hself hstore fun h => by simp [heffects] at h

/-- What is weighed: marks that are no writes to variables of the module, given the names under which
these are written.  Functions inside do not change the names.  A call may be due more or less than it
weighs, depending on the cell that its callee is in.  Some cells are known to hold accesses of one kind;
a call of such an access, or of a constant that it was written to, weighs enough. -/
structure Ledger (ctx : Context) where
  weight : Mark → Nat
  written : DeclId → Option String
  foreign : ∀ d name, written d = some name → weight (.write name) = 0
  nested : ∀ id names f names', ctx.nested id names = .ok (f, names') →
    ∀ d, names'.get? ctx.env d = names.get? ctx.env d
  /-- What is due for a call of the value in a cell. -/
  callDue : CellId → Nat
  /-- The cells that are known to hold accesses. -/
  near : Set CellId
  access : Access
  direct : ∀ c e, e.access? = some access → callDue c ≤ weight (.call e)
  /-- More is never asked for. -/
  cap : Nat
  /-- A constant for an access is one whose calls weigh enough, or it weighs as much as all that is
  asked for. -/
  constant : ∀ c e name, e.access? = some access → callDue c ≤ weight (.call (nameExpr name)) ∨
    cap ≤ weight (.declare .constKind (namePattern name) (some e))
  /-- Whether all weights are due. -/
  exact : Prop
  exact_call : exact → ∀ c e, weight (.call e) = callDue c
  exact_declare : exact → ∀ kind target value, weight (.declare kind target value) = 0

namespace Ledger

variable {ctx : Context} (L : Ledger ctx)

/-! ## What is asked for -/

/-- What is there is what is asked for: exactly, or no less up to the cap. -/
structure Meets (asked there : Nat) : Prop where
  enough : min asked L.cap ≤ there
  exactly : L.exact → there = asked

namespace Meets

variable {L} {x y z g g' h h' n : Nat}

theorem of_eq (heq : y = x) : L.Meets x y := ⟨by omega, fun _ => heq⟩

theorem add (hxy : L.Meets x y) (n : Nat) : L.Meets (x + n) (y + n) :=
  ⟨by have := hxy.enough; omega, fun hexact => congrArg (· + n) (hxy.exactly hexact)⟩

theorem trans (hxy : L.Meets x y) (hyz : L.Meets y z) : L.Meets x z :=
  ⟨by have := hxy.enough; have := hyz.enough; omega,
    fun hexact => (hyz.exactly hexact).trans (hxy.exactly hexact)⟩

/-- What the first of two steps holds is asked for by the second one. -/
theorem bind (hxy : L.Meets (x + g) (y + h)) (hyz : L.Meets (y + (h + g')) (z + h')) :
    L.Meets (x + (g + g')) (z + h') := by
  have hboth := (hxy.add g').trans ((Nat.add_assoc y h g').symm ▸ hyz)
  rwa [Nat.add_assoc] at hboth

/-- Less may be asked for. -/
theorem less (hxy : L.Meets (x + g) y) (hle : g' ≤ g) (hexact : L.exact → g = g') : L.Meets (x + g') y :=
  ⟨by have := hxy.enough; omega, fun hall => by rw [hxy.exactly hall, hexact hall]⟩

end Meets

/-! ## Sound states -/

/-- A value in a near cell is an access or a constant for one. -/
def Follows (out : List Stmt) (c : CellId) (p : Pending) : Prop :=
  p.expr.access? = some L.access ∨ ∃ name, p = namedValue name ∧
    (L.callDue c ≤ L.weight (.call (nameExpr name)) ∨ L.cap ≤ weigh L.weight (Stmt.marksAll out))

/-- All that waits can be told apart and is honest; nothing waits for the cells in `later`. -/
structure Sound (later : Set CellId) (st : State) : Prop where
  values : ∀ e ∈ st.values, e.2.Honest L.weight
  spreads : ∀ (c : CellId) (p : Pending), st.spreads[c]? = some p → p.Honest L.weight
  patterns : ∀ (c : CellId) (r : Pattern × List DeclId), st.patterns[c]? = some r →
    weigh L.weight r.1.writes = 0
  nodup : (st.values.map (·.1)).Nodup
  values_later : ∀ e ∈ st.values, e.1 ∉ later
  spreads_later : ∀ c ∈ later, st.spreads[c]? = none
  patterns_later : ∀ c ∈ later, st.patterns[c]? = none
  names : ∀ d, st.names.get? ctx.env d = L.written d
  near : ∀ e ∈ st.values, e.1 ∈ L.near → L.Follows st.out e.1 e.2

variable {L} {later later' later'' : Set CellId} {st st' : State}

theorem Sound.anti (h : L.Sound later st) (hlater : later' ⊆ later) : L.Sound later' st where
  values := h.values
  spreads := h.spreads
  patterns := h.patterns
  nodup := h.nodup
  values_later e he hc := h.values_later e he (hlater hc)
  spreads_later c hc := h.spreads_later c (hlater hc)
  patterns_later c hc := h.patterns_later c (hlater hc)
  names := h.names
  near := h.near

variable {α β : Type}

/-- From a state, a step leads to a sound state and adds what weighs `gain`; of that, its result holds
a part outside of the state. -/
def BalancedAt (L : Ledger ctx) (st : State) (later : Set CellId) (act : Step α) (later' : Set CellId)
    (gain : Nat) (held : α → Nat) (P : α → Prop) : Prop :=
  ∀ a st', L.Sound later st → act ctx st = .ok (a, st') →
    L.Sound later' st' ∧ st'.emitted = st.emitted ∧
      L.Meets (st.holds L.weight + gain) (st'.holds L.weight + held a) ∧ P a

/-- A step does so from every state. -/
def Balanced (L : Ledger ctx) (later : Set CellId) (act : Step α) (later' : Set CellId) (gain : Nat)
    (held : α → Nat) (P : α → Prop) : Prop :=
  ∀ st, L.BalancedAt st later act later' gain held P

/-- The result is all that a step takes out. -/
def Takes (L : Ledger ctx) (act : Step α) (held : α → Nat) (P : α → Prop) : Prop :=
  ∀ later, L.Balanced later act later 0 held P

/-- A step without an answer of interest. -/
abbrev Nothing : α → Nat := fun _ => 0

/-- Nothing is said about an answer. -/
abbrev Anything : α → Prop := fun _ => True

theorem step_bind_eq_ok {act : Step α} {next : α → Step β} {b : β}
    (h : (act >>= next) ctx st = .ok (b, st')) :
    ∃ a st₁, act ctx st = .ok (a, st₁) ∧ next a ctx st₁ = .ok (b, st') := by
  change (act ctx st >>= fun r => next r.1 ctx r.2) = _ at h
  cases hact : act ctx st with
  | error e =>
    rw [hact] at h
    cases h
  | ok r =>
    rw [hact] at h
    exact ⟨r.1, r.2, rfl, h⟩

namespace Balanced

variable {act : Step α} {next : α → Step β} {gain gain' : Nat} {held : α → Nat} {held' : β → Nat}
  {P P' : α → Prop} {R : β → Prop}

theorem gain_eq (h : L.Balanced later act later' gain held P) (heq : gain = gain') :
    L.Balanced later act later' gain' held P :=
  heq ▸ h

theorem bind (h : L.Balanced later act later' gain held P)
    (h' : ∀ a, P a → L.Balanced later' (next a) later'' (held a + gain') held' R) :
    L.Balanced later (act >>= next) later'' (gain + gain') held' R := by
  intro st b st'' hst hrun
  obtain ⟨a, st', hact, hnext⟩ := step_bind_eq_ok hrun
  obtain ⟨hst', hemitted, hcount, ha⟩ := h st a st' hst hact
  obtain ⟨hst'', hemitted', hcount', hb⟩ := h' a ha st' b st'' hst' hnext
  exact ⟨hst'', hemitted'.trans hemitted, hcount.bind hcount', hb⟩

theorem pure {a : α} (hgain : held a = gain) (ha : P a) :
    L.Balanced later (Pure.pure a) later gain held P := by
  intro st a' st' hst hrun
  cases hrun
  exact ⟨hst, rfl, .of_eq (congrArg _ hgain), ha⟩

/-- What comes next may look at the state. -/
theorem get {next : State → Step α} (h : ∀ st, L.BalancedAt st later (next st) later' gain held P) :
    L.Balanced later (get >>= next) later' gain held P := by
  intro st a st' hst hrun
  obtain ⟨st₁, st₂, hget, hrun⟩ := step_bind_eq_ok hrun
  cases hget
  exact h st a st' hst hrun

theorem throw (e : Error) : L.Balanced later (throw e : Step α) later' gain held P := by
  intro st a st' _ hrun
  cases hrun

/-- Less may be asked of a step. -/
theorem less (h : L.Balanced later act later' gain held P) (hle : gain' ≤ gain)
    (hexact : L.exact → gain = gain') : L.Balanced later act later' gain' held P := by
  intro st a st' hst hrun
  obtain ⟨hst', hemitted, hcount, ha⟩ := h st a st' hst hrun
  exact ⟨hst', hemitted, hcount.less hle hexact, ha⟩

/-- Nothing need be known about some cells any more. -/
theorem shrink (h : L.Balanced later act later' gain held P) (hlater : later'' ⊆ later') :
    L.Balanced later act later'' gain held P := by
  intro st a st' hst hrun
  obtain ⟨hst', hemitted, hcount, ha⟩ := h st a st' hst hrun
  exact ⟨hst'.anti hlater, hemitted, hcount, ha⟩

end Balanced

namespace Takes

variable {act : Step α} {next : α → Step β} {gain : Nat} {held : α → Nat} {held' : β → Nat}
  {P : α → Prop} {R : β → Prop}

/-- What was taken out goes into what comes next. -/
theorem bind (h : L.Takes act held P)
    (h' : ∀ a, P a → L.Balanced later (next a) later' (held a + gain) held' R) :
    L.Balanced later (act >>= next) later' gain held' R :=
  ((h later).bind h').gain_eq (Nat.zero_add gain)

/-- A step whose answer holds nothing comes before another one. -/
theorem seq (h : L.Takes act Nothing P)
    (h' : ∀ a, P a → L.Balanced later (next a) later' gain held' R) :
    L.Balanced later (act >>= next) later' gain held' R :=
  h.bind fun a ha => (h' a ha).gain_eq (Nat.zero_add gain).symm

/-- A step that only looks at the state. -/
theorem of_reading (h : ∀ st a st', (∀ d, st.names.get? ctx.env d = L.written d) →
    act ctx st = .ok (a, st') → st' = st ∧ P a) : L.Takes act Nothing P := by
  intro later st a st' hst hrun
  obtain ⟨rfl, ha⟩ := h st a st' hst.names hrun
  exact ⟨hst, rfl, .of_eq rfl, ha⟩

end Takes

/-! ## Changes of the state -/

section Changes

variable {c : CellId} {p : Pending}

theorem weigh_push (k : Mark → Nat) (st : State) (s : Stmt) :
    weigh k (Stmt.marksAll (st.push s).out) = weigh k s.marks + weigh k (Stmt.marksAll st.out) := by
  rw [State.push, Stmt.marksAll, weigh_append]

theorem Follows.push (h : L.Follows st.out c p) (s : Stmt) : L.Follows (st.push s).out c p := by
  refine h.imp_right fun ⟨name, hp, hname⟩ => ⟨name, hp, hname.imp_right fun hcap => ?_⟩
  rw [weigh_push]
  omega

theorem Sound.push (h : L.Sound later st) (s : Stmt) : L.Sound later (st.push s) :=
  { h with near := fun e he hnear => (h.near e he hnear).push s }

theorem holds_push (k : Mark → Nat) (st : State) (s : Stmt) :
    (st.push s).holds k = st.holds k + weigh k s.marks := by
  rw [State.holds, weigh_push, State.holds]
  simp only [State.waiting, State.push]
  omega

theorem Sound.drop (h : L.Sound later st) (c : CellId) : L.Sound later (st.drop c) :=
  { h with
    values := fun e he => h.values e (List.mem_of_mem_filter he)
    nodup := h.nodup.sublist (List.filter_sublist.map _)
    values_later := fun e he => h.values_later e (List.mem_of_mem_filter he)
    near := fun e he => h.near e (List.mem_of_mem_filter he) }

theorem Sound.holds_drop (h : L.Sound later st) (hp : (c, p) ∈ st.values) :
    (st.drop c).holds L.weight + weigh L.weight p.expr.marks = st.holds L.weight := by
  have hsum := sum_filter_ne (fun p => weigh L.weight p.expr.marks) h.nodup hp
  simp only [State.holds, State.waiting, State.drop]
  omega

/-- A value waits; nothing is to wait for its cell later. -/
theorem Sound.wait (h : L.Sound later st) (hlater : later' ⊆ later) (hc : c ∉ later')
    (hp : p.Honest L.weight) (hnear : c ∈ L.near → L.Follows st.out c p) :
    L.Sound later' (st.wait c p) :=
  { (h.drop c).anti hlater with
    values := List.forall_mem_cons.2 ⟨hp, (h.drop c).values⟩
    nodup := by
      refine List.nodup_cons.2 ⟨fun hmem => ?_, (h.drop c).nodup⟩
      obtain ⟨e, he, heq⟩ := List.mem_map.1 hmem
      exact absurd heq (bne_iff_ne.1 (List.mem_filter.1 he).2)
    values_later := List.forall_mem_cons.2 ⟨hc, ((h.drop c).anti hlater).values_later⟩
    near := List.forall_mem_cons.2 ⟨hnear, (h.drop c).near⟩ }

theorem holds_wait (k : Mark → Nat) (st : State) (c : CellId) (p : Pending) :
    (st.wait c p).holds k = (st.drop c).holds k + weigh k p.expr.marks := by
  simp only [State.holds, State.waiting, State.wait, State.drop, List.map_cons, List.sum_cons]
  omega

/-- Where nothing waits for a cell, there is nothing to drop. -/
theorem Sound.drop_eq (h : L.Sound later st) (hc : c ∈ later) : st.drop c = st := by
  have hfilter : st.values.filter (·.1 != c) = st.values :=
    List.filter_eq_self.2 fun e he => bne_iff_ne.2 fun heq => h.values_later e he (heq ▸ hc)
  rw [State.drop, hfilter]

end Changes

/-! ## Steps -/

/-- What the books are about. -/
def Books (st : State) : Names × List Stmt × List (CellId × Pending) × CellMap Pending ×
    CellMap (Pattern × List DeclId) × KeySet BlockId :=
  (st.names, st.out, st.values, st.spreads, st.patterns, st.emitted)

theorem Sound.of_books (h : L.Sound later st) (hbooks : Books st' = Books st) :
    L.Sound later st' ∧ st'.emitted = st.emitted ∧ st'.holds L.weight = st.holds L.weight := by
  simp only [Books, Prod.mk.injEq] at hbooks
  obtain ⟨hnames, hout, hvalues, hspreads, hpatterns, hemitted⟩ := hbooks
  refine ⟨⟨?_, ?_, ?_, ?_, ?_, ?_, ?_, ?_, ?_⟩, hemitted, ?_⟩
  · exact hvalues ▸ h.values
  · exact hspreads ▸ h.spreads
  · exact hpatterns ▸ h.patterns
  · exact hvalues ▸ h.nodup
  · exact hvalues ▸ h.values_later
  · exact hspreads ▸ h.spreads_later
  · exact hpatterns ▸ h.patterns_later
  · exact hnames ▸ h.names
  · rw [hvalues, hout]
    exact h.near
  · simp only [State.holds, State.waiting, hout, hvalues, hspreads, hpatterns]

/-- A step that changes neither the statements nor what waits. -/
theorem takes_modify {change : State → State} (hchange : ∀ st, Books (change st) = Books st) :
    L.Takes (modify change : Step Unit) Nothing Anything := by
  intro later st u st' hst hrun
  cases hrun
  obtain ⟨hst', hemitted, hcount⟩ := hst.of_books (hchange st)
  exact ⟨hst', hemitted, .of_eq hcount, trivial⟩

theorem balanced_push (s : Stmt) :
    L.Balanced later (push s) later (weigh L.weight s.marks) Nothing Anything := by
  intro st u st' hst hrun
  cases hrun
  exact ⟨hst.push s, rfl, .of_eq (holds_push L.weight st s), trivial⟩

theorem get?_temporary (names : Names) (env : Environment) (d : DeclId) :
    names.temporary.2.get? env d = names.get? env d := by
  have hgo (fuel n : Nat) : (Names.temporary.go names fuel n).2.assigned = names.assigned := by
    induction fuel generalizing n with
    | zero => rfl
    | succ fuel ih =>
      rw [Names.temporary.go]
      split
      · exact ih _
      · rfl
  rw [Names.get?, Names.temporary, hgo, Names.get?]

theorem freshName_run (st : State) :
    freshName ctx st = .ok (st.names.temporary.1, st.fresh) := rfl

theorem push_run (s : Stmt) (st : State) : push s ctx st = .ok ((), st.push s) := rfl

theorem wait_run (c : CellId) (p : Pending) (st : State) :
    wait c p ctx st = .ok ((), st.wait c p) := rfl

theorem Sound.fresh (h : L.Sound later st) : L.Sound later st.fresh :=
  { h with names := fun d => (get?_temporary st.names ctx.env d).trans (h.names d) }

theorem nameOf_run {d : DeclId} {name : String} (hrun : nameOf d ctx st = .ok (name, st')) :
    st' = st ∧ st.names.get? ctx.env d = some name := by
  obtain ⟨st₁, st₂, hget, hrun⟩ := step_bind_eq_ok hrun
  cases hget
  obtain ⟨ctx', st₂, hread, hrun⟩ := step_bind_eq_ok hrun
  cases hread
  cases hfound : st.names.get? ctx.env d with
  | some found =>
    rw [hfound] at hrun
    cases hrun
    exact ⟨rfl, rfl⟩
  | none =>
    rw [hfound] at hrun
    cases hrun

theorem takes_nameOf (d : DeclId) : L.Takes (nameOf d) Nothing fun name => L.written d = some name :=
  .of_reading fun _ _ _ hst hrun =>
    let ⟨hsame, hname⟩ := nameOf_run hrun
    ⟨hsame, (hst d).symm.trans hname⟩

theorem takes_get : L.Takes (get : Step State) Nothing Anything :=
  .of_reading fun _ _ _ _ hrun => by
    cases hrun
    exact ⟨rfl, trivial⟩

theorem takes_read : L.Takes (read : Step Context) Nothing (· = ctx) :=
  .of_reading fun _ _ _ _ hrun => by
    cases hrun
    exact ⟨rfl, rfl⟩

theorem takes_readCount (place : Place) : L.Takes (readCount place) Nothing Anything :=
  fun _ => takes_read.seq fun _ _ => Balanced.pure rfl trivial

/-! ## Settling -/

theorem honest_namedValue (k : Mark → Nat) (name : String) : (namedValue name).Honest k :=
  ⟨fun _ => rfl, fun _ => rfl, fun _ => rfl, nofun⟩

/-- What waits weighs nothing. -/
def Settled (k : Mark → Nat) (st : State) : Prop := ∀ e ∈ st.values, weigh k e.2.expr.marks = 0

/-- The declaration of a constant for a value. -/
abbrev constStmt (name : String) (p : Pending) : Stmt :=
  declareStmt .constKind (namePattern name) (some p.expr)

theorem marks_constStmt (name : String) (p : Pending) :
    (constStmt name p).marks = p.expr.marks ++
      [.declare .constKind (namePattern name) (some p.expr)] := by
  simp [constStmt, declareStmt, namePattern, Stmt.marks, Declarator.marksAll, Pattern.marks,
    Expr.marksOpt]

/-- The constant of an access is a value that follows. -/
theorem follows_const (haccess : p.expr.access? = some L.access) (c : CellId) (name : String) :
    L.Follows (st.push (constStmt name p)).out c (namedValue name) := by
  refine .inr ⟨name, rfl, (L.constant c p.expr name haccess).imp_right fun hcap => ?_⟩
  rw [weigh_push, marks_constStmt, weigh_append, weigh_cons]
  omega

/-- A constant for a value weighs no less than the value. -/
theorem meets_const (name : String) (p : Pending) :
    L.Meets (weigh L.weight p.expr.marks) (weigh L.weight (constStmt name p).marks) := by
  rw [marks_constStmt, weigh_append, weigh_cons, weigh_nil]
  exact ⟨by omega, fun hexact => by rw [L.exact_declare hexact, Nat.add_zero]⟩

/-- Values that wait become statements in their order. -/
theorem balanced_settleAll {l : List (CellId × Pending)} (hl : (l.map (·.1)).Nodup)
    (honce : ∀ e ∈ l, e.2.isRepeatable = false) (hst : L.Sound later st) (hmem : ∀ e ∈ l, e ∈ st.values)
    {u : Unit} (hrun : settleAll l ctx st = .ok (u, st')) :
    L.Sound later st' ∧ st'.emitted = st.emitted ∧ L.Meets (st.holds L.weight) (st'.holds L.weight) ∧
      ∀ e ∈ st'.values, (e ∈ st.values ∧ e ∉ l) ∨ ∃ name, e.2 = namedValue name := by
  induction l generalizing st with
  | nil =>
    cases hrun
    exact ⟨hst, rfl, .of_eq rfl, fun e he => .inl ⟨he, List.not_mem_nil⟩⟩
  | cons e l ih =>
    obtain ⟨c, p⟩ := e
    obtain ⟨hc, hl⟩ := List.nodup_cons.1 hl
    obtain ⟨hp, hmem⟩ := List.forall_mem_cons.1 hmem
    obtain ⟨hrepeat, honce⟩ := List.forall_mem_cons.1 honce
    obtain ⟨name, st₁, hfresh, hrun⟩ := step_bind_eq_ok hrun
    obtain ⟨rfl, rfl⟩ := Prod.mk.inj (Except.ok.inj ((freshName_run st).symm.trans hfresh))
    obtain ⟨u₂, st₂, hpush, hrun⟩ := step_bind_eq_ok hrun
    obtain ⟨rfl, rfl⟩ := Prod.mk.inj (Except.ok.inj ((push_run _ st.fresh).symm.trans hpush))
    obtain ⟨u₃, st₃, hwait, hrun⟩ := step_bind_eq_ok hrun
    obtain ⟨rfl, rfl⟩ := Prod.mk.inj (Except.ok.inj ((wait_run _ _ _).symm.trans hwait))
    have hconst := L.meets_const st.names.temporary.1 p
    have hpushed := hst.fresh.push (constStmt st.names.temporary.1 p)
    have hlater : c ∉ later := hst.values_later _ hp
    -- a constant is never settled again, so what is settled here is the access itself
    have hfollows (hnear : c ∈ L.near) : L.Follows (st.fresh.push
        (constStmt st.names.temporary.1 p)).out c (namedValue st.names.temporary.1) := by
      rcases hst.near _ hp hnear with haccess | ⟨_, rfl, -⟩
      · exact follows_const haccess c _
      · cases hrepeat
    have hwaits := hpushed.wait Set.Subset.rfl hlater
      (honest_namedValue L.weight st.names.temporary.1) hfollows
    have hrest (e : CellId × Pending) (he : e ∈ l) : e.1 ≠ c := fun heq =>
      hc (List.mem_map.2 ⟨e, he, heq⟩)
    obtain ⟨hst', hemitted, hcount, hvalues⟩ := ih hl honce hwaits (fun e he =>
      List.mem_cons_of_mem _ (List.mem_filter.2 ⟨hmem e he, bne_iff_ne.2 (hrest e he)⟩)) hrun
    refine ⟨hst', hemitted, .trans ?_ hcount, fun e he => ?_⟩
    · have hdrop := hst.holds_drop hp
      have hdropped : ((st.fresh.push (constStmt st.names.temporary.1 p)).drop c).holds L.weight =
          (st.drop c).holds L.weight + weigh L.weight (constStmt st.names.temporary.1 p).marks :=
        holds_push L.weight (st.drop c) _
      have hnamed : weigh L.weight (namedValue st.names.temporary.1).expr.marks = 0 := rfl
      rw [holds_wait, hdropped, hnamed, ← hdrop, Nat.add_zero, Nat.add_comm _ (weigh _ p.expr.marks),
        Nat.add_comm ((st.drop c).holds L.weight)]
      exact hconst.add _
    · rcases hvalues e he with ⟨he, hnot⟩ | hnamed
      · rcases List.mem_cons.1 he with rfl | he
        · exact .inr ⟨_, rfl⟩
        · obtain ⟨he, hne⟩ := List.mem_filter.1 he
          refine .inl ⟨he, fun hmem => ?_⟩
          rcases List.mem_cons.1 hmem with rfl | hmem
          · simp at hne
          · exact hnot hmem
      · exact .inr hnamed

theorem balanced_settle {which : Pending → Bool} {u : Unit} (hst : L.Sound later st)
    (hrun : settle which ctx st = .ok (u, st')) :
    L.Sound later st' ∧ st'.emitted = st.emitted ∧ L.Meets (st.holds L.weight) (st'.holds L.weight) ∧
      ∀ e ∈ st'.values, e ∈ st.values ∧ (which e.2 = true → weigh L.weight e.2.expr.marks = 0) ∨
        ∃ name, e.2 = namedValue name := by
  obtain ⟨st₁, st₂, hget, hrun⟩ := step_bind_eq_ok hrun
  cases hget
  obtain ⟨hst', hemitted, hcount, hvalues⟩ := balanced_settleAll
    (by
      rw [List.map_reverse, List.nodup_reverse]
      exact (List.filter_sublist.map _).nodup hst.nodup)
    (fun e he => by
      have hpicked := (List.mem_filter.1 (List.mem_reverse.1 he)).2
      cases hrepeat : e.2.isRepeatable with
      | true => simp [hrepeat] at hpicked
      | false => rfl)
    hst (fun e he => List.mem_of_mem_filter (List.mem_reverse.1 he)) hrun
  refine ⟨hst', hemitted, hcount, fun e he => (hvalues e he).imp_left fun ⟨he, hnot⟩ => ⟨he, fun hwhich => ?_⟩⟩
  rw [List.mem_reverse, List.mem_filter] at hnot
  have hhonest := hst.values e he
  cases hrepeat : e.2.isRepeatable with
  | true => exact hhonest.repeatable hrepeat
  | false =>
    cases hself : e.2.isSelfCopy with
    | true => exact hhonest.selfCopy hself
    | false => exact absurd ⟨he, by simp [hrepeat, hself, hwhich]⟩ hnot

theorem takes_settle (which : Pending → Bool) : L.Takes (settle which) Nothing Anything :=
  fun _ _ _ _ hst hrun =>
    let ⟨hst', hemitted, hcount, _⟩ := balanced_settle hst hrun
    ⟨hst', hemitted, hcount, trivial⟩

/-- Behind a place where all waiting values are settled, no waiting value weighs anything. -/
theorem settled_settleEverything {u : Unit} (hst : L.Sound later st)
    (hrun : settleEverything ctx st = .ok (u, st')) : Settled L.weight st' := by
  intro e he
  rcases (balanced_settle hst hrun).2.2.2 e he with ⟨_, hzero⟩ | ⟨name, heq⟩
  · exact hzero rfl
  · rw [heq]
    rfl

theorem balanced_statement (s : Stmt) (writes : Writes) :
    L.Balanced later (statement s writes) later (weigh L.weight s.marks) Nothing Anything :=
  (takes_settle writes.disturbs).seq fun _ _ => balanced_push s

end Ledger

end Whittle.Emit
