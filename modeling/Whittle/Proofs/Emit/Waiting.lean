import Mathlib.Tactic.Common
import Whittle.Proofs.Emit.Bounds
import Whittle.Proofs.Emit.Values

/-!
# How long a value waits

A value with effects waits until its reader takes it or a statement is written down, whichever is
first.  Every statement is written down behind a constant for the value, and from then on the name of
the constant waits in its place.

Main statement: `MethodCall.keepsReceiver`.
-/

namespace Whittle.Emit

open Ir Syntax Ledger

/-- A value is the name of a constant for the given one, which was written down behind the given
statements. -/
def State.Names (st : State) (p : Pending) (out : List Stmt) (q : Pending) : Prop :=
  ∃ name, q = namedValue name ∧ constStmt name p ∈ st.out ∧ out.length < st.out.length

/-- What waits for a cell for which a value has waited since the given statements: the value itself,
and nothing has been written down, or the name of a constant for it. -/
structure State.Keeps (st : State) (c : CellId) (p : Pending) (out : List Stmt) : Prop where
  grows : out.length ≤ st.out.length
  value : ∀ q, (c, q) ∈ st.values → q = p ∧ st.out = out ∨ st.Names p out q

section Keeping

variable {st st' : State} {c : CellId} {p : Pending} {out : List Stmt}

theorem State.Keeps.of_subset (h : st.Keeps c p out) (hout : st'.out = st.out)
    (hvalues : st'.values ⊆ st.values) : st'.Keeps c p out := by
  refine ⟨hout ▸ h.grows, fun q hq => ?_⟩
  rw [State.Names, hout]
  exact h.value q (hvalues hq)

/-- A value that waits for another cell. -/
theorem State.Keeps.wait (h : st.Keeps c p out) {c' : CellId} (hc : c' ≠ c) (q : Pending) :
    (st.wait c' q).Keeps c p out := by
  refine ⟨h.grows, fun q' hq' => ?_⟩
  rcases List.mem_cons.1 hq' with heq | hq'
  · exact absurd (Prod.mk.inj heq).1.symm hc
  · exact h.value q' (List.mem_of_mem_filter hq')

end Keeping

/-! ## Writing -/

section Writing

variable {ctx : Context} {st st' : State} {c : CellId} {p : Pending} {out : List Stmt}

theorem State.Names.push {q : Pending} (h : st.Names p out q) (s : Stmt) :
    (st.push s).Names p out q := by
  obtain ⟨name, hname, hmem, hlt⟩ := h
  exact ⟨name, hname, List.mem_cons_of_mem _ hmem, Nat.lt_succ_of_lt hlt⟩

/-- Of the values that wait for a cell, those that are not named yet are settled one by one. -/
theorem names_settleAll {l : List (CellId × Pending)} {u : Unit} (hl : ∀ q, (c, q) ∈ l → q = p)
    (hgrows : out.length ≤ st.out.length)
    (hst : ∀ q, (c, q) ∈ st.values → (c, q) ∈ l ∨ st.Names p out q)
    (hrun : settleAll l ctx st = .ok (u, st')) :
    out.length ≤ st'.out.length ∧ ∀ q, (c, q) ∈ st'.values → st'.Names p out q := by
  induction l generalizing st with
  | nil =>
    cases hrun
    exact ⟨hgrows, fun q hq => (hst q hq).resolve_left List.not_mem_nil⟩
  | cons e l ih =>
    obtain ⟨c', q'⟩ := e
    obtain ⟨name, st₁, hfresh, hrun⟩ := step_bind_eq_ok hrun
    obtain ⟨rfl, rfl⟩ := Prod.mk.inj (Except.ok.inj ((freshName_run st).symm.trans hfresh))
    obtain ⟨u₂, st₂, hpush, hrun⟩ := step_bind_eq_ok hrun
    obtain ⟨rfl, rfl⟩ := Prod.mk.inj (Except.ok.inj ((push_run _ st.fresh).symm.trans hpush))
    obtain ⟨u₃, st₃, hwait, hrun⟩ := step_bind_eq_ok hrun
    obtain ⟨rfl, rfl⟩ := Prod.mk.inj (Except.ok.inj ((wait_run _ _ _).symm.trans hwait))
    refine ih (fun q hq => hl q (List.mem_cons_of_mem _ hq)) ?_ (fun q hq => ?_) hrun
    · exact Nat.le_succ_of_le hgrows
    rcases List.mem_cons.1 hq with heq | hq
    · obtain ⟨rfl, rfl⟩ := Prod.mk.inj heq
      obtain rfl := hl q' List.mem_cons_self
      exact .inr ⟨_, rfl, List.mem_cons_self, Nat.lt_succ_of_le hgrows⟩
    · obtain ⟨hq, hne⟩ := List.mem_filter.1 hq
      refine (hst q hq).imp (fun hmem => ?_) fun hnames => hnames.push (constStmt _ q')
      exact (List.mem_cons.1 hmem).resolve_left fun heq => bne_iff_ne.1 hne (Prod.mk.inj heq).1

/-- A value that any statement disturbs. -/
structure Pending.IsEager (p : Pending) : Prop where
  hasEffects : p.hasEffects = true
  isRepeatable : p.isRepeatable = false
  isSelfCopy : p.isSelfCopy = false

/-- Behind a statement, the value is named. -/
theorem names_statement {s : Stmt} {writes : Writes} {u : Unit} (hp : p.IsEager)
    (hst : st.Keeps c p out) (hrun : statement s writes ctx st = .ok (u, st')) :
    out.length < st'.out.length ∧ ∀ q, (c, q) ∈ st'.values → st'.Names p out q := by
  obtain ⟨u₁, st₁, hsettle, hpush⟩ := step_bind_eq_ok hrun
  obtain ⟨st₀, st₂, hget, hsettle⟩ := step_bind_eq_ok hsettle
  cases hget
  obtain ⟨rfl, rfl⟩ := Prod.mk.inj (Except.ok.inj ((push_run s st₁).symm.trans hpush))
  have hpicked (q : Pending) (hq : (c, q) ∈ (st.values.filter fun v =>
      !v.2.isRepeatable && !v.2.isSelfCopy && writes.disturbs v.2).reverse) : q = p := by
    obtain ⟨hq, hpick⟩ := List.mem_filter.1 (List.mem_reverse.1 hq)
    rcases hst.value q hq with ⟨heq, -⟩ | ⟨name, rfl, -⟩
    · exact heq
    · cases hpick
  obtain ⟨hgrows, hnames⟩ := names_settleAll hpicked hst.grows (fun q hq => by
    refine (hst.value q hq).imp_left fun ⟨heq, _⟩ => List.mem_reverse.2 (List.mem_filter.2 ⟨hq, ?_⟩)
    simp [heq, hp.isRepeatable, hp.isSelfCopy, Writes.disturbs, hp.hasEffects]) hsettle
  exact ⟨Nat.lt_succ_of_le hgrows, fun q hq => (hnames q hq).push s⟩

/-- A value that any statement disturbs, or a constant for it, waits as long as no other value waits for
its cell. -/
def keeping (ctx : Context) (c : CellId) (hp : p.IsEager) (out : List Stmt) : Bound ctx where
  related st st' := st.Keeps c p out → st'.Keeps c p out
  cells := (· ≠ c)
  statements _ := True
  refl _ hst := hst
  trans h h' hst := h' (h hst)
  frame hout hvalues _ hst := hst.of_subset hout hvalues
  wait hc _ q hst := hst.wait hc q
  statement _ _ _ _ _ hrun hst := by
    obtain ⟨hgrows, hnames⟩ := names_statement hp hst hrun
    exact ⟨hgrows.le, fun q hq => .inr (hnames q hq)⟩
  plain _ := trivial

end Writing

/-! ## Calls of accesses -/

/-- A call in a list of instructions, and the access in front of it that its callee comes from. -/
structure MethodCall (is : List Instr) where
  before : List Instr
  load : Instr
  between : List Instr
  call : Instr
  after : List Instr
  callee : Place
  arguments : List Place
  split : is = before ++ load :: (between ++ call :: after)
  access : load.op.access?.isSome = true
  op : call.op = .call callee arguments
  cell : callee.cell.id = load.place.cell.id

/-- The states through which a call of an access is emitted. -/
structure MethodCall.Emission {is : List Instr} (c : MethodCall is) (ctx : Context) where
  start : State
  loaded : State
  calling : State
  called : State
  load : emitInstr c.load ctx start = .ok ((), loaded)
  between : emitInstrs c.between ctx loaded = .ok ((), calling)
  call : emitInstr c.call ctx calling = .ok ((), called)

namespace MethodCall.Emission

variable {is : List Instr} {c : MethodCall is} {ctx : Context}

/-- The expression of the access. -/
def Loads (E : c.Emission ctx) (e : Expr) : Prop :=
  match c.load.op with
  | .propertyLoad base property =>
    ∃ b st, take base ctx E.start = .ok (b, st) ∧ e = .member Node.synthetic b.expr property
  | .computedLoad base property =>
    ∃ b st k st', take base ctx E.start = .ok (b, st) ∧ take property ctx st = .ok (k, st') ∧
      e = .index Node.synthetic b.expr k.expr
  | _ => False

/-- The callee of the expression of the call. -/
def Calls (E : c.Emission ctx) (callee : Expr) : Prop :=
  ∃ elements operands st,
    define c.call.place (effectful (.call Node.synthetic callee elements) operands) ctx st =
      .ok ((), E.called)

/-- The callee is the expression of the access.  Only where that is read several times or something
is written down between the access and the call, the callee is the name of a constant for it. -/
def KeepsReceiver (E : c.Emission ctx) : Prop :=
  ∃ e callee, E.Loads e ∧ E.Calls callee ∧
    (callee = e ∨
      (ctx.counts.getD c.load.place.cell.id 0 ≠ 1 ∨ E.loaded.out.length < E.calling.out.length) ∧
        ∃ name, callee = nameExpr name ∧
          declareStmt .constKind (namePattern name) (some e) ∈ E.calling.out)

theorem exists_define (E : c.Emission ctx) :
    ∃ p st, E.Loads p.expr ∧ p.IsEager ∧ define c.load.place p ctx st = .ok ((), E.loaded) := by
  obtain ⟨start, loaded, calling, called, hrun, hbetween, hcall⟩ := E
  obtain ⟨before, ⟨id, place, origin, op⟩, between, call, after, callee, arguments, hsplit, haccess⟩ := c
  cases op with
  | propertyLoad base property =>
    obtain ⟨b, st, hbase, hdefine⟩ := step_bind_eq_ok hrun
    exact ⟨_, st, ⟨b, st, hbase, rfl⟩, ⟨rfl, rfl, rfl⟩, hdefine⟩
  | computedLoad base property =>
    obtain ⟨b, st, hbase, hrun⟩ := step_bind_eq_ok hrun
    obtain ⟨k, st', hkey, hdefine⟩ := step_bind_eq_ok hrun
    exact ⟨_, st', ⟨b, st, k, st', hbase, hkey, rfl⟩, ⟨rfl, rfl, rfl⟩, hdefine⟩
  | _ => cases haccess

end MethodCall.Emission

section Define

variable {ctx : Context} {st st' : State} {p : Pending}

theorem State.keeps_wait (st : State) (c : CellId) (p : Pending) : (st.wait c p).Keeps c p st.out := by
  refine ⟨Nat.le_refl _, fun q hq => .inl ⟨?_, rfl⟩⟩
  rcases List.mem_cons.1 hq with heq | hq
  · exact (Prod.mk.inj heq).2
  · exact absurd rfl (bne_iff_ne.1 (List.mem_filter.1 hq).2)

/-- A value that is read waits for its cell, or a constant for it does. -/
theorem keeps_define {place : Place} (hp : p.IsEager) (hread : ctx.counts.getD place.cell.id 0 ≠ 0)
    (hrun : define place p ctx st = .ok ((), st')) :
    ∃ out, st'.Keeps place.cell.id p out ∧ (ctx.counts.getD place.cell.id 0 = 1 → out = st'.out) := by
  obtain ⟨count, st₁, hcount, hrun⟩ := step_bind_eq_ok hrun
  obtain ⟨rfl, rfl⟩ : ctx.counts.getD place.cell.id 0 = count ∧ st₁ = st := by
    cases hcount
    exact ⟨rfl, rfl⟩
  generalize ctx.counts.getD place.cell.id 0 = count at *
  rcases count with _ | _ | count
  · contradiction
  · cases hrun
    exact ⟨_, st₁.keeps_wait _ p, fun _ => rfl⟩
  · simp only [hp.isRepeatable, hp.isSelfCopy] at hrun
    obtain ⟨q, st₂, hmaterialize, hwait⟩ := step_bind_eq_ok hrun
    cases hwait
    obtain ⟨name, st₃, hfresh, hmaterialize⟩ := step_bind_eq_ok hmaterialize
    obtain ⟨u, st₄, hstatement, hpure⟩ := step_bind_eq_ok hmaterialize
    cases hpure
    obtain ⟨u', st₅, hsettle, hpush⟩ := step_bind_eq_ok hstatement
    obtain ⟨rfl, rfl⟩ := Prod.mk.inj (Except.ok.inj ((push_run _ st₅).symm.trans hpush))
    refine ⟨[], ⟨Nat.zero_le _, fun q hq => .inr ?_⟩, by omega⟩
    rcases List.mem_cons.1 hq with heq | hq
    · exact ⟨name, (Prod.mk.inj heq).2, List.mem_cons_self, Nat.succ_pos _⟩
    · exact absurd rfl (bne_iff_ne.1 (List.mem_filter.1 hq).2)

/-- The value of a temporary is one that waits for it. -/
theorem mem_values_of_take {place : Place} (htemporary : ctx.env.isTemporary place.declaration = true)
    (hrun : take place ctx st = .ok (p, st')) : (place.cell.id, p) ∈ st.values := by
  obtain ⟨st₁, st₂, hget, hrun⟩ := step_bind_eq_ok hrun
  cases hget
  cases hfound : st.values.lookup place.cell.id with
  | none =>
    rw [hfound] at hrun
    obtain ⟨ctx', st₂, hread, hrun⟩ := step_bind_eq_ok hrun
    cases hread
    simp only [htemporary] at hrun
    cases hrun
  | some value =>
    rw [hfound] at hrun
    obtain ⟨before, behind, hvalues, _⟩ := List.lookup_eq_some_iff.1 hfound
    have hmem : (place.cell.id, value) ∈ st.values := by simp [hvalues]
    cases hrepeat : value.isRepeatable
    all_goals
      simp only [hrepeat] at hrun
      cases hrun
      exact hmem

end Define

/-- Wherever the call of an access is emitted, from whatever state, it keeps its receiver as long as
its callee need not be written down. -/
theorem MethodCall.keepsReceiver {is : List Instr} (c : MethodCall is) {ctx : Context}
    (htemporary : ctx.env.isTemporary c.callee.declaration = true)
    (hread : ctx.counts.getD c.load.place.cell.id 0 ≠ 0)
    (hbetween : ∀ i ∈ c.between, i.place.cell.id ≠ c.load.place.cell.id) (E : c.Emission ctx) :
    E.KeepsReceiver := by
  obtain ⟨p, st, hloads, hp, hdefine⟩ := E.exists_define
  obtain ⟨out, hkeeps, hout⟩ := keeps_define hp hread hdefine
  have hadmits : ∀ i ∈ c.between, (keeping ctx c.load.place.cell.id hp out).Admits i :=
    fun i hi => ⟨hbetween i hi, fun _ _ _ _ => trivial⟩
  obtain ⟨-, hvalue⟩ := Bound.keeps_emitInstrs hadmits _ _ _ E.between hkeeps
  have hcall := E.call
  rw [emitInstr, c.op] at hcall
  obtain ⟨v, st₁, htake, hcall⟩ := step_bind_eq_ok hcall
  obtain ⟨r, st₂, helements, hcall⟩ := step_bind_eq_ok hcall
  refine ⟨p.expr, v.expr, hloads, ⟨r.1, v :: r.2, st₂, hcall⟩, ?_⟩
  have hmem := mem_values_of_take htemporary htake
  rw [c.cell] at hmem
  rcases hvalue v hmem with ⟨rfl, -⟩ | ⟨name, rfl, hconst, hlt⟩
  · exact .inl rfl
  · refine .inr ⟨?_, name, rfl, hconst⟩
    rw [or_iff_not_imp_left, not_not]
    intro hone
    rwa [hout hone] at hlt

end Whittle.Emit
