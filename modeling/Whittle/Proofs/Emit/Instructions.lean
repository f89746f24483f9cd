import Mathlib.Tactic.Common
import Whittle.Proofs.Emit.Values

/-!
# Marks of instructions

Emitting an instruction adds the mark of the effect that it has, and no other: the marks of its operands
are taken out of what waits and put back as a part of the new value.
-/

namespace Whittle.Emit.Ledger

open Ir Syntax

variable {ctx : Context} {L : Ledger ctx} {later : Set CellId}

/-! ## Values with operands -/

theorem Covers.append {xs ys : List Pending} {n m : Nat} (h : L.Covers xs n) (h' : L.Covers ys m) :
    L.Covers (xs ++ ys) (n + m) :=
  ⟨List.forall_mem_append.2 ⟨h.honest, h'.honest⟩, by
    rw [List.map_append, List.sum_append_nat, h.sum, h'.sum]⟩

/-- Operands that do nothing have no effects. -/
theorem Covers.eq_zero {operands : List Pending} {n : Nat} (h : L.Covers operands n)
    (hsilent : operands.any (·.hasEffects) = false) : n = 0 := by
  rw [← h.sum]
  refine List.sum_eq_zero_iff_forall_eq_nat.2 fun x hx => ?_
  obtain ⟨o, ho, rfl⟩ := List.mem_map.1 hx
  exact (h.honest o ho).silent (Bool.eq_false_iff.2 (List.any_eq_false.1 hsilent o ho))

theorem honest_effectful (k : Mark → Nat) (e : Expr) (operands : List Pending) :
    (effectful e operands).Honest k :=
  .of_hasEffects rfl rfl rfl rfl

/-- A value without effects of its own is as honest as its operands. -/
theorem honest_pureValue {e : Expr} {operands : List Pending}
    (h : L.Covers operands (weigh L.weight e.marks)) : (pureValue e operands).Honest L.weight :=
  .of_silent rfl rfl rfl h.eq_zero

/-! ## Operands -/

theorem takes_takeKey (key : Key) :
    L.Takes (takeKey key) (fun r => weigh L.weight r.1.marks) fun r =>
      L.Covers r.2 (weigh L.weight r.1.marks) := by
  intro later
  cases key with
  | computed p =>
    refine (takes_take p).bind fun value hvalue => Balanced.pure rfl ?_
    exact Covers.nil.cons hvalue
  | name | string | number => exact Balanced.pure rfl .nil

/-- A function inside is emitted on its own; only temporaries get their names from it. -/
theorem takes_nestedFunction (id : FuncId) : L.Takes (nestedFunction id) Nothing Anything := by
  intro later st f st' hst hrun
  obtain ⟨ctx', st₁, hread, hrun⟩ := step_bind_eq_ok hrun
  cases hread
  obtain ⟨st₁, st₂, hget, hrun⟩ := step_bind_eq_ok hrun
  cases hget
  cases hnested : ctx.nested id st.names with
  | error e =>
    rw [hnested] at hrun
    cases hrun
  | ok r =>
    rw [hnested] at hrun
    cases hrun
    exact ⟨{ hst with names := fun d => (L.nested id _ _ _ hnested d).trans (hst.names d) }, rfl,
      .of_eq rfl, trivial⟩

theorem takes_takeProperties (ps : List Ir.Property) :
    L.Takes (takeProperties ps) (fun r => weigh L.weight (Property.marksAll r.1)) fun r =>
      L.Covers r.2 (weigh L.weight (Property.marksAll r.1)) := by
  induction ps with
  | nil => exact fun _ => Balanced.pure rfl .nil
  | cons property ps ih =>
    intro later
    cases property with
    | keyValue key value shorthand =>
      refine (takes_takeKey key).bind fun key hkey => (takes_take value).bind fun v hv =>
        ih.bind fun r hr => Balanced.pure ?_ ?_
      · simp only [Property.marksAll, weigh_append, valued]
        omega
      · simp only [Property.marksAll, weigh_append, Nat.add_assoc]
        exact hkey.append (hr.cons hv)
    | method key id =>
      refine (takes_takeKey key).bind fun key hkey => (takes_nestedFunction id).seq fun f _ =>
        ih.bind fun r hr => Balanced.pure ?_ ?_
      · simp only [Property.marksAll, weigh_append]
        omega
      · simp only [Property.marksAll, weigh_append]
        exact hkey.append hr
    | spread value =>
      refine (takes_take value).bind fun v hv => ih.bind fun r hr => Balanced.pure ?_ ?_
      · simp only [Property.marksAll, weigh_append, valued]
        omega
      · simp only [Property.marksAll, weigh_append]
        exact hr.cons hv

theorem takes_takeHoles (ps : List (Option Place)) :
    L.Takes (takeHoles ps) (fun r => weigh L.weight (Pattern.marksHoles r.1)) Anything := by
  induction ps with
  | nil => exact fun _ => Balanced.pure rfl trivial
  | cons hole ps ih =>
    intro later
    cases hole with
    | none => exact ih.bind fun r _ => Balanced.pure rfl trivial
    | some p =>
      refine (takes_takePattern p).bind fun pattern _ => ih.bind fun r _ => Balanced.pure ?_ trivial
      simp only [Pattern.marksHoles, weigh_append, targeted]
      omega

theorem takes_takePatternProperties (ps : List Ir.PatternProperty) :
    L.Takes (takePatternProperties ps) (fun r => weigh L.weight (PatternProperty.marksAll r.1))
      Anything := by
  induction ps with
  | nil => exact fun _ => Balanced.pure rfl trivial
  | cons property ps ih =>
    intro later
    cases property with
    | keyValue key value =>
      refine (takes_takeKey key).bind fun key _ => (takes_takePattern value).bind fun pattern _ =>
        ih.bind fun r _ => Balanced.pure ?_ trivial
      simp only [PatternProperty.marksAll, weigh_append, targeted]
      omega
    | rest p =>
      refine (takes_takePattern p).bind fun pattern _ => ih.bind fun r _ => Balanced.pure ?_ trivial
      simp only [PatternProperty.marksAll, weigh_append, targeted]
      omega

theorem takes_takeImports (ps : List Place) : L.Takes (takeImports ps) Nothing Anything := by
  induction ps with
  | nil => exact fun _ => Balanced.pure rfl trivial
  | cons p ps ih =>
    refine fun _ => takes_get.seq fun st _ => ?_
    split
    · exact Balanced.throw _
    · exact Takes.seq (takes_modify fun _ => rfl) fun _ _ => ih.seq fun _ _ => Balanced.pure rfl trivial

theorem takes_takeExports (ps : List Place) : L.Takes (takeExports ps) Nothing Anything := by
  induction ps with
  | nil => exact fun _ => Balanced.pure rfl trivial
  | cons p ps ih =>
    refine fun _ => takes_get.seq fun st _ => ?_
    split
    · exact Balanced.throw _
    · exact Takes.seq (takes_modify fun _ => rfl) fun _ _ => ih.seq fun _ _ => Balanced.pure rfl trivial

/-! ## What waits beside values -/

theorem balanced_waitPattern {place : Place} {pattern : Pattern} (bound : List DeclId)
    (hpattern : weigh L.weight pattern.writes = 0) (hc : place.cell.id ∉ later) :
    L.Balanced (insert place.cell.id later) (waitPattern place pattern bound) later
      (weigh L.weight pattern.marks) Nothing Anything := by
  intro st u st' hst hrun
  cases hrun
  have hnone := hst.patterns_later _ (Set.mem_insert _ later)
  have hst' := hst.anti (Set.subset_insert place.cell.id later)
  refine ⟨{ hst' with patterns := fun c r hr => ?_, patterns_later := fun c hc' => ?_ }, rfl, .of_eq ?_,
    trivial⟩
  · rw [Std.TreeMap.getElem?_insert] at hr
    split at hr
    · cases hr
      exact hpattern
    · exact hst.patterns c r hr
  · have hne : place.cell.id ≠ c := fun heq => hc (heq ▸ hc')
    rw [Std.TreeMap.getElem?_insert, if_neg (fun h => hne (Std.LawfulEqCmp.eq_of_compare h))]
    exact hst'.patterns_later c hc'
  · have hsum := totalOf_insert (fun r => weigh L.weight r.1.marks) (pattern, bound) hnone
    simp only [State.holds, State.waiting, Nothing] at hsum ⊢
    omega

theorem balanced_waitSpread {c : CellId} {p : Pending} (hp : p.Honest L.weight) (hc : c ∉ later) :
    L.Balanced (insert c later)
      (modify fun st => { st with spreads := st.spreads.insert c p } : Step Unit) later (L.valued p)
      Nothing Anything := by
  intro st u st' hst hrun
  cases hrun
  have hnone := hst.spreads_later _ (Set.mem_insert c later)
  have hst' := hst.anti (Set.subset_insert c later)
  refine ⟨{ hst' with spreads := fun c' q hq => ?_, spreads_later := fun c' hc' => ?_ }, rfl, .of_eq ?_,
    trivial⟩
  · rw [Std.TreeMap.getElem?_insert] at hq
    split at hq
    · cases hq
      exact hp
    · exact hst.spreads c' q hq
  · have hne : c ≠ c' := fun heq => hc (heq ▸ hc')
    rw [Std.TreeMap.getElem?_insert, if_neg (fun h => hne (Std.LawfulEqCmp.eq_of_compare h))]
    exact hst'.spreads_later c' hc'
  · have hsum := totalOf_insert (fun p => weigh L.weight p.expr.marks) p hnone
    simp only [State.holds, State.waiting, valued, Nothing] at hsum ⊢
    omega

/-! ## Writes -/

theorem balanced_emitStore {place : Place} (target value : Place) (kind : StoreKind)
    (hc : place.cell.id ∉ later) (hfar : place.cell.id ∉ L.near) :
    L.Balanced (insert place.cell.id later) (emitStore place target value kind) later 0 Nothing
      Anything := by
  refine (takes_take value).bind fun stored hstored => ?_
  refine (takes_nameOf target.declaration).seq fun name hname => ?_
  split
  case isTrue hself =>
    refine (takes_readName _).seq fun p hp => (balanced_define ?_ hc (absurd · hfar)).gain_eq ?_
    · exact ⟨fun _ => hp.1, fun _ => hp.1, fun _ => hp.1, hp.2.store⟩
    · rw [valued, valued, hp.1, marks_of_isName hself, weigh_nil]
  case isFalse =>
    have hassign : weigh L.weight (assignExpr (namePattern name) stored.expr).marks = L.valued stored := by
      rw [weigh_assignExpr, writes_namePattern hname]
      exact Nat.zero_add _
    have hdefine : L.Balanced (insert place.cell.id later)
        (define place
          { expr := assignExpr (namePattern name) stored.expr
            names := KeySet.add stored.names target.declaration
            hasEffects := true
            store := some ⟨target.declaration, kind, stored.expr, stored.hasEffects⟩ })
        later (L.valued stored + 0) Nothing Anything := by
      refine (balanced_define ?_ hc (absurd · hfar)).gain_eq hassign
      refine ⟨by simp, by simp, by simp, fun s hs => ?_⟩
      cases hs
      exact hassign
    refine (takes_readCount place).seq fun count _ => ?_
    split
    · exact (takes_ensureDeclared _).seq fun _ _ => hdefine
    · exact hdefine

theorem takes_markAll (ds : List DeclId) (word : VarKind) :
    L.Takes (forIn ds PUnit.unit fun d _ => do
      markDeclared d word
      pure (ForInStep.yield PUnit.unit)) Nothing Anything := by
  induction ds with
  | nil => exact fun _ => Balanced.pure rfl trivial
  | cons d ds ih =>
    intro later
    rw [List.forIn_cons]
    simp only [bind_assoc, pure_bind]
    exact (takes_markDeclared d word).seq fun _ _ => ih later

theorem balanced_emitDestructure {place : Place} (pattern value : Place) (kind : StoreKind)
    (hc : place.cell.id ∉ later) (hfar : place.cell.id ∉ L.near) :
    L.Balanced (insert place.cell.id later) (emitDestructure place pattern value kind) later 0 Nothing
      Anything := by
  refine (takes_take value).bind fun v hv => ?_
  refine (takes_takePattern pattern).bind fun target htarget => ?_
  refine takes_read.seq fun ctx' _ => takes_get.seq fun st _ => ?_
  have hassign : L.Balanced (insert place.cell.id later)
      (emitDestructure.assign place v target.1 target.2) later
      (L.targeted target + (L.valued v + 0)) Nothing Anything := by
    refine (takes_ensureAll _).seq fun _ _ => (balanced_define ?_ hc (absurd · hfar)).gain_eq ?_
    · exact .of_hasEffects rfl rfl rfl rfl
    · rw [valued, weigh_assignExpr, htarget]
      rfl
  split
  · refine (takes_readCount place).seq fun count _ => ?_
    split
    · refine (takes_markAll _ _).seq fun _ _ => ?_
      exact (balanced_declare _ _ _ _).shrink (Set.subset_insert _ _)
    · exact hassign
  · exact hassign

theorem takes_renamings (bindings : List (String × Place)) :
    L.Takes (renamings bindings) Nothing fun pairs =>
      pairs = bindings.map fun b => (b.1, (L.written b.2.declaration).getD "") := by
  induction bindings with
  | nil => exact fun _ => Balanced.pure rfl rfl
  | cons b bindings ih =>
    refine fun _ => (takes_nameOf b.2.declaration).seq fun name hname => ih.seq fun pairs hpairs => ?_
    refine Balanced.pure rfl ?_
    rw [List.map_cons, hname, hpairs]
    rfl

theorem takes_pure {α : Type} (a : α) : L.Takes (pure a) Nothing (· = a) :=
  fun _ => Balanced.pure rfl rfl

/-- Code that is kept as it was written has its own effects, under the names that it is given. -/
theorem balanced_kept {place : Place} (source : Verbatim) (names : KeySet DeclId) (r : String → String)
    (hc : place.cell.id ∉ later) (hfar : place.cell.id ∉ L.near) :
    L.Balanced (insert place.cell.id later)
      (match source with
      | .statement s => statement (s.rename r) .anything
      | .expression e => define place { expr := e.rename r, names, hasEffects := true })
      later (weigh L.weight (keptMarks r source)) Nothing Anything := by
  cases source with
  | statement s => exact (balanced_statement _ _).shrink (Set.subset_insert _ _)
  | expression e => exact balanced_define (.of_hasEffects rfl rfl rfl rfl) hc (absurd · hfar)

theorem balanced_emitVerbatim {place : Place} (source : Verbatim) (bindings : List (String × Place))
    (hc : place.cell.id ∉ later) (hfar : place.cell.id ∉ L.near) :
    L.Balanced (insert place.cell.id later) (emitVerbatim place source bindings) later
      (weigh L.weight (keptMarks (keptRenaming L.written ctx.env place bindings) source)) Nothing
      Anything := by
  refine takes_read.seq fun ctx' hctx => ?_
  subst hctx
  refine (takes_renamings bindings).seq fun pairs hpairs => ?_
  subst hpairs
  have hdeclare : L.Takes (modify fun st =>
      { st with declared := KeySet.add st.declared place.declaration } : Step Unit) Nothing Anything :=
    takes_modify fun _ => rfl
  dsimp only
  split
  case isTrue htemporary =>
    refine (takes_pure _).seq fun own hown => (balanced_kept source _ _ hc hfar).gain_eq ?_
    simp only [keptRenaming, hown, htemporary, if_true]
  case isFalse htemporary =>
    split
    case h_1 name hname =>
      refine (takes_nameOf _).seq fun written hwritten => (takes_pure _).seq fun own hown =>
        hdeclare.seq fun _ _ => (takes_pure _).seq fun own' hown' =>
          (balanced_kept source _ _ hc hfar).gain_eq ?_
      simp only [keptRenaming, hown', hown, htemporary, hname, hwritten]
      rfl
    case h_2 hname =>
      refine (takes_pure _).seq fun own hown => hdeclare.seq fun _ _ =>
        (takes_pure _).seq fun own' hown' => (balanced_kept source _ _ hc hfar).gain_eq ?_
      simp only [keptRenaming, hown', hown, htemporary, hname]
      rfl

/-! ## Instructions -/

theorem marks_valueExpr (value : Value) : (valueExpr value).marks = [] := by
  cases value with
  | number n =>
    rw [valueExpr]
    split
    · rfl
    · rfl
  | _ => rfl

/-- Declarations are not due. -/
def firm (L : Ledger ctx) : Mark → Nat
  | .declare _ _ _ => 0
  | mark => L.weight mark

theorem weigh_firm_le (marks : List Mark) : weigh L.firm marks ≤ weigh L.weight marks := by
  induction marks with
  | nil => exact Nat.le_refl 0
  | cons mark marks ih =>
    rw [weigh_cons, weigh_cons]
    refine Nat.add_le_add ?_ ih
    cases mark with
    | declare => exact Nat.zero_le _
    | _ => exact Nat.le_refl _

theorem firm_eq (hexact : L.exact) : L.firm = L.weight := by
  funext mark
  cases mark with
  | declare => exact (L.exact_declare hexact ..).symm
  | _ => rfl

/-- How much is due for an instruction. -/
def due (L : Ledger ctx) (i : Instr) : Nat :=
  match i.op with
  | .call callee _ => L.callDue callee.cell.id
  | .construct _ _ => L.weight .construct
  | .propertyLoad _ property => L.weight (.load property)
  | .propertyStore _ property _ => L.weight (.store property)
  | .computedLoad _ _ => L.weight .loadAt
  | .computedStore _ _ _ => L.weight .storeAt
  | .storeGlobal name _ => L.weight (.write name)
  | .unsupported source bindings =>
    weigh L.firm (keptMarks (keptRenaming L.written ctx.env i.place bindings) source)
  | _ => 0

/-- What is known of near cells is true of an instruction: only accesses define them, and a call for
which more is due than each call weighs has its callee from one of them. -/
structure Admits (L : Ledger ctx) (i : Instr) : Prop where
  loads : i.place.cell.id ∈ L.near → i.op.access? = some L.access
  calls : ∀ callee arguments, i.op = .call callee arguments →
    (callee.cell.id ∈ L.near ∧ ctx.env.isTemporary callee.declaration = true) ∨
      ∀ e, L.callDue callee.cell.id ≤ L.weight (.call e)

theorem Admits.far {i : Instr} (h : L.Admits i) (hop : i.op.access? = none) :
    i.place.cell.id ∉ L.near := by
  intro hnear
  have hload := h.loads hnear
  rw [hop] at hload
  cases hload

/-- The value that is taken from a near cell is one whose calls weigh enough. -/
theorem Sound.take_near {st st' : State} (h : L.Sound later st) {callee : Place}
    (hnear : callee.cell.id ∈ L.near) (htemporary : ctx.env.isTemporary callee.declaration = true)
    {c : Pending} (hrun : take callee ctx st = .ok (c, st')) :
    L.callDue callee.cell.id ≤ L.weight (.call c.expr) ∨ L.cap ≤ st.holds L.weight := by
  obtain ⟨st₁, st₂, hget, hrun⟩ := step_bind_eq_ok hrun
  cases hget
  cases hfound : st.values.lookup callee.cell.id with
  | none =>
    rw [hfound] at hrun
    obtain ⟨ctx', st₂, hread, hrun⟩ := step_bind_eq_ok hrun
    cases hread
    simp only [htemporary] at hrun
    cases hrun
  | some value =>
    rw [hfound] at hrun
    obtain ⟨before, behind, hvalues, _⟩ := List.lookup_eq_some_iff.1 hfound
    have hmem : (callee.cell.id, value) ∈ st.values := by simp [hvalues]
    have hsame : c = value := by
      cases hrepeat : value.isRepeatable
      all_goals
        simp only [hrepeat] at hrun
        cases hrun
        rfl
    subst hsame
    rcases h.near _ hmem hnear with haccess | ⟨name, rfl, hname⟩
    · exact .inl (L.direct _ _ haccess)
    · refine hname.imp_right fun hcap => hcap.trans ?_
      rw [State.holds]
      exact Nat.le_add_right ..

/-- A call adds what is due for it: all that the call weighs, or enough of it, or there is enough
already. -/
theorem balanced_call {place callee : Place} (arguments : List Place) (hc : place.cell.id ∉ later)
    (hfar : place.cell.id ∉ L.near)
    (hcallee : (callee.cell.id ∈ L.near ∧ ctx.env.isTemporary callee.declaration = true) ∨
      ∀ e, L.callDue callee.cell.id ≤ L.weight (.call e)) :
    L.Balanced (insert place.cell.id later) (do
      let c ← take callee
      let (elements, operands) ← takeElements arguments
      define place (effectful (.call Node.synthetic c.expr elements) (c :: operands)))
      later (L.callDue callee.cell.id) Nothing Anything := by
  intro st u st' hst hrun
  obtain ⟨c, st₁, htake, hrun⟩ := step_bind_eq_ok hrun
  have hrest : L.Balanced (insert place.cell.id later) (do
      let (elements, operands) ← takeElements arguments
      define place (effectful (.call Node.synthetic c.expr elements) (c :: operands)))
      later (L.valued c + L.weight (.call c.expr)) Nothing Anything := by
    refine (takes_takeElements arguments).bind fun r _ =>
      (balanced_define (honest_effectful _ _ _) hc (absurd · hfar)).gain_eq ?_
    simp only [valued, listed, effectful, Pending.reading, Expr.marks, weigh_append, weigh_cons, weigh_nil]
    omega
  obtain ⟨hst₁, hemitted₁, hcount₁, -⟩ := takes_take callee _ st c st₁ hst htake
  obtain ⟨hst', hemitted', hcount', -⟩ := hrest st₁ u st' hst₁ hrun
  have hcount := hcount₁.bind hcount'
  rw [Nat.zero_add] at hcount
  refine ⟨hst', hemitted'.trans hemitted₁, ?_, trivial⟩
  have henough : L.callDue callee.cell.id ≤ L.weight (.call c.expr) ∨ L.cap ≤ st.holds L.weight :=
    hcallee.elim (fun h => hst.take_near h.1 h.2 htake) fun h => .inl (h _)
  rcases henough with hle | hcap
  · exact hcount.less hle fun hexact => L.exact_call hexact _ _
  · refine ⟨?_, fun hexact => ?_⟩
    · have := hcount.enough
      omega
    · rw [hcount.exactly hexact, L.exact_call hexact callee.cell.id]

/-- Emitting an instruction adds what is due for it. -/
theorem balanced_emitInstr (i : Instr) (hc : i.place.cell.id ∉ later) (hi : L.Admits i) :
    L.Balanced (insert i.place.cell.id later) (emitInstr i) later (L.due i) Nothing Anything := by
  have hstays : later ⊆ insert i.place.cell.id later := Set.subset_insert _ _
  have hstatement (s : Stmt) (writes : Writes) : L.Balanced (insert i.place.cell.id later)
      (statement s writes) later (weigh L.weight s.marks) Nothing Anything :=
    (balanced_statement s writes).shrink hstays
  have hdefine {p : Pending} (hp : p.Honest L.weight) (hop : i.op.access? = none) :
      L.Balanced (insert i.place.cell.id later) (define i.place p) later (L.valued p) Nothing Anything :=
    balanced_define hp hc (absurd · (hi.far hop))
  obtain ⟨id, place, origin, op⟩ := i
  cases op with
  | loadLocal source => exact (takes_take source).bind fun p hp => hdefine hp rfl
  | storeLocal target value kind => exact balanced_emitStore target value kind hc (hi.far rfl)
  | copy target value => exact balanced_emitStore target value .reassign hc (hi.far rfl)
  | loadGlobal name => exact hdefine (.of_silent rfl rfl rfl fun _ => rfl) rfl
  | storeGlobal name value =>
    refine (takes_take value).bind fun v _ => (hdefine (honest_effectful _ _ _) rfl).gain_eq ?_
    simp only [valued, effectful, Pending.reading, weigh_assignExpr, due, namePattern, Pattern.marks,
      Pattern.writes, Ident.synthetic, weigh_cons, weigh_nil]
    omega
  | propertyLoad base property =>
    refine (takes_take base).bind fun b _ =>
      (balanced_define (honest_effectful _ _ _) hc hi.loads).gain_eq ?_
    simp only [valued, effectful, Pending.reading, Expr.marks, due, weigh_append, weigh_cons, weigh_nil]
    omega
  | propertyStore base property value =>
    refine (takes_take base).bind fun b _ => (takes_take value).bind fun v _ =>
      (hdefine (honest_effectful _ _ _) rfl).gain_eq ?_
    simp only [valued, effectful, Pending.reading, weigh_assignExpr, memberPattern, Pattern.marks,
      Pattern.writes, due, weigh_append, weigh_cons, weigh_nil]
    omega
  | computedLoad base property =>
    refine (takes_take base).bind fun b _ => (takes_take property).bind fun p _ =>
      (balanced_define (honest_effectful _ _ _) hc hi.loads).gain_eq ?_
    simp only [valued, effectful, Pending.reading, Expr.marks, due, weigh_append, weigh_cons, weigh_nil]
    omega
  | computedStore base property value =>
    refine (takes_take base).bind fun b _ => (takes_take property).bind fun p _ =>
      (takes_take value).bind fun v _ => (hdefine (honest_effectful _ _ _) rfl).gain_eq ?_
    simp only [valued, effectful, Pending.reading, weigh_assignExpr, memberPattern, Pattern.marks,
      Pattern.writes, due, weigh_append, weigh_cons, weigh_nil]
    omega
  | literal value =>
    have hnone : weigh L.weight (valueExpr value).marks = 0 := by rw [marks_valueExpr, weigh_nil]
    refine (hdefine ?_ rfl).gain_eq hnone
    exact ⟨fun _ => hnone, fun _ => hnone, by simp, by simp⟩
  | binary op left right =>
    refine (takes_take left).bind fun l hl => (takes_take right).bind fun r hr =>
      (hdefine ?_ rfl).gain_eq ?_
    · have hoperands := honest_pureValue (L := L) (e := .binary .synthetic op l.expr r.expr) (by
        rw [Expr.marks, weigh_append]
        exact (Covers.nil.cons hr).cons hl)
      exact .of_silent rfl rfl rfl fun h => hoperands.silent (Bool.or_eq_false_iff.1 h).1
    · simp only [valued, pureValue, Pending.reading, Expr.marks, due, weigh_append]
      omega
  | unary op argument =>
    refine (takes_take argument).bind fun a ha => hdefine ?_ rfl
    have hoperands := honest_pureValue (e := .unary .synthetic op a.expr) (Covers.nil.cons ha)
    exact .of_silent rfl rfl rfl fun h => hoperands.silent (Bool.or_eq_false_iff.1 h).1
  | logical op left right =>
    refine (takes_take left).bind fun l hl => (takes_take right).bind fun r hr =>
      (hdefine (honest_pureValue ?_) rfl).gain_eq ?_
    · rw [Expr.marks, weigh_append]
      exact (Covers.nil.cons hr).cons hl
    · simp only [valued, pureValue, Pending.reading, Expr.marks, due, weigh_append]
      omega
  | conditional test consequent alternate =>
    refine (takes_take test).bind fun t ht => (takes_take consequent).bind fun c hcons =>
      (takes_take alternate).bind fun a ha => (hdefine (honest_pureValue ?_) rfl).gain_eq ?_
    · rw [Expr.marks, weigh_append, weigh_append, Nat.add_assoc]
      exact ((Covers.nil.cons ha).cons hcons).cons ht
    · simp only [valued, pureValue, Pending.reading, Expr.marks, due, weigh_append]
      omega
  | call callee arguments =>
    exact balanced_call arguments hc (hi.far rfl) (hi.calls callee arguments rfl)
  | construct callee arguments =>
    refine (takes_take callee).bind fun c _ => (takes_takeElements arguments).bind fun r _ =>
      (hdefine (honest_effectful _ _ _) rfl).gain_eq ?_
    simp only [valued, listed, effectful, Pending.reading, Expr.marks, due, weigh_append, weigh_cons,
      weigh_nil]
    omega
  | array elements =>
    exact (takes_takeElements elements).bind fun r hr => hdefine (honest_pureValue hr) rfl
  | object properties =>
    exact (takes_takeProperties properties).bind fun r hr => hdefine (honest_pureValue hr) rfl
  | functionExpression id =>
    refine (takes_nestedFunction id).seq fun f _ => hdefine ?_ rfl
    exact .of_silent rfl rfl rfl fun _ => rfl
  | binding _ =>
    exact (takes_nameOf _).seq fun name hname => balanced_waitPattern _ (writes_namePattern hname) hc
  | arrayPattern elements =>
    exact (takes_takeHoles elements).bind fun r _ => balanced_waitPattern _ rfl hc
  | objectPattern properties =>
    exact (takes_takePatternProperties properties).bind fun r _ => balanced_waitPattern _ rfl hc
  | defaultPattern target value =>
    refine (takes_take value).bind fun v _ => (takes_takePattern target).bind fun r _ =>
      (balanced_waitPattern _ rfl hc).gain_eq ?_
    simp only [valued, targeted, Pattern.marks, due, weigh_append]
    omega
  | rest argument =>
    exact (takes_takePattern argument).bind fun r _ => balanced_waitPattern _ rfl hc
  | spread argument => exact (takes_take argument).bind fun v hv => balanced_waitSpread hv hc
  | destructure pattern value kind => exact balanced_emitDestructure pattern value kind hc (hi.far rfl)
  | functionDeclaration id =>
    exact (takes_nestedFunction id).seq fun f _ => (takes_nameOf _).seq fun name _ =>
      Takes.seq (takes_modify fun _ => rfl) fun _ _ => hstatement _ _
  | importDeclaration source specifiers =>
    exact (takes_takeImports specifiers).seq fun _ _ => hstatement _ _
  | importSpecifier kind bound =>
    refine Balanced.shrink (takes_modify ?_ _) hstays
    exact fun _ => rfl
  | exportSpecifier bound exported =>
    refine (takes_nameOf _).seq fun name _ => Balanced.shrink (takes_modify ?_ _) hstays
    exact fun _ => rfl
  | exportNames specifiers =>
    exact (takes_takeExports specifiers).seq fun _ _ => hstatement _ _
  | exportDefault value => exact (takes_take value).bind fun v _ => hstatement _ _
  | expressionStatement expression =>
    exact (takes_take expression).bind fun v hv =>
      (balanced_valueStmt hv).shrink hstays
  | unsupported source bindings =>
    exact (balanced_emitVerbatim source bindings hc (hi.far rfl)).less (weigh_firm_le _) fun hexact => by
      rw [due, firm_eq hexact]

end Whittle.Emit.Ledger
