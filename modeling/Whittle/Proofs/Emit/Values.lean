import Mathlib.Tactic.Common
import Whittle.Proofs.Emit.Ledger

/-!
# Marks of values

Taking a value, an element or a pattern takes its marks out of what waits; defining a place puts them
back, as a value that waits or as a statement.
-/

namespace Whittle.Emit.Ledger

open Ir Syntax

variable {ctx : Context} {L : Ledger ctx} {later later' : Set CellId} {st st' : State} {p : Pending}

/-! ## Taking -/

/-- How much values weigh that are taken. -/
abbrev valued (L : Ledger ctx) (p : Pending) : Nat := weigh L.weight p.expr.marks

/-- How much patterns weigh that are taken. -/
abbrev targeted (L : Ledger ctx) (r : Pattern × List DeclId) : Nat := weigh L.weight r.1.marks

theorem takes_readName (d : DeclId) : L.Takes (readName d) Nothing fun p =>
    weigh L.weight p.expr.marks = 0 ∧ p.Honest L.weight :=
  fun _ => (takes_nameOf d).seq fun _ _ => Balanced.pure rfl ⟨rfl, fun _ => rfl, nofun, nofun, nofun⟩

/-- A value that is taken once, or without effects, is taken out. -/
theorem takes_take (p : Place) : L.Takes (take p) L.valued (·.Honest L.weight) := by
  intro later st v st' hst hrun
  obtain ⟨st₁, st₂, hget, hrun⟩ := step_bind_eq_ok hrun
  cases hget
  cases hfound : st.values.lookup p.cell.id with
  | some value =>
    rw [hfound] at hrun
    obtain ⟨before, behind, hvalues, _⟩ := List.lookup_eq_some_iff.1 hfound
    have hmem : (p.cell.id, value) ∈ st.values := by simp [hvalues]
    have hhonest := hst.values _ hmem
    cases hrepeat : value.isRepeatable with
    | true =>
      simp only [hrepeat] at hrun
      cases hrun
      have hnone : L.valued v = 0 := hhonest.repeatable hrepeat
      exact ⟨hst, rfl, .of_eq (by rw [hnone]), hhonest⟩
    | false =>
      simp only [hrepeat] at hrun
      cases hrun
      exact ⟨hst.drop _, rfl, .of_eq (hst.holds_drop hmem), hhonest⟩
  | none =>
    rw [hfound] at hrun
    obtain ⟨ctx', st₂, hread, hrun⟩ := step_bind_eq_ok hrun
    cases hread
    cases htemporary : ctx.env.isTemporary p.declaration with
    | true =>
      simp only [htemporary] at hrun
      cases hrun
    | false =>
      simp only [htemporary] at hrun
      obtain ⟨hst', hemitted, hcount, hd⟩ := takes_readName p.declaration later st v st' hst hrun
      exact ⟨hst', hemitted, by rw [valued, hd.1]; exact hcount, hd.2⟩

/-- The pattern that waits for a reader is taken out. -/
theorem takes_takePattern (p : Place) :
    L.Takes (takePattern p) L.targeted fun r => weigh L.weight r.1.writes = 0 := by
  intro later st r st' hst hrun
  obtain ⟨st₁, st₂, hget, hrun⟩ := step_bind_eq_ok hrun
  cases hget
  cases hfound : st.patterns.get? p.cell.id with
  | some r =>
    rw [hfound] at hrun
    cases hrun
    have herase (c : CellId) (r' : Pattern × List DeclId)
        (h : (st.patterns.erase p.cell.id)[c]? = some r') : st.patterns[c]? = some r' := by
      rw [Std.TreeMap.getElem?_erase] at h
      split at h
      · cases h
      · exact h
    refine ⟨{ hst with
        patterns := fun c r' h => hst.patterns c r' (herase c r' h)
        patterns_later := fun c hc => ?_ }, rfl, .of_eq ?_, hst.patterns _ _ hfound⟩
    · rw [Std.TreeMap.getElem?_erase]
      split
      · rfl
      · exact hst.patterns_later c hc
    · have hsum := totalOf_erase (fun r => weigh L.weight r.1.marks) hfound
      simp only [State.holds, State.waiting, targeted] at hsum ⊢
      omega
  | none =>
    rw [hfound] at hrun
    cases hrun

/-- Operands are honest and weigh `n` together. -/
structure Covers (L : Ledger ctx) (operands : List Pending) (n : Nat) : Prop where
  honest : ∀ o ∈ operands, o.Honest L.weight
  sum : (operands.map L.valued).sum = n

theorem Covers.nil : L.Covers [] 0 := ⟨nofun, rfl⟩

theorem Covers.cons {operands : List Pending} {n : Nat} (hp : p.Honest L.weight)
    (h : L.Covers operands n) : L.Covers (p :: operands) (L.valued p + n) :=
  ⟨List.forall_mem_cons.2 ⟨hp, h.honest⟩, by rw [List.map_cons, List.sum_cons, h.sum]⟩

/-- A spread that waits for a reader is taken out. -/
theorem Sound.takeSpread (h : L.Sound later st) {c : CellId} (hp : st.spreads[c]? = some p) :
    L.Sound later { st with spreads := st.spreads.erase c } ∧
      ({ st with spreads := st.spreads.erase c } : State).holds L.weight + L.valued p =
        st.holds L.weight := by
  have herase (c' : CellId) (q : Pending) (hq : (st.spreads.erase c)[c']? = some q) :
      st.spreads[c']? = some q := by
    rw [Std.TreeMap.getElem?_erase] at hq
    split at hq
    · cases hq
    · exact hq
  refine ⟨{ h with
      spreads := fun c' q hq => h.spreads c' q (herase c' q hq)
      spreads_later := fun c' hc' => ?_ }, ?_⟩
  · rw [Std.TreeMap.getElem?_erase]
    split
    · rfl
    · exact h.spreads_later c' hc'
  · have hsum := totalOf_erase (fun p => weigh L.weight p.expr.marks) hp
    simp only [State.holds, State.waiting, valued] at hsum ⊢
    omega

/-- How much elements weigh that are taken. -/
abbrev listed (L : Ledger ctx) (r : List Element × List Pending) : Nat :=
  weigh L.weight (Element.marksAll r.1)

theorem takes_takeElements (ps : List Place) :
    L.Takes (takeElements ps) L.listed fun r => L.Covers r.2 (L.listed r) := by
  induction ps with
  | nil => exact fun _ => Balanced.pure rfl .nil
  | cons p ps ih =>
    refine fun later => Balanced.get fun st => ?_
    cases hfound : st.spreads.get? p.cell.id with
    | some value =>
      intro r st' hst hrun
      obtain ⟨u, st₁, herase, hrun⟩ := step_bind_eq_ok hrun
      cases herase
      obtain ⟨⟨elements, values⟩, st₁, hrest, hrun⟩ := step_bind_eq_ok hrun
      cases hrun
      obtain ⟨hst₁, hsum⟩ := hst.takeSpread hfound
      obtain ⟨hst', hemitted, hcount, hcovers⟩ := ih later _ _ _ hst₁ hrest
      have hlisted : L.listed (.spread value.expr :: elements, value :: values) =
          L.valued value + L.listed (elements, values) := by
        rw [listed, Element.marksAll, weigh_append]
      refine ⟨hst', hemitted, ?_, ?_⟩
      · rw [hlisted, ← hsum, Nat.add_comm (L.valued value), ← Nat.add_assoc]
        exact hcount.add _
      · dsimp only
        rw [hlisted]
        exact hcovers.cons (hst.spreads _ _ hfound)
    | none =>
      refine (takes_take p).bind (fun value hvalue => ih.bind fun r hr => ?_) st
      have hlisted : L.listed (.one value.expr :: r.1, value :: r.2) = L.valued value + L.listed r := by
        rw [listed, Element.marksAll, weigh_append]
      refine Balanced.pure (hlisted.trans (Nat.add_comm ..)) ?_
      dsimp only
      rw [hlisted]
      exact hr.cons hvalue

/-! ## Writing -/

theorem marks_of_isName {name : String} {e : Expr} (h : isName name e = true) : e.marks = [] := by
  cases e with
  | name _ _ => rfl
  | _ => cases h

theorem weigh_declareStmt (k : Mark → Nat) (word : VarKind) (target : Pattern) (value : Option Expr) :
    weigh k (declareStmt word target value).marks =
      weigh k target.marks + weigh k (Expr.marksOpt value) + k (.declare word target value) := by
  simp only [declareStmt, Stmt.marks, Declarator.marksAll, weigh_append, weigh_cons, weigh_nil,
    Nat.add_zero]

theorem weigh_assignExpr (k : Mark → Nat) (target : Pattern) (value : Expr) :
    weigh k (assignExpr target value).marks =
      weigh k target.marks + weigh k target.writes + weigh k value.marks := by
  simp only [assignExpr, Expr.marks, weigh_append]

/-- A declaration weighs no less than its pattern and its value. -/
theorem balanced_declare (word : VarKind) (target : Pattern) (value : Option Expr) (writes : Writes) :
    L.Balanced later (statement (declareStmt word target value) writes) later
      (weigh L.weight target.marks + weigh L.weight (Expr.marksOpt value)) Nothing Anything := by
  refine (balanced_statement _ _).less ?_ fun hexact => ?_
  · rw [weigh_declareStmt]
    exact Nat.le_add_right ..
  · rw [weigh_declareStmt, L.exact_declare hexact, Nat.add_zero]

/-- The variables of the module are written under other names than the counted one. -/
theorem writes_namePattern {d : DeclId} {name : String} (h : L.written d = some name) :
    weigh L.weight (namePattern name).writes = 0 := by
  rw [namePattern, Pattern.writes, weigh_cons, weigh_nil]
  exact L.foreign d name h

theorem takes_declaringWord (d : DeclId) (kind : StoreKind) :
    L.Takes (declaringWord d kind) Nothing Anything := by
  refine fun _ => takes_read.seq fun ctx' _ => takes_get.seq fun st _ => ?_
  split
  · exact Balanced.pure rfl trivial
  · exact Balanced.pure rfl trivial

theorem takes_markDeclared (d : DeclId) (word : VarKind) :
    L.Takes (markDeclared d word) Nothing Anything :=
  takes_modify fun _ => rfl

theorem takes_ensureDeclared (d : DeclId) : L.Takes (ensureDeclared d) Nothing Anything := by
  refine fun _ => (takes_declaringWord d .reassign).seq fun word _ => ?_
  cases word with
  | none => exact Balanced.pure rfl trivial
  | some word =>
    refine (takes_nameOf d).seq fun name _ => (takes_markDeclared d _).seq fun _ _ => ?_
    exact balanced_declare _ _ none _

theorem takes_ensureAll (ds : List DeclId) : L.Takes (ensureAll ds) Nothing Anything := by
  induction ds with
  | nil => exact fun _ => Balanced.pure rfl trivial
  | cons d ds ih => exact fun _ => (takes_ensureDeclared d).seq fun _ _ => (ih _)

theorem balanced_storeStmt (s : Store) :
    L.Balanced later (storeStmt s) later (weigh L.weight s.value.marks) Nothing Anything := by
  refine (takes_nameOf s.declaration).seq fun name hname =>
    (takes_declaringWord s.declaration s.kind).seq fun word _ => ?_
  cases word with
  | none =>
    refine (balanced_statement _ _).gain_eq ?_
    simp only [exprStmt, Stmt.marks, weigh_assignExpr, writes_namePattern hname]
    simp only [namePattern, Pattern.marks, weigh_nil, Nat.zero_add]
  | some word =>
    refine (takes_markDeclared s.declaration word).seq fun _ _ => (balanced_declare _ _ _ _).gain_eq ?_
    split
    case isTrue h =>
      have hnone := marks_of_isName (Bool.and_eq_true_iff.1 h).1
      simp only [namePattern, Pattern.marks, Expr.marksOpt, hnone, weigh_nil]
    case isFalse => simp only [namePattern, Pattern.marks, Expr.marksOpt, weigh_nil, Nat.zero_add]

theorem balanced_valueStmt (hp : p.Honest L.weight) :
    L.Balanced later (valueStmt p) later (L.valued p) Nothing Anything := by
  rw [valueStmt]
  split
  case isTrue hself => exact Balanced.pure (hp.selfCopy hself).symm trivial
  case isFalse =>
    split
    case h_1 s hstore => exact (balanced_storeStmt s).gain_eq (hp.store s hstore).symm
    case h_2 =>
      split
      case isTrue => exact balanced_statement _ _
      case isFalse h =>
        have hsilent : p.hasEffects = false := (Bool.or_eq_false_iff.1 (Bool.eq_false_iff.2 h)).1
        exact Balanced.pure (hp.silent hsilent).symm trivial

/-- A value waits for a cell for which nothing is to wait later. -/
theorem balanced_wait {c : CellId} (hp : p.Honest L.weight) (hc : c ∉ later)
    (hnear : c ∈ L.near → p.expr.access? = some L.access) :
    L.Balanced (insert c later) (wait c p) later (L.valued p) Nothing Anything := by
  intro st u st' hst hrun
  obtain ⟨rfl, rfl⟩ := Prod.mk.inj (Except.ok.inj ((wait_run c p st).symm.trans hrun))
  refine ⟨hst.wait (Set.subset_insert c later) hc hp fun h => .inl (hnear h), rfl, .of_eq ?_, trivial⟩
  rw [holds_wait, hst.drop_eq (Set.mem_insert c later), Nat.add_zero]

/-- A value is given a constant, which waits in its place. -/
theorem balanced_materialize {c : CellId} (hc : c ∉ later) (hnear : c ∈ L.near → p.expr.access? = some L.access) :
    L.Balanced (insert c later) (do wait c (← materialize p)) later (L.valued p) Nothing Anything := by
  intro st u st' hst hrun
  obtain ⟨q, st₁, hmaterialize, hrun⟩ := step_bind_eq_ok hrun
  obtain ⟨rfl, rfl⟩ := Prod.mk.inj (Except.ok.inj ((wait_run c q st₁).symm.trans hrun))
  obtain ⟨name, st₂, hfresh, hrun⟩ := step_bind_eq_ok hmaterialize
  obtain ⟨rfl, rfl⟩ := Prod.mk.inj (Except.ok.inj ((freshName_run st).symm.trans hfresh))
  obtain ⟨u₁, st₃, hstatement, hrun⟩ := step_bind_eq_ok hrun
  cases hrun
  obtain ⟨u₂, st₄, hsettle, hpush⟩ := step_bind_eq_ok hstatement
  obtain ⟨rfl, rfl⟩ := Prod.mk.inj (Except.ok.inj ((push_run _ st₄).symm.trans hpush))
  obtain ⟨hst₄, hemitted, hcount, -⟩ := balanced_settle hst.fresh hsettle
  have hpushed := hst₄.push (constStmt st.names.temporary.1 p)
  refine ⟨hpushed.wait (Set.subset_insert c later) hc (honest_namedValue L.weight _) fun h =>
    follows_const (hnear h) c _, hemitted, ?_, trivial⟩
  have hnamed : weigh L.weight (namedValue st.names.temporary.1).expr.marks = 0 := rfl
  rw [holds_wait, hpushed.drop_eq (Set.mem_insert c later), holds_push, hnamed, Nat.add_zero, Nat.add_zero]
  refine (hcount.add (L.valued p)).trans ?_
  rw [Nat.add_comm, Nat.add_comm (st₄.holds L.weight)]
  exact (L.meets_const st.names.temporary.1 p).add _

/-- All marks of a value are where its place is defined. -/
theorem balanced_define {place : Place} (hp : p.Honest L.weight) (hc : place.cell.id ∉ later)
    (hnear : place.cell.id ∈ L.near → p.expr.access? = some L.access) :
    L.Balanced (insert place.cell.id later) (define place p) later (L.valued p) Nothing Anything := by
  refine (takes_readCount place).seq fun count _ => ?_
  split
  · exact ((balanced_valueStmt hp).shrink (Set.subset_insert _ _))
  · exact balanced_wait hp hc hnear
  · split
    · exact balanced_wait hp hc hnear
    · exact balanced_materialize hc hnear

end Whittle.Emit.Ledger
