import Mathlib.Algebra.Order.BigOperators.Group.List
import Mathlib.Algebra.Order.Ring.Nat
import Mathlib.Tactic.Common
import Whittle.Ir.Module
import Whittle.Proofs.Flow.Predecessors

/-!
# Dominators are exact

The loop that corrects dominator sets starts above the true sets, never drops a true dominator, and
only ever takes members away.  So it stops by itself, and where it stops every set is what the sets of
the predecessors say it should be.  Such sets hold true dominators only, by induction on walks.

Main statement: `compute_exact`, what `Flow.compute` says about reachability, dominance and back edges
in terms of walks.
-/

namespace Whittle.Ir.Flow

/-- What the sets of the predecessors say the dominators of a block are. -/
def corrected (sets : BlockSets) (e : BlockId × KeySet BlockId) : KeySet BlockId :=
  KeySet.add (commonTo (e.2.keys.map fun p => sets.getD p ∅)) e.1

theorem contains_commonTo {ss : List (KeySet BlockId)} (hss : ss ≠ []) {a : BlockId} :
    (commonTo ss).contains a = true ↔ ∀ s ∈ ss, s.contains a = true := by
  have hfold (s : KeySet BlockId) (ss : List (KeySet BlockId)) :
      (ss.foldl KeySet.inter s).contains a = true ↔
        s.contains a = true ∧ ∀ s' ∈ ss, s'.contains a = true := by
    induction ss generalizing s with
    | nil => simp
    | cons s' ss ih =>
      rw [List.foldl_cons, ih, KeySet.contains_inter, Bool.and_eq_true]
      simp [and_assoc]
  cases ss with
  | nil => exact absurd rfl hss
  | cons s ss => simp [commonTo, hfold]

theorem contains_corrected {sets : BlockSets} {e : BlockId × KeySet BlockId}
    (he : e.2.isEmpty = false) {a : BlockId} :
    (corrected sets e).contains a = true ↔ a = e.1 ∨ ∀ p, e.2.contains p = true → Has sets p a := by
  have hne : e.2.keys.map (fun p => sets.getD p ∅) ≠ [] := by
    obtain ⟨p, hp⟩ := Table.isEmpty_eq_false.1 he
    have hmem := Table.mem_keys.2 hp
    intro h
    simp only [List.map_eq_nil_iff] at h
    simp [h] at hmem
  rw [corrected, KeySet.contains_add, Bool.or_eq_true, decide_eq_true_eq, contains_commonTo hne]
  simp [Table.mem_keys, Has]

/-- Whether the set of a block is never corrected. -/
def IsFixed (entry : BlockId) (e : BlockId × KeySet BlockId) : Prop :=
  e.1 = entry ∨ e.2.isEmpty = true

/-- What one correction does: nothing, or it puts the corrected set in place of another one. -/
theorem refine_cases (entry : BlockId) (sets : BlockSets) (changed : Bool)
    (e : BlockId × KeySet BlockId) :
    (refine entry (sets, changed) e = (sets, changed) ∧
        (IsFixed entry e ∨ corrected sets e = sets.getD e.1 ∅)) ∨
      (refine entry (sets, changed) e = (sets.insert e.1 (corrected sets e), true) ∧
        ¬ IsFixed entry e ∧ corrected sets e ≠ sets.getD e.1 ∅) := by
  have hunfold : refine entry (sets, changed) e =
      if e.1 == entry || e.2.isEmpty then (sets, changed)
      else if (corrected sets e).entries == (sets.getD e.1 ∅).entries then (sets, changed)
      else (sets.insert e.1 (corrected sets e), true) := rfl
  rw [hunfold]
  split
  · rename_i hfixed
    exact .inl ⟨rfl, .inl (by simpa [IsFixed] using hfixed)⟩
  · rename_i hfixed
    have hfixed' : ¬ IsFixed entry e := by simpa [IsFixed] using hfixed
    split
    · rename_i hsame
      exact .inl ⟨rfl, .inr (Table.ext (by simpa using hsame))⟩
    · rename_i hsame
      exact .inr ⟨rfl, hfixed', fun heq => hsame (by simp [heq])⟩

/-! ## The invariant -/

/-- What holds of the sets all along: they are above the true dominators and above what their own
correction would make of them. -/
structure Above (entry : BlockId) (edges : Edges) (sets : BlockSets) : Prop where
  /-- Blocks without anything to correct have themselves alone. -/
  fixed : ∀ e ∈ (predecessorSets entry edges).entries, IsFixed entry e →
    ∀ a, Has sets e.1 a ↔ a = e.1
  /-- Sets belong to blocks and hold blocks. -/
  members : ∀ b a, Has sets b a → (predecessorSets entry edges).contains b = true ∧
    (predecessorSets entry edges).contains a = true
  /-- Correcting a set takes members away. -/
  shrinks : ∀ e ∈ (predecessorSets entry edges).entries, ¬ IsFixed entry e →
    ∀ a, (corrected sets e).contains a = true → Has sets e.1 a
  /-- No dominator is missing. -/
  dominators : ∀ b, Reachable entry edges b → ∀ a, Dominates entry edges a b → Has sets b a

variable {entry : BlockId} {edges : Edges} {sets : BlockSets}

theorem mem_predecessorSets {e : BlockId × KeySet BlockId}
    (he : e ∈ (predecessorSets entry edges).entries) {p : BlockId} :
    e.2.contains p = true ↔ Reachable entry edges p ∧ e.1 ∈ edges.getD p [] := by
  rw [← has_predecessorSets, Has, Table.getD_of_get? (Table.mem_entries.1 he)]

theorem isFixed_of_not_reachable {e : BlockId × KeySet BlockId}
    (he : e ∈ (predecessorSets entry edges).entries) (h : ¬ Reachable entry edges e.1) :
    IsFixed entry e := by
  refine .inr ?_
  by_contra hne
  obtain ⟨p, hp⟩ := Table.isEmpty_eq_false.1 (Bool.not_eq_true _ ▸ hne)
  obtain ⟨hreach, hedge⟩ := (mem_predecessorSets he).1 hp
  exact h (hreach.step hedge)

/-- Correcting one set keeps the invariant. -/
theorem Above.correct (h : Above entry edges sets) {e : BlockId × KeySet BlockId}
    (he : e ∈ (predecessorSets entry edges).entries) (hfixed : ¬ IsFixed entry e) :
    Above entry edges (sets.insert e.1 (corrected sets e)) := by
  have hhas (b a : BlockId) : Has (sets.insert e.1 (corrected sets e)) b a ↔
      if b = e.1 then (corrected sets e).contains a = true else Has sets b a := by
    rw [Has, Table.getD_insert]
    split <;> rfl
  have hless (b a : BlockId) (hnew : Has (sets.insert e.1 (corrected sets e)) b a) :
      Has sets b a := by
    rw [hhas] at hnew
    split at hnew
    · rename_i hb
      rw [hb]
      exact h.shrinks e he hfixed a hnew
    · exact hnew
  have hkey {e' : BlockId × KeySet BlockId} (he' : e' ∈ (predecessorSets entry edges).entries)
      (heq : e'.1 = e.1) : e' = e := by
    have h1 := Table.mem_entries.1 he'
    rw [heq, Table.mem_entries.1 he] at h1
    exact Prod.ext heq (Option.some.inj h1).symm
  have hcorr {e' : BlockId × KeySet BlockId} (hfixed' : ¬ IsFixed entry e') (a : BlockId)
      (hnew : (corrected (sets.insert e.1 (corrected sets e)) e').contains a = true) :
      (corrected sets e').contains a = true := by
    have hpreds : e'.2.isEmpty = false := by
      simpa using fun h => hfixed' (.inr h)
    rw [contains_corrected hpreds] at hnew ⊢
    exact hnew.imp id fun hall p hp => hless p a (hall p hp)
  refine ⟨fun e' he' hfixed' a => ?_, fun b a hnew => h.members b a (hless b a hnew),
    fun e' he' hfixed' a hnew => ?_, fun b hb a hdom => ?_⟩
  · have hne : e'.1 ≠ e.1 := fun heq => hfixed (hkey he' heq ▸ hfixed')
    rw [hhas, if_neg hne]
    exact h.fixed e' he' hfixed' a
  · have hold := hcorr hfixed' a hnew
    rw [hhas]
    split
    · rename_i heq
      rwa [← hkey he' heq]
    · exact h.shrinks e' he' hfixed' a hold
  · rw [hhas]
    split
    · rename_i heq
      subst heq
      have hpreds : e.2.isEmpty = false := by
        simpa using fun h => hfixed (.inr h)
      rw [contains_corrected hpreds]
      by_cases ha : a = e.1
      · exact .inl ha
      · refine .inr fun p hp => ?_
        obtain ⟨hreach, hedge⟩ := (mem_predecessorSets he).1 hp
        exact h.dominators p hreach a (hdom.pred ha hedge)
    · exact h.dominators b hb a hdom

/-! ## The loop stops -/

/-- The number of members of all sets. -/
def weight (predecessors sets : BlockSets) : Nat :=
  (predecessors.keys.map fun b => (sets.getD b ∅).size).sum

/-- Another round of corrections would change nothing. -/
def IsStable (entry : BlockId) (predecessors sets : BlockSets) : Prop :=
  predecessors.entries.foldl (refine entry) (sets, false) = (sets, false)

/-- A correction that changes a set makes it smaller. -/
theorem Above.weight_lt (h : Above entry edges sets) {e : BlockId × KeySet BlockId}
    (he : e ∈ (predecessorSets entry edges).entries) (hfixed : ¬ IsFixed entry e)
    (hne : corrected sets e ≠ sets.getD e.1 ∅) :
    weight (predecessorSets entry edges) (sets.insert e.1 (corrected sets e)) <
      weight (predecessorSets entry edges) sets := by
  have hsmaller : (corrected sets e).size < (sets.getD e.1 ∅).size :=
    KeySet.size_lt_of_subset (fun a ha => h.shrinks e he hfixed a ha) hne
  refine List.sum_lt_sum _ _ (fun b _ => ?_) ⟨e.1, ?_, ?_⟩
  · rw [Table.getD_insert]
    split
    · rename_i hb
      rw [hb]
      exact hsmaller.le
    · exact le_rfl
  · exact List.mem_map_of_mem he
  · rwa [Table.getD_insert, if_pos rfl]

/-- What a round of corrections does: it keeps the invariant, and either it changes nothing because
nothing is to be corrected, or it takes members away. -/
theorem Above.round (h : Above entry edges sets) {l : List (BlockId × KeySet BlockId)}
    (hl : ∀ e ∈ l, e ∈ (predecessorSets entry edges).entries) (changed : Bool) :
    Above entry edges (l.foldl (refine entry) (sets, changed)).1 ∧
      ((l.foldl (refine entry) (sets, changed) = (sets, changed) ∧
          ∀ e ∈ l, IsFixed entry e ∨ corrected sets e = sets.getD e.1 ∅) ∨
        ((l.foldl (refine entry) (sets, changed)).2 = true ∧
          weight (predecessorSets entry edges) (l.foldl (refine entry) (sets, changed)).1 <
            weight (predecessorSets entry edges) sets)) := by
  induction l generalizing sets changed with
  | nil => exact ⟨h, .inl ⟨rfl, by simp⟩⟩
  | cons e l ih =>
    have he := hl e List.mem_cons_self
    have hrest (e' : BlockId × KeySet BlockId) (he' : e' ∈ l) := hl e' (List.mem_cons_of_mem _ he')
    rw [List.foldl_cons]
    rcases refine_cases entry sets changed e with ⟨hsame, hgood⟩ | ⟨hnew, hfixed, hne⟩
    · rw [hsame]
      obtain ⟨habove, ⟨hstay, hall⟩ | hless⟩ := ih h hrest changed
      · refine ⟨habove, .inl ⟨hstay, fun e' he' => ?_⟩⟩
        rcases List.mem_cons.1 he' with rfl | he'
        · exact hgood
        · exact hall e' he'
      · exact ⟨habove, .inr hless⟩
    · rw [hnew]
      have hlt := h.weight_lt he hfixed hne
      obtain ⟨habove, ⟨hstay, -⟩ | ⟨htrue, hless⟩⟩ := ih (h.correct he hfixed) hrest true
      · exact ⟨habove, .inr ⟨by rw [hstay], by rwa [hstay]⟩⟩
      · exact ⟨habove, .inr ⟨htrue, hless.trans hlt⟩⟩

/-- With more fuel than members, the loop stops because a round changes nothing. -/
theorem Above.settle {fuel : Nat} (h : Above entry edges sets)
    (hfuel : weight (predecessorSets entry edges) sets < fuel) :
    Above entry edges (settle entry (predecessorSets entry edges) fuel sets) ∧
      IsStable entry (predecessorSets entry edges)
        (settle entry (predecessorSets entry edges) fuel sets) := by
  induction fuel generalizing sets with
  | zero => exact absurd hfuel (Nat.not_lt_zero _)
  | succ fuel ih =>
    obtain ⟨habove, ⟨hstay, -⟩ | ⟨htrue, hless⟩⟩ := h.round (fun _ he => he) false
    · have hsettle : Flow.settle entry (predecessorSets entry edges) (fuel + 1) sets = sets := by
        simp [Flow.settle, hstay]
      rw [hsettle]
      exact ⟨h, hstay⟩
    · have hsettle : Flow.settle entry (predecessorSets entry edges) (fuel + 1) sets =
          Flow.settle entry (predecessorSets entry edges) fuel
            ((predecessorSets entry edges).entries.foldl (refine entry) (sets, false)).1 := by
        simp [Flow.settle, htrue]
      rw [hsettle]
      exact ih habove (by omega)

/-! ## The start -/

/-- The sets that the loop starts with: everything, where there is something to correct. -/
def initialSets (entry : BlockId) (predecessors : BlockSets) : BlockSets :=
  predecessors.map fun block preds =>
    if block == entry || preds.isEmpty then KeySet.add ∅ block else predecessors.map fun _ _ => ()

theorem getD_initialSets {predecessors : BlockSets} {e : BlockId × KeySet BlockId}
    (he : e ∈ predecessors.entries) :
    (initialSets entry predecessors).getD e.1 ∅ =
      if e.1 == entry || e.2.isEmpty then KeySet.add ∅ e.1 else predecessors.map fun _ _ => () := by
  rw [Table.getD, initialSets, Table.get?_map, Table.mem_entries.1 he]
  rfl

theorem contains_of_reachable (hentry : edges.contains entry = true) {b : BlockId}
    (hb : Reachable entry edges b) : (predecessorSets entry edges).contains b = true := by
  rw [contains_predecessorSets]
  rcases hb.cases_pred with rfl | ⟨p, hp, hedge⟩
  · exact .inl hentry
  · exact .inr ⟨p, has_predecessorSets.2 ⟨hp, hedge⟩⟩

theorem above_initialSets (hentry : edges.contains entry = true) :
    Above entry edges (initialSets entry (predecessorSets entry edges)) := by
  have hfixed {e : BlockId × KeySet BlockId} (he : e ∈ (predecessorSets entry edges).entries)
      (h : IsFixed entry e) (a : BlockId) :
      Has (initialSets entry (predecessorSets entry edges)) e.1 a ↔ a = e.1 := by
    have hcond : (e.1 == entry || e.2.isEmpty) = true := by simpa [IsFixed] using h
    rw [Has, getD_initialSets he, if_pos hcond]
    simp
  have hfree {e : BlockId × KeySet BlockId} (he : e ∈ (predecessorSets entry edges).entries)
      (h : ¬ IsFixed entry e) (a : BlockId) :
      Has (initialSets entry (predecessorSets entry edges)) e.1 a ↔
        (predecessorSets entry edges).contains a = true := by
    have hcond : ¬ (e.1 == entry || e.2.isEmpty) = true := by simpa [IsFixed] using h
    rw [Has, getD_initialSets he, if_neg hcond, Table.contains_map]
  have hmembers (b a : BlockId) (h : Has (initialSets entry (predecessorSets entry edges)) b a) :
      (predecessorSets entry edges).contains b = true ∧
        (predecessorSets entry edges).contains a = true := by
    cases hb : (predecessorSets entry edges).get? b with
    | none => simp [Has, Table.getD, initialSets, Table.get?_map, hb] at h
    | some preds =>
      have he := Table.mem_entries.2 hb
      have hblock := Table.contains_iff.2 ⟨preds, hb⟩
      refine ⟨hblock, ?_⟩
      by_cases hf : IsFixed entry (b, preds)
      · rwa [(hfixed he hf a).1 h]
      · exact (hfree he hf a).1 h
  refine ⟨fun e he => hfixed he, hmembers, fun e he hf a ha => ?_, fun b hb a hdom => ?_⟩
  · rw [hfree he hf]
    have hpreds : e.2.isEmpty = false := by simpa using fun h => hf (.inr h)
    rcases (contains_corrected hpreds).1 ha with rfl | hall
    · exact Table.contains_iff.2 ⟨e.2, Table.mem_entries.1 he⟩
    · obtain ⟨p, hp⟩ := Table.isEmpty_eq_false.1 hpreds
      exact (hmembers p a (hall p hp)).2
  · obtain ⟨preds, hget⟩ := Table.contains_iff.1 (contains_of_reachable hentry hb)
    have he := Table.mem_entries.2 hget
    by_cases hf : IsFixed entry (b, preds)
    · rw [hfixed he hf]
      rcases hf with heq | hempty
      · have heq' : b = entry := heq
        subst heq'
        exact hdom.eq_entry
      · rcases hb.cases_pred with rfl | ⟨p, hp, hedge⟩
        · exact hdom.eq_entry
        · have hmem := (mem_predecessorSets he).2 ⟨hp, hedge⟩
          have := Table.isEmpty_eq_false.2 ⟨p, hmem⟩
          rw [hempty] at this
          cases this
    · rw [hfree he hf]
      exact contains_of_reachable hentry (hdom.reachable hb)

/-- There are no more members at the start than pairs of blocks. -/
theorem weight_initialSets (predecessors : BlockSets) :
    weight predecessors (initialSets entry predecessors) ≤
      predecessors.size * predecessors.size := by
  have hsize (b : BlockId) (hb : b ∈ predecessors.keys) :
      ((initialSets entry predecessors).getD b ∅).size ≤ predecessors.size := by
    obtain ⟨preds, hget⟩ := Table.contains_iff.1 (Table.mem_keys.1 hb)
    rw [getD_initialSets (Table.mem_entries.2 hget)]
    split
    · refine Nat.succ_le_of_lt ?_
      rw [← Table.length_keys]
      exact List.length_pos_of_mem hb
    · simp [Table.size, Table.map]
  calc weight predecessors (initialSets entry predecessors)
      ≤ (predecessors.keys.map fun b => ((initialSets entry predecessors).getD b ∅).size).length •
          predecessors.size := by
        refine List.sum_le_card_nsmul _ _ fun n hn => ?_
        obtain ⟨b, hb, rfl⟩ := List.mem_map.1 hn
        exact hsize b hb
    _ = predecessors.size * predecessors.size := by simp

/-! ## Where the loop stops -/

theorem dominatorSets_eq (predecessors : BlockSets) :
    dominatorSets entry predecessors = settle entry predecessors
      (predecessors.size * predecessors.size + 1) (initialSets entry predecessors) := rfl

theorem above_dominatorSets (hentry : edges.contains entry = true) :
    Above entry edges (dominatorSets entry (predecessorSets entry edges)) ∧
      IsStable entry (predecessorSets entry edges)
        (dominatorSets entry (predecessorSets entry edges)) := by
  rw [dominatorSets_eq]
  exact (above_initialSets hentry).settle (Nat.lt_succ_of_le (weight_initialSets _))

/-- Sets that no correction changes hold true dominators only. -/
theorem Above.mem_of_has (h : Above entry edges sets)
    (hstable : IsStable entry (predecessorSets entry edges) sets)
    (hentry : edges.contains entry = true) {blocks : List BlockId} (hwalk : Walk entry edges blocks)
    {a b : BlockId} (hhead : blocks.head? = some b) (ha : Has sets b a) : a ∈ blocks := by
  have hgood : ∀ e ∈ (predecessorSets entry edges).entries,
      IsFixed entry e ∨ corrected sets e = sets.getD e.1 ∅ := by
    obtain ⟨-, ⟨-, hall⟩ | ⟨htrue, -⟩⟩ := h.round (fun _ he => he) false
    · exact hall
    · rw [hstable] at htrue
      cases htrue
  have hfixed {b : BlockId} {preds : KeySet BlockId}
      (hget : (predecessorSets entry edges).get? b = some preds) (hf : IsFixed entry (b, preds))
      (ha : Has sets b a) : a = b := (h.fixed _ (Table.mem_entries.2 hget) hf a).1 ha
  induction hwalk generalizing b with
  | start =>
    cases hhead
    obtain ⟨preds, hget⟩ := Table.contains_iff.1 (contains_of_reachable hentry reachable_entry)
    rw [hfixed hget (.inl rfl) ha]
    exact List.mem_singleton_self _
  | @step block next before hwalk hedge ih =>
    cases hhead
    have hblock : Reachable entry edges block := ⟨before, hwalk⟩
    obtain ⟨preds, hget⟩ := Table.contains_iff.1 (contains_of_reachable hentry (hblock.step hedge))
    have he := Table.mem_entries.2 hget
    have hpred : preds.contains block = true := (mem_predecessorSets he).2 ⟨hblock, hedge⟩
    rcases hgood _ he with hf | hsame
    · rw [hfixed hget hf ha]
      exact List.mem_cons_self
    · rw [Has, ← hsame, contains_corrected (Table.isEmpty_eq_false.2 ⟨block, hpred⟩)] at ha
      rcases ha with rfl | hall
      · exact List.mem_cons_self
      · exact List.mem_cons_of_mem _ (ih rfl (hall block hpred))

/-- The computed dominators of a reachable block are the true ones. -/
theorem has_dominatorSets (hentry : edges.contains entry = true) {a b : BlockId}
    (hb : Reachable entry edges b) :
    Has (dominatorSets entry (predecessorSets entry edges)) b a ↔ Dominates entry edges a b := by
  obtain ⟨habove, hstable⟩ := above_dominatorSets hentry
  constructor
  · intro ha before hwalk
    exact habove.mem_of_has hstable hentry hwalk rfl ha
  · exact habove.dominators b hb a

/-- A block that no walk reaches has no dominator but itself. -/
theorem eq_of_has_dominatorSets (hentry : edges.contains entry = true) {a b : BlockId}
    (hb : ¬ Reachable entry edges b)
    (ha : Has (dominatorSets entry (predecessorSets entry edges)) b a) : a = b := by
  have habove := (above_dominatorSets hentry).1
  obtain ⟨preds, hget⟩ := Table.contains_iff.1 (habove.members b a ha).1
  have he := Table.mem_entries.2 hget
  exact (habove.fixed _ he (isFixed_of_not_reachable he hb) a).1 ha

/-- Every block is in its own set. -/
theorem has_dominatorSets_self (hentry : edges.contains entry = true) {b : BlockId}
    (hblock : edges.contains b = true) :
    Has (dominatorSets entry (predecessorSets entry edges)) b b := by
  by_cases hb : Reachable entry edges b
  · exact (has_dominatorSets hentry hb).2 (Dominates.refl b)
  · obtain ⟨preds, hget⟩ := Table.contains_iff.1 (contains_predecessorSets.2 (.inl hblock))
    have he := Table.mem_entries.2 hget
    exact ((above_dominatorSets hentry).1.fixed _ he (isFixed_of_not_reachable he hb) b).2 rfl

/-! ## Back edges -/

theorem has_backEdgeSets {predecessors dominators : BlockSets} {b p : BlockId} :
    Has (backEdgeSets predecessors dominators) b p ↔
      Has predecessors b p ∧ Has dominators p b := by
  have hstep (sets : BlockSets) (e : BlockId × KeySet BlockId) :
      Has (e.2.keys.foldl
          (fun sets p => if (dominators.getD p ∅).contains e.1 then addTo sets e.1 p else sets)
          sets) b p ↔
        Has sets b p ∨ ∃ q ∈ e.2.keys, Has dominators q e.1 ∧ b = e.1 ∧ p = q := by
    refine foldl_adds_iff (P := (Has · b p)) _ (fun sets q _ => ?_) sets
    unfold Has
    split
    · rename_i hdom
      exact has_addTo.trans (by simp [hdom, Has])
    · rename_i hdom
      simp [hdom]
  rw [backEdgeSets, foldl_adds_iff (P := (Has · b p)) _ fun sets e _ => hstep sets e]
  constructor
  · rintro (hempty | ⟨⟨c, preds⟩, hmem, q, hq, hdom, rfl, rfl⟩)
    · simp [Has, Table.getD] at hempty
      cases hempty
    · refine ⟨?_, hdom⟩
      rw [Has, Table.getD_of_get? (Table.mem_entries.1 hmem)]
      exact Table.mem_keys.1 hq
  · rintro ⟨hpred, hdom⟩
    cases hget : predecessors.get? b with
    | none => simp [Has, Table.getD, hget] at hpred
    | some preds =>
      rw [Has, Table.getD_of_get? hget] at hpred
      exact .inr ⟨(b, preds), Table.mem_entries.2 hget, p, Table.mem_keys.2 hpred, hdom, rfl, rfl⟩

theorem backEdge_error_iff {flow : Flow} {b : BlockId} :
    (∃ e, flow.backEdge b = .error e) ↔
      ∃ p q, p ≠ q ∧ Has flow.backEdges b p ∧ Has flow.backEdges b q := by
  unfold Has
  rw [← KeySet.two_le_size_iff, ← Table.length_keys, backEdge]
  match (flow.backEdges.getD b ∅).keys with
  | [] => simp
  | [p] => simp
  | p :: q :: rest => simp

/-! ## What the facts say -/

/-- A reachable edge that leads to a dominator of its source. -/
def IsLoopEdge (entry : BlockId) (edges : Edges) (source target : BlockId) : Prop :=
  Reachable entry edges source ∧ target ∈ edges.getD source [] ∧
    Dominates entry edges target source

/-- Facts about the control flow of blocks that hold exactly when walks bear them out. -/
structure Exact (entry : BlockId) (blocks : Table BlockId Block) (flow : Flow) : Prop where
  /-- The loop that corrects dominators has stopped because nothing was left to correct. -/
  settled : IsStable entry flow.predecessors flow.dominators
  /-- A block counts as reachable when a walk leads to it. -/
  isReachable_iff : ∀ b, flow.isReachable b = true ↔ Reachable entry (edgesOf blocks) b
  /-- A reachable block is dominated by what every walk to it passes. -/
  dominates_iff : ∀ a b, Reachable entry (edgesOf blocks) b →
    (flow.dominates a b = true ↔ Dominates entry (edgesOf blocks) a b)
  /-- A block that no walk reaches is dominated by itself alone. -/
  dominates_iff_eq : ∀ a b, blocks.contains b = true → ¬ Reachable entry (edgesOf blocks) b →
    (flow.dominates a b = true ↔ a = b)
  /-- The back edges of a block are the edges to it from blocks it dominates. -/
  mem_backEdges_iff : ∀ b p, (flow.backEdges.getD b ∅).contains p = true ↔
    IsLoopEdge entry (edgesOf blocks) p b
  /-- Asking for the one back edge fails where there are two. -/
  backEdge_error_iff : ∀ b, (∃ e, flow.backEdge b = .error e) ↔
    ∃ p q, p ≠ q ∧ IsLoopEdge entry (edgesOf blocks) p b ∧ IsLoopEdge entry (edgesOf blocks) q b

theorem isReachable_compute {b : BlockId} :
    (compute entry edges).isReachable b = true ↔ Reachable entry edges b := by
  have hpreds : (compute entry edges).predecessorsOf b ≠ [] ↔
      ∃ p, Has (predecessorSets entry edges) b p := by
    rw [← List.isEmpty_eq_false_iff, List.isEmpty_eq_false_iff_exists_mem]
    simp only [Has, ← Table.mem_keys]
    rfl
  simp only [isReachable, Bool.or_eq_true, beq_iff_eq, Bool.not_eq_true', List.isEmpty_eq_false_iff,
    hpreds, has_predecessorSets]
  constructor
  · rintro (rfl | ⟨p, hp, hedge⟩)
    · exact reachable_entry
    · exact hp.step hedge
  · exact Reachable.cases_pred

theorem mem_backEdges_compute (hentry : edges.contains entry = true) {b p : BlockId} :
    Has (compute entry edges).backEdges b p ↔ IsLoopEdge entry edges p b := by
  change Has (backEdgeSets _ _) b p ↔ _
  rw [has_backEdgeSets, has_predecessorSets, and_assoc, IsLoopEdge]
  refine and_congr_right fun hp => and_congr_right fun _ => ?_
  exact has_dominatorSets hentry hp

theorem exact_compute {entry : BlockId} {blocks : Table BlockId Block}
    (hentry : blocks.contains entry = true) : Exact entry blocks (compute entry (edgesOf blocks)) := by
  have hentry' : (edgesOf blocks).contains entry = true := by
    rwa [edgesOf, Table.contains_map]
  refine ⟨(above_dominatorSets hentry').2, fun b => isReachable_compute,
    fun a b hb => has_dominatorSets hentry' hb, fun a b hblock hb => ?_,
    fun b p => mem_backEdges_compute hentry', fun b => ?_⟩
  · refine ⟨eq_of_has_dominatorSets hentry' hb, ?_⟩
    rintro rfl
    exact has_dominatorSets_self hentry' (by rwa [edgesOf, Table.contains_map])
  · rw [Flow.backEdge_error_iff]
    simp only [mem_backEdges_compute hentry']

/-- Whatever the blocks, as long as the entry is one of them: the facts computed about their control
flow are exact. -/
theorem compute_exact (entry : BlockId) (blocks : Table BlockId Block)
    (hentry : blocks.contains entry = true) : Exact entry blocks (compute entry (edgesOf blocks)) :=
  exact_compute hentry

/-- A loop entered at two places, whose exit is missing, and a block that nothing leads to. -/
def tangledBlocks : Table BlockId Block :=
  let test : Place := ⟨⟨0⟩, ⟨⟨0⟩, .numbered 0, ⟨0⟩⟩⟩
  Table.ofList
    [(⟨0⟩, ⟨[], some (.branch test ⟨1⟩ ⟨2⟩ ⟨9⟩)⟩),
     (⟨1⟩, ⟨[], some (.jump ⟨2⟩)⟩),
     (⟨2⟩, ⟨[], some (.branch test ⟨1⟩ ⟨9⟩ ⟨9⟩)⟩),
     (⟨3⟩, ⟨[], some (.jump ⟨0⟩)⟩)]

theorem compute_exact_tangledBlocks : tangledBlocks.contains ⟨0⟩ = true ∧
    Exact ⟨0⟩ tangledBlocks (compute ⟨0⟩ (edgesOf tangledBlocks)) :=
  have hentry : tangledBlocks.contains ⟨0⟩ = true := by decide
  ⟨hentry, compute_exact ⟨0⟩ tangledBlocks hentry⟩

end Whittle.Ir.Flow
