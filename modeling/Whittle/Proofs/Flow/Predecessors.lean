import Mathlib.Tactic.Common
import Whittle.Proofs.Flow.Walk
import Whittle.Proofs.Table

/-!
# Reachable blocks and predecessors

The walk over the graph that `Flow.reach` makes finds exactly the reachable blocks, so that
`Flow.predecessorSets` holds exactly the edges that leave a reachable block.
-/

namespace Whittle.Ir

/-- A fold that adds the things `R` speaks of, one list element at a time. -/
theorem foldl_adds_iff {α β : Type} {P : β → Prop} {R : α → Prop} {f : β → α → β} (l : List α)
    (h : ∀ b, ∀ a ∈ l, P (f b a) ↔ P b ∨ R a) (b : β) :
    P (l.foldl f b) ↔ P b ∨ ∃ a ∈ l, R a := by
  induction l generalizing b with
  | nil => simp
  | cons a l ih =>
    rw [List.foldl_cons, ih fun b' a' ha' => h b' a' (List.mem_cons_of_mem _ ha'),
      h b a List.mem_cons_self]
    simp [or_assoc]

namespace Flow

/-- Look-up in a table of block sets: `member` is in the set of `block`. -/
def Has (sets : BlockSets) (block member : BlockId) : Prop :=
  (sets.getD block ∅).contains member = true

theorem has_addTo {sets : BlockSets} {block member x y : BlockId} :
    Has (addTo sets block member) x y ↔ Has sets x y ∨ (x = block ∧ y = member) := by
  unfold Has addTo
  rw [Table.getD_insert]
  by_cases hx : x = block
  · subst hx
    simp [or_comm]
  · simp [hx]

theorem contains_addTo {sets : BlockSets} {block member x : BlockId} :
    (addTo sets block member).contains x = true ↔ sets.contains x = true ∨ x = block := by
  rw [addTo, Table.contains_insert]
  simp [or_comm]

theorem not_has_map_empty {ν : Type} (t : Table BlockId ν) (x y : BlockId) :
    ¬ Has (t.map fun _ _ => ∅) x y := by
  rw [Has, Table.getD, Table.get?_map]
  cases t.get? x <;> simp

/-! ## The reachable blocks -/

theorem reach_sound {entry : BlockId} {edges : Edges} {fuel : Nat} {stack : List BlockId}
    {seen : KeySet BlockId} (hstack : ∀ b ∈ stack, Reachable entry edges b)
    (hseen : ∀ b, seen.contains b = true → Reachable entry edges b) {b : BlockId}
    (hb : (reach edges fuel stack seen).contains b = true) : Reachable entry edges b := by
  fun_induction reach edges fuel stack seen with
  | case1 => exact hseen b hb
  | case2 => exact hseen b hb
  | case3 fuel block stack seen hold ih =>
    exact ih (fun x hx => hstack x (List.mem_cons_of_mem _ hx)) hseen hb
  | case4 fuel block stack seen hnew ih =>
    have hblock := hstack block List.mem_cons_self
    refine ih (fun x hx => ?_) (fun x hx => ?_) hb
    · rcases List.mem_append.1 hx with hx | hx
      · exact hblock.step hx
      · exact hstack x (List.mem_cons_of_mem _ hx)
    · rw [KeySet.contains_add, Bool.or_eq_true, decide_eq_true_eq] at hx
      rcases hx with rfl | hx
      · exact hblock
      · exact hseen x hx

/-- With fuel for the stack and the open edges, the walk ends with an empty stack: the result holds
the stack and what was seen, and is closed under edges. -/
theorem reach_closed {edges : Edges} {fuel : Nat} {stack : List BlockId} {seen : KeySet BlockId}
    (hfuel : stack.length + Entries.totalOutside (·.length) seen edges.entries ≤ fuel)
    (hclosed : ∀ b, seen.contains b = true → ∀ s ∈ edges.getD b [],
      seen.contains s = true ∨ s ∈ stack) :
    (∀ b, b ∈ stack ∨ seen.contains b = true → (reach edges fuel stack seen).contains b = true) ∧
      ∀ b, (reach edges fuel stack seen).contains b = true →
        ∀ s ∈ edges.getD b [], (reach edges fuel stack seen).contains s = true := by
  fun_induction reach edges fuel stack seen with
  | case1 stack seen =>
    obtain rfl : stack = [] := List.length_eq_zero_iff.1 (by omega)
    simpa using hclosed
  | case2 fuel seen =>
    simpa using hclosed
  | case3 fuel block stack seen hold ih =>
    obtain ⟨hin, hout⟩ := ih (by simp at hfuel; omega) fun b hb s hs => by
      rcases hclosed b hb s hs with h | h
      · exact .inl h
      · rcases List.mem_cons.1 h with rfl | h
        · exact .inl hold
        · exact .inr h
    refine ⟨fun b hb => hin b ?_, hout⟩
    rcases hb with hb | hb
    · rcases List.mem_cons.1 hb with rfl | hb
      · exact .inr hold
      · exact .inl hb
    · exact .inr hb
  | case4 fuel block stack seen hnew ih =>
    have hnew' : seen.contains block = false := by simpa using hnew
    have hopen : Entries.totalOutside (·.length) seen edges.entries = (edges.getD block []).length +
        Entries.totalOutside (·.length) (KeySet.add seen block) edges.entries :=
      Table.totalOutside_add_getD edges hnew' rfl
    obtain ⟨hin, hout⟩ := ih (by simp at hfuel ⊢; omega) fun b hb s hs => by
      rw [KeySet.contains_add, Bool.or_eq_true, decide_eq_true_eq] at hb ⊢
      rcases hb with rfl | hb
      · exact .inr (List.mem_append_left _ hs)
      · rcases hclosed b hb s hs with h | h
        · exact .inl (.inr h)
        · rcases List.mem_cons.1 h with rfl | h
          · exact .inl (.inl rfl)
          · exact .inr (List.mem_append_right _ h)
    refine ⟨fun b hb => hin b ?_, hout⟩
    rw [KeySet.contains_add, Bool.or_eq_true, decide_eq_true_eq]
    rcases hb with hb | hb
    · rcases List.mem_cons.1 hb with rfl | hb
      · exact .inr (.inl rfl)
      · exact .inl (List.mem_append_right _ hb)
    · exact .inr (.inr hb)

/-- The walk from the entry finds the reachable blocks and no others. -/
theorem contains_reach_iff {entry : BlockId} {edges : Edges} {b : BlockId} :
    (reach edges (edgeCount edges + 2) [entry] ∅).contains b = true ↔ Reachable entry edges b := by
  have hfuel : [entry].length + Entries.totalOutside (·.length) ∅ edges.entries ≤
      edgeCount edges + 2 := by
    rw [Table.totalOutside_empty, List.length_singleton, edgeCount]
    omega
  obtain ⟨hin, hout⟩ := reach_closed hfuel (by simp)
  constructor
  · refine fun hb => reach_sound (fun x hx => ?_) (by simp) hb
    rw [List.mem_singleton.1 hx]
    exact reachable_entry
  · rintro ⟨before, hwalk⟩
    generalize hblocks : b :: before = blocks at hwalk
    induction hwalk generalizing b before with
    | start =>
      cases hblocks
      exact hin entry (.inl (List.mem_singleton_self _))
    | step _ hedge ih =>
      cases hblocks
      exact hout _ (ih _ rfl) _ hedge

/-! ## Predecessors -/

theorem mem_edges_iff {edges : Edges} {b p : BlockId} :
    b ∈ edges.getD p [] ↔ ∃ successors, (p, successors) ∈ edges.entries ∧ b ∈ successors := by
  cases hget : edges.get? p with
  | none => simp [Table.getD, Table.mem_entries, hget]
  | some successors => simp [Table.getD, Table.mem_entries, hget]

/-- The predecessors of a block are the reachable blocks with an edge to it. -/
theorem has_predecessorSets {entry : BlockId} {edges : Edges} {b p : BlockId} :
    Has (predecessorSets entry edges) b p ↔ Reachable entry edges p ∧ b ∈ edges.getD p [] := by
  have hstep (sets : BlockSets) (e : BlockId × List BlockId) :
      Has (if (reach edges (edgeCount edges + 2) [entry] ∅).contains e.1 then
          e.2.foldl (fun sets s => addTo sets s e.1) sets else sets) b p ↔
        Has sets b p ∨ (Reachable entry edges e.1 ∧ b ∈ e.2 ∧ p = e.1) := by
    rw [← contains_reach_iff]
    split
    · rename_i hreach
      rw [foldl_adds_iff (P := (Has · b p)) (R := fun s => b = s ∧ p = e.1) e.2
        fun _ _ _ => has_addTo]
      simp [hreach]
    · rename_i hreach
      simp [hreach]
  rw [predecessorSets, foldl_adds_iff (P := (Has · b p)) _ fun sets e _ => hstep sets e]
  simp only [not_has_map_empty, false_or]
  constructor
  · rintro ⟨⟨q, succs⟩, hmem, hreach, hb, rfl⟩
    exact ⟨hreach, mem_edges_iff.2 ⟨succs, hmem, hb⟩⟩
  · rintro ⟨hreach, hb⟩
    obtain ⟨succs, hmem, hb⟩ := mem_edges_iff.1 hb
    exact ⟨(p, succs), hmem, hreach, hb, rfl⟩

/-- Every block has a set of predecessors, and so has every target of a reachable block. -/
theorem contains_predecessorSets {entry : BlockId} {edges : Edges} {b : BlockId} :
    (predecessorSets entry edges).contains b = true ↔
      edges.contains b = true ∨ ∃ p, Has (predecessorSets entry edges) b p := by
  simp only [has_predecessorSets]
  have hstep (sets : BlockSets) (e : BlockId × List BlockId) :
      (if (reach edges (edgeCount edges + 2) [entry] ∅).contains e.1 then
          e.2.foldl (fun sets s => addTo sets s e.1) sets else sets).contains b = true ↔
        sets.contains b = true ∨ (Reachable entry edges e.1 ∧ b ∈ e.2) := by
    rw [← contains_reach_iff]
    split
    · rename_i hreach
      rw [foldl_adds_iff (P := fun sets : BlockSets => sets.contains b = true)
        (R := fun s => b = s) e.2 fun _ _ _ => contains_addTo]
      simp [hreach]
    · rename_i hreach
      simp [hreach]
  rw [predecessorSets, foldl_adds_iff (P := fun sets : BlockSets => sets.contains b = true) _
    fun sets e _ => hstep sets e, Table.contains_map]
  refine or_congr_right ?_
  constructor
  · rintro ⟨⟨q, succs⟩, hmem, hreach, hb⟩
    exact ⟨q, hreach, mem_edges_iff.2 ⟨succs, hmem, hb⟩⟩
  · rintro ⟨p, hreach, hb⟩
    obtain ⟨succs, hmem, hb⟩ := mem_edges_iff.1 hb
    exact ⟨(p, succs), hmem, hreach, hb⟩

end Flow

/-- Every block on the way to a block of the graph is a block of the graph. -/
theorem Walk.contains {entry : BlockId} {edges : Edges} {b : BlockId} {before : List BlockId}
    (h : Walk entry edges (b :: before)) (hb : edges.contains b = true) :
    ∀ x ∈ b :: before, edges.contains x = true := by
  generalize hblocks : b :: before = blocks at h
  induction h generalizing b before with
  | start =>
    cases hblocks
    simpa using hb
  | step hwalk hedge ih =>
    cases hblocks
    obtain ⟨succs, hmem, -⟩ := Flow.mem_edges_iff.1 hedge
    intro x hx
    rcases List.mem_cons.1 hx with rfl | hx
    · exact hb
    · exact ih (Table.contains_iff.2 ⟨succs, Table.mem_entries.1 hmem⟩) rfl x hx

end Whittle.Ir
