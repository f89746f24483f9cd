import Mathlib.Tactic.Common
import Whittle.Ir.Flow

/-!
# Walks and dominance

A walk is a way through the graph from the entry on, written with the latest block first.  A block
dominates another one when every walk to the other passes through it.  Nothing here mentions how
dominators are computed.

The two facts everything else rests on: a walk can be cut off at any block that it passes
(`Walk.drop`), and what follows a block can be put behind any other walk to that block
(`Walk.splice`).
-/

namespace Whittle.Ir

/-- A way from the entry along edges, the latest block first. -/
inductive Walk (entry : BlockId) (edges : Edges) : List BlockId → Prop
  | start : Walk entry edges [entry]
  | step {block next : BlockId} {before : List BlockId} :
      Walk entry edges (block :: before) → next ∈ edges.getD block [] →
        Walk entry edges (next :: block :: before)

/-- Some walk ends at the block. -/
def Reachable (entry : BlockId) (edges : Edges) (block : BlockId) : Prop :=
  ∃ before, Walk entry edges (block :: before)

/-- Every walk to `b` passes through `a`. -/
def Dominates (entry : BlockId) (edges : Edges) (a b : BlockId) : Prop :=
  ∀ before, Walk entry edges (b :: before) → a ∈ b :: before

/-- Every walk to `b` passes through `a` before it ends. -/
def StrictlyDominates (entry : BlockId) (edges : Edges) (a b : BlockId) : Prop :=
  a ≠ b ∧ Dominates entry edges a b

variable {entry : BlockId} {edges : Edges} {a b c : BlockId}

/-! ## Walks -/

theorem Walk.drop {later rest : List BlockId} (h : Walk entry edges (later ++ b :: rest)) :
    Walk entry edges (b :: rest) := by
  induction later with
  | nil => exact h
  | cons x later ih =>
    refine ih ?_
    cases hl : later ++ b :: rest with
    | nil => simp at hl
    | cons y ys =>
      rw [List.cons_append, hl] at h
      cases h with
      | step hwalk _ => exact hwalk

theorem Walk.splice {later rest other : List BlockId} (h : Walk entry edges (later ++ b :: rest))
    (hother : Walk entry edges (b :: other)) : Walk entry edges (later ++ b :: other) := by
  induction later with
  | nil => exact hother
  | cons x later ih =>
    cases later with
    | nil =>
      cases h with
      | step _ hedge => exact .step hother hedge
    | cons y later =>
      cases h with
      | step hwalk hedge => exact .step (ih hwalk) hedge

/-- A walk to `c` that passes through `b` can reach `b` in any other way. -/
theorem Walk.reroute {before later rest other : List BlockId} (h : Walk entry edges (c :: before))
    (hsplit : c :: before = later ++ b :: rest) (hother : Walk entry edges (b :: other)) :
    ∃ before', Walk entry edges (c :: before') ∧ c :: before' = later ++ b :: other := by
  rw [hsplit] at h
  have hnew := h.splice hother
  cases later with
  | nil =>
    rw [List.nil_append, List.cons.injEq] at hsplit
    obtain ⟨rfl, -⟩ := hsplit
    exact ⟨other, hother, rfl⟩
  | cons y later =>
    rw [List.cons_append, List.cons.injEq] at hsplit
    obtain ⟨rfl, -⟩ := hsplit
    exact ⟨later ++ b :: other, hnew, rfl⟩

theorem Walk.entry_mem {blocks : List BlockId} (h : Walk entry edges blocks) : entry ∈ blocks := by
  induction h with
  | start => exact List.mem_singleton_self _
  | step _ _ ih => exact List.mem_cons_of_mem _ ih

theorem Walk.reachable {blocks : List BlockId} (h : Walk entry edges blocks) (hb : b ∈ blocks) :
    Reachable entry edges b := by
  obtain ⟨later, rest, rfl⟩ := List.append_of_mem hb
  exact ⟨rest, h.drop⟩

/-- A reachable block has a walk that meets it at its end only. -/
theorem Walk.exists_first {before : List BlockId} (h : Walk entry edges (b :: before)) :
    ∃ rest, Walk entry edges (b :: rest) ∧ b ∉ rest ∧ ∀ x ∈ rest, x ∈ before := by
  obtain ⟨later, rest, hsplit, hrest⟩ :
      ∃ later rest, b :: before = later ++ b :: rest ∧ b ∉ rest := by
    have hmem : b ∈ (b :: before).reverse := by simp
    obtain ⟨front, back, hrev, hfront⟩ := List.eq_append_cons_of_mem hmem
    exact ⟨back.reverse, front.reverse, by simpa using congrArg List.reverse hrev,
      by simpa using hfront⟩
  refine ⟨rest, (hsplit ▸ h).drop, hrest, fun x hx => ?_⟩
  cases later with
  | nil =>
    rw [List.nil_append, List.cons.injEq] at hsplit
    rwa [hsplit.2]
  | cons y later =>
    rw [List.cons_append, List.cons.injEq] at hsplit
    simp [hsplit.2, hx]

theorem reachable_entry : Reachable entry edges entry := ⟨[], .start⟩

theorem Reachable.step (h : Reachable entry edges a) (hedge : b ∈ edges.getD a []) :
    Reachable entry edges b := by
  obtain ⟨before, hwalk⟩ := h
  exact ⟨a :: before, hwalk.step hedge⟩

/-- A reachable block is the entry or has a reachable predecessor. -/
theorem Reachable.cases_pred (h : Reachable entry edges b) :
    b = entry ∨ ∃ p, Reachable entry edges p ∧ b ∈ edges.getD p [] := by
  obtain ⟨before, hwalk⟩ := h
  cases hwalk with
  | start => exact .inl rfl
  | step hwalk hedge => exact .inr ⟨_, ⟨_, hwalk⟩, hedge⟩

/-! ## Dominance -/

theorem Dominates.refl (b : BlockId) : Dominates entry edges b b :=
  fun _ _ => List.mem_cons_self

theorem Dominates.trans (hab : Dominates entry edges a b) (hbc : Dominates entry edges b c) :
    Dominates entry edges a c := by
  intro before hwalk
  obtain ⟨later, rest, hsplit⟩ := List.append_of_mem (hbc before hwalk)
  rw [hsplit] at hwalk ⊢
  exact List.mem_append_right _ (hab rest hwalk.drop)

theorem Dominates.antisymm (hb : Reachable entry edges b) (hab : Dominates entry edges a b)
    (hba : Dominates entry edges b a) : a = b := by
  obtain ⟨before, hwalk⟩ := hb
  obtain ⟨rest, hfirst, hnot, -⟩ := hwalk.exists_first
  rcases List.mem_cons.1 (hab rest hfirst) with h | h
  · exact h
  · obtain ⟨later, rest', rfl⟩ := List.append_of_mem h
    have hdrop : Walk entry edges (a :: rest') := (List.cons_append ▸ hfirst : Walk entry edges
      ((b :: later) ++ a :: rest')).drop
    exact absurd (List.mem_append_right _ (hba rest' hdrop)) hnot

theorem Dominates.reachable (hb : Reachable entry edges b) (h : Dominates entry edges a b) :
    Reachable entry edges a := by
  obtain ⟨before, hwalk⟩ := hb
  exact hwalk.reachable (h before hwalk)

theorem dominates_of_entry (b : BlockId) : Dominates entry edges entry b :=
  fun _ hwalk => hwalk.entry_mem

theorem Dominates.eq_entry (h : Dominates entry edges a entry) : a = entry :=
  List.mem_singleton.1 (h [] .start)

/-- What dominates a block from outside dominates its predecessors. -/
theorem Dominates.pred (h : Dominates entry edges a b) (hne : a ≠ b)
    (hedge : b ∈ edges.getD c []) : Dominates entry edges a c := by
  intro before hwalk
  rcases List.mem_cons.1 (h _ (hwalk.step hedge)) with h | h
  · exact absurd h hne
  · exact h

/-- The blocks that dominate one block form a chain. -/
theorem Dominates.total (hc : Reachable entry edges c) (hac : Dominates entry edges a c)
    (hbc : Dominates entry edges b c) :
    Dominates entry edges a b ∨ Dominates entry edges b a := by
  by_contra hnone
  obtain ⟨hab, hba⟩ := not_or.1 hnone
  obtain ⟨toB, hwalkB, hnotA⟩ : ∃ rest, Walk entry edges (b :: rest) ∧ a ∉ b :: rest := by
    simpa [Dominates] using hab
  obtain ⟨toA, hwalkA, hnotB⟩ : ∃ rest, Walk entry edges (a :: rest) ∧ b ∉ a :: rest := by
    simpa [Dominates] using hba
  obtain ⟨before, hwalk⟩ := hc
  -- cut the walk to `c` at the later one of the two and reach that one without the other
  have hfind : ((c :: before).find? fun x => x = a ∨ x = b).isSome := by
    rw [List.find?_isSome]
    exact ⟨a, hac before hwalk, by simp⟩
  obtain ⟨z, hz⟩ := Option.isSome_iff_exists.1 hfind
  obtain ⟨hz, later, rest, hsplit, hlater⟩ := List.find?_eq_some_iff_append.1 hz
  simp only [decide_eq_true_eq] at hz
  rcases hz with rfl | rfl
  · obtain ⟨before', hwalk', heq⟩ := hwalk.reroute hsplit hwalkA
    have hmem := heq ▸ hbc before' hwalk'
    rcases List.mem_append.1 hmem with hmem | hmem
    · simpa using hlater _ hmem
    · exact hnotB hmem
  · obtain ⟨before', hwalk', heq⟩ := hwalk.reroute hsplit hwalkB
    have hmem := heq ▸ hac before' hwalk'
    rcases List.mem_append.1 hmem with hmem | hmem
    · simpa using hlater _ hmem
    · exact hnotA hmem

end Whittle.Ir
