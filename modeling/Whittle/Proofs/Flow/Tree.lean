import Mathlib.Tactic.Common
import Whittle.Proofs.Flow.Frontier

/-!
# The dominator tree

Closest dominators make a tree with the entry at its root.  Climbing it from any block ends, because a
block further up has fewer dominators; a climb passes no more blocks than there are dominators of the block
that it starts from.

Main statements: `immediate_exact` and `frontier_exact`, what `Flow.compute` says about closest dominators
and about dominance frontiers in terms of walks.
-/

namespace Whittle.Ir.Flow

variable {entry : BlockId} {edges : Edges}

/-! ## Closest dominators -/

/-- Closest dominators that are named exactly when walks bear them out. -/
structure ExactImmediate (entry : BlockId) (edges : Edges) (flow : Flow) : Prop where
  /-- A reachable block other than the entry has a closest dominator, and only one. -/
  closest : ∀ b, Reachable entry edges b → b ≠ entry → ∃ d, flow.immediate.get? b = some d ∧
    ImmediatelyDominates entry edges d b ∧ ∀ d', ImmediatelyDominates entry edges d' b → d' = d
  /-- No other block that dominates it has as many dominators, so the choice among equals is never made. -/
  largest : ∀ b d, flow.immediate.get? b = some d → ∀ a, StrictlyDominates entry edges a b → a ≠ d →
    (flow.dominators.getD a ∅).size < (flow.dominators.getD d ∅).size
  /-- The entry has none. -/
  entry_none : flow.immediate.get? entry = none
  /-- A block that no walk reaches has none. -/
  unreachable_none : ∀ b, ¬ Reachable entry edges b → flow.immediate.get? b = none

theorem immediate_of_not_reachable (hentry : edges.contains entry = true) {b : BlockId}
    (hb : ¬ Reachable entry edges b) : (compute entry edges).immediate.get? b = none := by
  cases hget : (compute entry edges).immediate.get? b with
  | none => rfl
  | some d => exact absurd ((get?_immediate_iff hentry).1 hget).1 hb

/-- Whatever the blocks, as long as the entry is one of them: the closest dominators that are computed are
exact. -/
theorem immediate_exact (entry : BlockId) (blocks : Table BlockId Block)
    (hentry : blocks.contains entry = true) :
    ExactImmediate entry (edgesOf blocks) (compute entry (edgesOf blocks)) := by
  have hentry' : (edgesOf blocks).contains entry = true := by
    rwa [edgesOf, Table.contains_map]
  constructor
  · intro b hb hne
    obtain ⟨d, hget, hd⟩ := exists_immediate hentry' hb hne
    refine ⟨d, hget, hd, ?_⟩
    intro d' hd'
    exact hd'.unique hb hd
  · intro b d hget a ha hne
    obtain ⟨hb, hd⟩ := (get?_immediate_iff hentry').1 hget
    exact size_dominators_lt hentry' (hd.1.2.reachable hb) ⟨hne, hd.2 a ha⟩
  · exact get?_immediate_entry hentry'
  · intro b hb
    exact immediate_of_not_reachable hentry' hb

theorem immediate_exact_tangledBlocks : tangledBlocks.contains ⟨0⟩ = true ∧
    ExactImmediate ⟨0⟩ (edgesOf tangledBlocks) (compute ⟨0⟩ (edgesOf tangledBlocks)) := by
  have hentry : tangledBlocks.contains ⟨0⟩ = true := by decide
  exact ⟨hentry, immediate_exact ⟨0⟩ tangledBlocks hentry⟩

/-! ## Climbing -/

/-- The blocks that a climb along closest dominators passes on its way from a block to `stop`, or to the
top where it does not come to `stop`. -/
inductive Ascent (immediate : Table BlockId BlockId) (stop : Option BlockId) :
    Option BlockId → List BlockId → Prop
  | top : Ascent immediate stop none []
  | stop {block : BlockId} (hstop : stop = some block) : Ascent immediate stop (some block) []
  | pass {block : BlockId} {above : List BlockId} (hstop : stop ≠ some block)
      (habove : Ascent immediate stop (immediate.get? block) above) :
      Ascent immediate stop (some block) (block :: above)

/-- Climbing with fuel for every block passed adds the join to the frontiers of the blocks passed. -/
theorem Ascent.climb_eq {immediate : Table BlockId BlockId} {stop start : Option BlockId}
    {passed : List BlockId} (h : Ascent immediate stop start passed) (join : BlockId) {fuel : Nat}
    (hfuel : passed.length ≤ fuel) (sets : BlockSets) :
    climb immediate join stop fuel start sets =
      passed.foldl (fun sets block => addTo sets block join) sets := by
  induction h generalizing fuel sets with
  | top => cases fuel <;> rfl
  | stop hstop =>
    cases fuel with
    | zero => rfl
    | succ fuel => simp [climb, hstop]
  | @pass block above hstop habove ih =>
    cases fuel with
    | zero => simp at hfuel
    | succ fuel =>
      have hcond : ¬ (some block == stop) = true := by
        simpa using Ne.symm hstop
      rw [climb, if_neg hcond, List.foldl_cons]
      apply ih
      simpa using hfuel

/-- Every climb ends, after no more blocks than the first one has dominators. -/
theorem exists_ascent (hentry : edges.contains entry = true) (stop : Option BlockId) {b : BlockId}
    (hb : Reachable entry edges b) :
    ∃ passed, Ascent (compute entry edges).immediate stop (some b) passed ∧
      passed.length ≤ ((compute entry edges).dominators.getD b ∅).size := by
  -- the number of dominators decreases on the way up
  induction hn : ((compute entry edges).dominators.getD b ∅).size using Nat.strongRecOn
    generalizing b with
  | _ n ih =>
    by_cases hstop : stop = some b
    · exact ⟨[], .stop hstop, Nat.zero_le _⟩
    by_cases hbe : b = entry
    · have htop : (compute entry edges).immediate.get? b = none := by
        rw [hbe]
        exact get?_immediate_entry hentry
      have hpos : 0 < n := hn ▸ size_dominators_pos hentry hb
      refine ⟨[b], .pass hstop ?_, hpos⟩
      rw [htop]
      exact .top
    · obtain ⟨d, hget, hd⟩ := exists_immediate hentry hb hbe
      have hlt : ((compute entry edges).dominators.getD d ∅).size < n :=
        hn ▸ size_dominators_lt hentry hb hd.1
      obtain ⟨passed, hpassed, hlength⟩ := ih _ hlt (hd.1.2.reachable hb) rfl
      refine ⟨b :: passed, .pass hstop ?_, ?_⟩
      · rwa [hget]
      · rw [List.length_cons]
        omega

/-! ## Frontiers -/

theorem contains_climb {immediate : Table BlockId BlockId} {join : BlockId} {stop : Option BlockId}
    {fuel : Nat} {start : Option BlockId} {sets : BlockSets} {x : BlockId}
    (h : sets.contains x = true) : (climb immediate join stop fuel start sets).contains x = true := by
  fun_induction climb immediate join stop fuel start sets with
  | case1 => exact h
  | case2 => exact h
  | case3 => exact h
  | case4 fuel block sets hstop ih => exact ih (contains_addTo.2 (.inl h))

/-- Every block has a frontier, if only an empty one. -/
theorem contains_frontiers {predecessors : BlockSets} {immediate : Table BlockId BlockId} {x : BlockId}
    (h : predecessors.contains x = true) : (frontiers predecessors immediate).contains x = true := by
  unfold frontiers
  apply List.foldlRecOn (motive := fun sets : BlockSets => sets.contains x = true)
  · rwa [Table.contains_map]
  · intro sets hsets e _
    split
    · exact hsets
    · apply List.foldlRecOn (motive := fun sets : BlockSets => sets.contains x = true)
      · exact hsets
      · intro sets' hsets' p _
        exact contains_climb hsets'

/-- An edge from a block that a walk reaches. -/
def Precedes (entry : BlockId) (edges : Edges) (p b : BlockId) : Prop :=
  Reachable entry edges p ∧ b ∈ edges.getD p []

/-- Dominance frontiers that hold exactly the blocks where the dominance of a block ends. -/
structure ExactFrontier (entry : BlockId) (edges : Edges) (flow : Flow) : Prop where
  /-- The frontier of a reachable block: it dominates a block before them, but not strictly the blocks
  themselves.  The entry is one of them only if two blocks lead to it. -/
  frontier : ∀ x, Reachable entry edges x → ∃ s, flow.frontier.get? x = some s ∧
    ∀ y, s.contains y = true ↔
      (y ≠ entry ∨ ∃ p q, p ≠ q ∧ Precedes entry edges p y ∧ Precedes entry edges q y) ∧
        ∃ p, Precedes entry edges p y ∧ Dominates entry edges x p ∧ ¬ StrictlyDominates entry edges x y
  /-- A block that no walk reaches has an empty frontier. -/
  unreachable : ∀ x, edges.contains x = true → ¬ Reachable entry edges x →
    flow.frontier.get? x = some ∅
  /-- Every climb that adds to frontiers ends by itself. -/
  climbs : ∀ y p, p ∈ flow.predecessorsOf y → ∃ passed,
    Ascent flow.immediate (flow.immediate.get? y) (some p) passed ∧
      ∀ sets, climb flow.immediate y (flow.immediate.get? y) (flow.predecessors.size + 1) (some p) sets =
        passed.foldl (fun sets x => addTo sets x y) sets

/-- Whatever the blocks, as long as the entry is one of them: the frontiers that are computed are exact. -/
theorem frontier_exact (entry : BlockId) (blocks : Table BlockId Block)
    (hentry : blocks.contains entry = true) :
    ExactFrontier entry (edgesOf blocks) (compute entry (edgesOf blocks)) := by
  have hentry' : (edgesOf blocks).contains entry = true := by
    rwa [edgesOf, Table.contains_map]
  have hget (x : BlockId) (hx : (predecessorSets entry (edgesOf blocks)).contains x = true) :
      ∃ s, (compute entry (edgesOf blocks)).frontier.get? x = some s :=
    Table.contains_iff.1 (contains_frontiers hx)
  constructor
  · intro x hx
    obtain ⟨s, hs⟩ := hget x (contains_of_reachable hentry' hx)
    refine ⟨s, hs, ?_⟩
    intro y
    have hiff := has_frontier_iff hentry' (x := x) (y := y)
    rw [Has, Table.getD_of_get? hs] at hiff
    simp only [hiff, has_predecessorSets, Precedes, and_assoc]
  · intro x hblock hx
    obtain ⟨s, hs⟩ := hget x (contains_predecessorSets.2 (.inl hblock))
    have hempty : s = ∅ := by
      apply KeySet.ext_contains
      intro y
      rw [Table.contains_empty]
      by_contra hy
      have hhas : Has (compute entry (edgesOf blocks)).frontier x y := by
        rw [Has, Table.getD_of_get? hs]
        simpa using hy
      obtain ⟨-, p, hp, -, hdom, -⟩ := (has_frontier_iff hentry').1 hhas
      exact hx (hdom.reachable hp)
    rw [hs, hempty]
  · intro y p hp
    obtain ⟨hreach, -⟩ := has_predecessorSets.1 (Table.mem_keys.1 hp)
    obtain ⟨passed, hpassed, hlength⟩ :=
      exists_ascent hentry' ((compute entry (edgesOf blocks)).immediate.get? y) hreach
    refine ⟨passed, hpassed, ?_⟩
    intro sets
    have hle := size_dominators_le hentry' p
    exact hpassed.climb_eq y (Nat.le_succ_of_le (hlength.trans hle)) sets

theorem frontier_exact_tangledBlocks : tangledBlocks.contains ⟨0⟩ = true ∧
    ExactFrontier ⟨0⟩ (edgesOf tangledBlocks) (compute ⟨0⟩ (edgesOf tangledBlocks)) := by
  have hentry : tangledBlocks.contains ⟨0⟩ = true := by decide
  exact ⟨hentry, frontier_exact ⟨0⟩ tangledBlocks hentry⟩

end Whittle.Ir.Flow
