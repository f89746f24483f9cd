import Mathlib.Logic.Relation
import Mathlib.Order.Bounds.Defs
import Mathlib.Tactic.Common
import Whittle.Proofs.Flow.Frontier
import Whittle.Ssa.Phis

/-!
# Where versions meet

The search for joins takes one block at a time from a queue, which a block joins at most once, so that it
ends.  What one round of it keeps (`Searching.step`) makes the blocks that it finds the least set that
contains the frontier of every site and of every block found.

So a block that records a version is, on every walk, left with that version until the walk comes to
another block that records one: such a block dominates all that the walk passes afterwards
(`FrontierClosed.last_dominates`), and following immediate dominators finds it.
-/

namespace Whittle.Ir

open Whittle.Ir.Flow

/-! ## The iterated frontier -/

/-- All members of frontiers, with repetitions. -/
def frontierMembers (frontier : BlockSets) : List BlockId := frontier.values.flatMap (·.keys)

theorem length_frontierMembers (frontier : BlockSets) :
    (frontierMembers frontier).length = frontier.total (·.size) := by
  have hfold (l : List (KeySet BlockId)) (n : Nat) :
      l.foldl (fun sum s => sum + s.size) n = n + (l.flatMap (·.keys)).length := by
    induction l generalizing n with
    | nil => rfl
    | cons s l ih =>
      rw [List.foldl_cons, ih, List.flatMap_cons, List.length_append, Table.length_keys]
      omega
  rw [Table.total, hfold, frontierMembers, Nat.zero_add]

theorem mem_frontierMembers {frontier : BlockSets} {x y : BlockId} (h : Has frontier x y) :
    y ∈ frontierMembers frontier := by
  cases hget : frontier.get? x with
  | none => simp [Has, Table.getD, hget] at h
  | some s =>
    rw [Has, Table.getD_of_get? hget] at h
    exact List.mem_flatMap.2 ⟨s, Table.mem_values.2 ⟨x, hget⟩, Table.mem_keys.2 h⟩

/-- Sets of blocks that contain the frontiers of the sites and of their own blocks. -/
def FrontiersWithin (frontier : BlockSets) (sites : Set BlockId) : Set (Set BlockId) :=
  {s | ∀ x ∈ sites ∪ s, ∀ y, Has frontier x y → y ∈ s}

/-- One round of the search: the first block leaves the queue, and the members of its frontier that were not
found before are found.  Those that are no sites join the queue. -/
inductive SearchStep (frontier : BlockSets) (sites : KeySet BlockId) :
    List BlockId × List BlockId → List BlockId × List BlockId → Prop
  | take (block : BlockId) (queue joins : List BlockId) :
      SearchStep frontier sites (block :: queue, joins)
        (queue ++ ((frontier.getD block ∅).keys.filter (!joins.contains ·)).filter (!sites.contains ·),
          joins ++ (frontier.getD block ∅).keys.filter (!joins.contains ·))

/-- What holds all along of the queue and of the blocks found. -/
structure Searching (frontier : BlockSets) (sites : KeySet BlockId) (queue joins : List BlockId) :
    Prop where
  /-- No block is found twice. -/
  nodup : joins.Nodup
  /-- Only members of frontiers are found. -/
  found : ∀ y ∈ joins, ∃ x, Has frontier x y
  /-- Only sites and blocks that were found are in the queue. -/
  queued : ∀ x ∈ queue, sites.contains x = true ∨ x ∈ joins
  /-- The frontiers of sites and of blocks found are found, but for those in the queue. -/
  closed : ∀ x, sites.contains x = true ∨ x ∈ joins → x ∈ queue ∨ ∀ y, Has frontier x y → y ∈ joins
  /-- Nothing is found that such a set could do without. -/
  least : ∀ s ∈ FrontiersWithin frontier {b | sites.contains b = true}, ∀ y ∈ joins, y ∈ s

variable {frontier : BlockSets} {sites : KeySet BlockId} {queue joins : List BlockId}

theorem searching_start : Searching frontier sites sites.keys [] := by
  constructor
  · exact .nil
  · simp
  · intro x hx
    exact .inl (Table.mem_keys.1 hx)
  · intro x hx
    rcases hx with hx | hx
    · exact .inl (Table.mem_keys.2 hx)
    · cases hx
  · simp

/-- A round of the search keeps the invariant. -/
theorem Searching.step {state : List BlockId × List BlockId} (h : Searching frontier sites queue joins)
    (hstep : SearchStep frontier sites (queue, joins) state) :
    Searching frontier sites state.1 state.2 := by
  cases hstep with
  | take block queue joins =>
    generalize hlist : (frontier.getD block ∅).keys.filter (!joins.contains ·) = new
    have hnew (y : BlockId) : y ∈ new ↔ Has frontier block y ∧ y ∉ joins := by
      simp [← hlist, Has, Table.mem_keys]
    have hblock := h.queued block List.mem_cons_self
    constructor
    · have hnodup : new.Nodup := hlist ▸ (Table.keys_nodup _).filter _
      refine List.nodup_append.2 ⟨h.nodup, hnodup, ?_⟩
      rintro a ha b hb rfl
      exact ((hnew a).1 hb).2 ha
    · intro y hy
      rcases List.mem_append.1 hy with hy | hy
      · exact h.found y hy
      · exact ⟨block, ((hnew y).1 hy).1⟩
    · intro x hx
      rcases List.mem_append.1 hx with hx | hx
      · exact (h.queued x (List.mem_cons_of_mem _ hx)).imp id (List.mem_append_left _)
      · exact .inr (List.mem_append_right _ (List.mem_of_mem_filter hx))
    · intro x hx
      -- `block` itself is done with now; a block that is new and no site joins the queue
      by_cases hxb : x = block
      · subst hxb
        right
        intro y hy
        by_cases hyj : y ∈ joins
        · exact List.mem_append_left _ hyj
        · exact List.mem_append_right _ ((hnew y).2 ⟨hy, hyj⟩)
      by_cases hold : sites.contains x = true ∨ x ∈ joins
      · rcases h.closed x hold with hq | hall
        · rcases List.mem_cons.1 hq with hq | hq
          · exact absurd hq hxb
          · exact .inl (List.mem_append_left _ hq)
        · right
          intro y hy
          exact List.mem_append_left _ (hall y hy)
      · obtain ⟨hsite, hjoins⟩ := not_or.1 hold
        have hxnew : x ∈ new := by
          rcases hx with hx | hx
          · exact absurd hx hsite
          · exact (List.mem_append.1 hx).resolve_left hjoins
        exact .inl (List.mem_append_right _ (List.mem_filter.2 ⟨hxnew, by simpa using hsite⟩))
    · intro s hs y hy
      rcases List.mem_append.1 hy with hy | hy
      · exact h.least s hs y hy
      · have hin : block ∈ {b | sites.contains b = true} ∪ s := hblock.imp id (h.least s hs block)
        exact hs block hin y ((hnew y).1 hy).1

/-- What the search has found is not more than there are members of frontiers. -/
theorem Searching.length_le (h : Searching frontier sites queue joins) :
    joins.length ≤ (frontierMembers frontier).length := by
  have hsub : joins ⊆ frontierMembers frontier := by
    intro y hy
    obtain ⟨x, hx⟩ := h.found y hy
    exact mem_frontierMembers hx
  exact (List.subperm_of_subset h.nodup hsub).length_le

/-- With fuel for the queue and for the blocks still to be found, the search goes on, round by round, until
the queue is empty. -/
theorem joinsFrom_search {fuel : Nat} (h : Searching frontier sites queue joins)
    (hfuel : queue.length + (frontierMembers frontier).length ≤ fuel + joins.length) :
    Relation.ReflTransGen (SearchStep frontier sites) (queue, joins)
        ([], joinsFrom frontier sites fuel queue joins) ∧
      Searching frontier sites [] (joinsFrom frontier sites fuel queue joins) := by
  have hlength := h.length_le
  fun_induction joinsFrom frontier sites fuel queue joins with
  | case1 queue joins =>
    obtain rfl : queue = [] := List.length_eq_zero_iff.1 (by omega)
    exact ⟨.refl, h⟩
  | case2 fuel joins => exact ⟨.refl, h⟩
  | case3 fuel block queue joins new ih =>
    have hstep : SearchStep frontier sites (block :: queue, joins) _ := .take block queue joins
    have hnext := h.step hstep
    have hle := List.length_filter_le (!sites.contains ·) new
    obtain ⟨hrun, hend⟩ := ih hnext
      (by simp only [List.length_cons, List.length_append] at hfuel ⊢; omega) hnext.length_le
    exact ⟨.head hstep hrun, hend⟩

/-- The search for the iterated frontier comes to an empty queue. -/
theorem iteratedFrontier_search (frontier : BlockSets) (sites : KeySet BlockId) :
    Relation.ReflTransGen (SearchStep frontier sites) (sites.keys, [])
        ([], iteratedFrontier frontier sites) ∧
      Searching frontier sites [] (iteratedFrontier frontier sites) := by
  apply joinsFrom_search searching_start
  rw [Table.length_keys, length_frontierMembers, List.length_nil]
  omega

/-- The iterated frontier contains the frontiers of the sites and of its own blocks. -/
theorem iteratedFrontier_closed {x y : BlockId}
    (hx : sites.contains x = true ∨ x ∈ iteratedFrontier frontier sites)
    (hxy : Has frontier x y) : y ∈ iteratedFrontier frontier sites :=
  ((iteratedFrontier_search frontier sites).2.closed x hx).resolve_left List.not_mem_nil y hxy

/-- The iterated frontier is the least set with this property. -/
theorem iteratedFrontier_isLeast (frontier : BlockSets) (sites : KeySet BlockId) :
    IsLeast (FrontiersWithin frontier {b | sites.contains b = true})
      {b | b ∈ iteratedFrontier frontier sites} := by
  constructor
  · intro x hx y hxy
    exact iteratedFrontier_closed hx hxy
  · intro s hs y hy
    exact (iteratedFrontier_search frontier sites).2.least s hs y hy

theorem iteratedFrontier_nodup (frontier : BlockSets) (sites : KeySet BlockId) :
    (iteratedFrontier frontier sites).Nodup :=
  (iteratedFrontier_search frontier sites).2.nodup

/-- Every join is in the frontier of some block. -/
theorem exists_of_mem_iteratedFrontier {y : BlockId} (h : y ∈ iteratedFrontier frontier sites) :
    ∃ x, Has frontier x y :=
  (iteratedFrontier_search frontier sites).2.found y h

/-! ## The last block of a walk that records a version -/

variable {entry : BlockId} {edges : Edges}

/-- A set of blocks that contains the frontier of each of its blocks. -/
def FrontierClosed (entry : BlockId) (edges : Edges) (marked : BlockId → Prop) : Prop :=
  ∀ x y, marked x → Has (compute entry edges).frontier x y → marked y

/-- After the last marked block of a walk, every block is strictly dominated by it. -/
theorem FrontierClosed.strictlyDominates {marked : BlockId → Prop}
    (hclosed : FrontierClosed entry edges marked) (hcontains : edges.contains entry = true)
    (hpred : ∀ p, Reachable entry edges p → entry ∉ edges.getD p []) {later rest : List BlockId}
    {q : BlockId} (hwalk : Walk entry edges (later ++ q :: rest)) (hq : marked q)
    (hlater : ∀ b ∈ later, ¬ marked b) : ∀ x ∈ later, StrictlyDominates entry edges q x := by
  induction later with
  | nil => simp
  | cons x later ih =>
    have hwalk' : Walk entry edges (later ++ q :: rest) := by
      cases later <;> cases hwalk <;> assumption
    have hrest := ih hwalk' fun b hb => hlater b (List.mem_cons_of_mem _ hb)
    obtain ⟨p, hp, hedge, hqp⟩ : ∃ p, Reachable entry edges p ∧ x ∈ edges.getD p [] ∧
        Dominates entry edges q p := by
      cases later with
      | nil =>
        cases hwalk with
        | step hw hedge => exact ⟨q, ⟨_, hw⟩, hedge, Dominates.refl q⟩
      | cons y later =>
        cases hwalk with
        | step hw hedge => exact ⟨y, ⟨_, hw⟩, hedge, (hrest y List.mem_cons_self).2⟩
    intro z hz
    rcases List.mem_cons.1 hz with rfl | hz
    · by_contra hnot
      have hne : z ≠ entry := by
        rintro rfl
        exact hpred p hp hedge
      have hfront := (has_frontier_iff hcontains).2 ⟨.inl hne, p, hp, hedge, hqp, hnot⟩
      exact hlater z List.mem_cons_self (hclosed q z hq hfront)
    · exact hrest z hz

/-- The last marked block of a walk to `p` dominates `p`, and every marked block that dominates `p`
dominates it. -/
theorem FrontierClosed.last_dominates {marked : BlockId → Prop}
    (hclosed : FrontierClosed entry edges marked) (hcontains : edges.contains entry = true)
    (hpred : ∀ p, Reachable entry edges p → entry ∉ edges.getD p [])
    {before later rest : List BlockId} {p q : BlockId} (hwalk : Walk entry edges (p :: before))
    (hsplit : p :: before = later ++ q :: rest) (hq : marked q) (hlater : ∀ b ∈ later, ¬ marked b) :
    Dominates entry edges q p ∧
      ∀ z, Dominates entry edges z p → marked z → Dominates entry edges z q := by
  have hwalk' := hwalk
  rw [hsplit] at hwalk'
  have hqp : Dominates entry edges q p := by
    have hall := hclosed.strictlyDominates hcontains hpred hwalk' hq hlater
    cases later with
    | nil =>
      cases hsplit
      exact Dominates.refl _
    | cons y later =>
      cases hsplit
      exact (hall _ List.mem_cons_self).2
  refine ⟨hqp, fun z hz hmarked => ?_⟩
  rcases Dominates.total ⟨before, hwalk⟩ hz hqp with h | hqz
  · exact h
  by_cases hzq : z = q
  · rw [hzq]
    exact Dominates.refl q
  -- reach `q` for the first time, so without `z`, and go on as before, again without `z`
  obtain ⟨first, hfirst, hnew, -⟩ := hwalk'.drop.exists_first
  obtain ⟨before', hnewWalk, hnewSplit⟩ := hwalk.reroute hsplit hfirst
  have hmem : z ∈ later ++ q :: first := hnewSplit ▸ hz before' hnewWalk
  rcases List.mem_append.1 hmem with hmem | hmem
  · exact absurd hmarked (hlater z hmem)
  · rcases List.mem_cons.1 hmem with hmem | hmem
    · exact absurd hmem hzq
    · obtain ⟨front, back, rfl⟩ := List.append_of_mem hmem
      have hdrop : Walk entry edges ((q :: front) ++ z :: back) := hfirst
      exact absurd (List.mem_append_right _ (hqz back hdrop.drop)) hnew

end Whittle.Ir
