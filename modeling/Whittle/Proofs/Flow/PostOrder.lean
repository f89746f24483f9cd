import Mathlib.Tactic.Common
import Whittle.Proofs.DepthFirst
import Whittle.Proofs.Flow.Dominators

/-!
# Blocks in post-order

The loop behind `Flow.postOrder` keeps the open blocks on a stack, each with the successors that it has still to go
to.  What a stack leads to is a walk in depth along these successors for one block after the other, the latest
first; every round of the loop goes on with the same walk, and there are more rounds than edges and blocks need.
The first walk starts from the entry, and so finds exactly the reachable blocks.

Main statement: `Flow.postOrder_exact`.
-/

namespace Whittle.Ir

namespace Flow

variable {flow : Flow} {acc acc' : KeySet BlockId × List BlockId} {stack : List (BlockId × List BlockId)}

/-! ## The loop -/

/-- From one state to another the open blocks of a stack are gone on with and finished, one after the other. -/
inductive Descent (flow : Flow) : List (BlockId × List BlockId) → KeySet BlockId × List BlockId →
    KeySet BlockId × List BlockId → Prop
  | nil (acc : KeySet BlockId × List BlockId) : Descent flow [] acc acc
  | cons {block : BlockId} {later : List BlockId} {stack : List (BlockId × List BlockId)}
      {acc acc' : KeySet BlockId × List BlockId} {seen : KeySet BlockId} {done : List BlockId}
      (hlater : DepthFirst.Walk flow.successorsOf later acc (seen, done))
      (hrest : Descent flow stack (seen, block :: done) acc') : Descent flow ((block, later) :: stack) acc acc'

/-- No more rounds than this are needed: the open blocks are finished, and the edges that have not been gone along
are, with a block behind each. -/
def pending (flow : Flow) (stack : List (BlockId × List BlockId)) (seen : KeySet BlockId) : Nat :=
  (stack.map fun frame => 2 * frame.2.length + 1).sum +
    2 * Entries.totalOutside (·.size) seen flow.successors.entries

theorem pending_open {seen : KeySet BlockId} {block : BlockId} (hnew : seen.contains block = false) :
    flow.pending ((block, flow.successorsOf block) :: stack) (seen.add block) = flow.pending stack seen + 1 := by
  have hopen : Entries.totalOutside (·.size) seen flow.successors.entries =
      (flow.successors.getD block ∅).size + Entries.totalOutside (·.size) (seen.add block) flow.successors.entries :=
    Table.totalOutside_add_getD flow.successors hnew rfl
  have hsize : (flow.successorsOf block).length = (flow.successors.getD block ∅).size := Table.length_keys _
  simp only [pending, List.map_cons, List.sum_cons, hopen, hsize]
  omega

/-- Round by round the loop does what its stack leads to. -/
theorem descent_descend (fuel : Nat) (hfuel : flow.pending stack acc.1 ≤ fuel) :
    Descent flow stack acc (flow.descend fuel stack acc) := by
  fun_induction descend flow fuel stack acc with
  | case1 stack acc =>
    cases stack with
    | nil => exact .nil acc
    | cons frame stack => simp [pending] at hfuel
  | case2 => exact .nil _
  | case3 fuel block stack seen done ih =>
    refine .cons (.nil _) (ih ?_)
    simp only [pending, List.map_cons, List.sum_cons, List.length_nil] at hfuel ⊢
    omega
  | case4 fuel block s later stack seen done hseen ih =>
    have hrest := ih (by simp only [pending, List.map_cons, List.sum_cons, List.length_cons] at hfuel ⊢; omega)
    cases hrest with
    | cons hlater hrest => exact .cons (.skip hseen hlater) hrest
  | case5 fuel block s later stack seen done hnew ih =>
    have hnew' : seen.contains s = false := by simpa using hnew
    have hrest := ih (by
      rw [pending_open hnew']
      simp only [pending, List.map_cons, List.sum_cons, List.length_cons] at hfuel ⊢
      omega)
    cases hrest with
    | cons hs hrest =>
      cases hrest with
      | cons hlater hrest => exact .cons (.visit hnew' hs hlater) hrest

theorem walk_walkFrom (root : BlockId) (acc : KeySet BlockId × List BlockId) :
    DepthFirst.Walk flow.successorsOf [root] acc (flow.walkFrom acc root) := by
  obtain ⟨seen, done⟩ := acc
  rw [walkFrom]
  split
  · next hseen => exact .skip hseen (.nil _)
  · next hnew =>
    have hnew' : seen.contains root = false := by simpa using hnew
    have hdescent : Descent flow [(root, flow.successorsOf root)] (seen.add root, done) _ :=
      descent_descend (2 * flow.successors.total (·.size) + 1) (by
        rw [pending_open hnew', pending, List.map_nil, List.sum_nil, Nat.zero_add]
        exact Nat.succ_le_succ (Nat.mul_le_mul_left 2 (Table.totalOutside_le _ _ _)))
    generalize flow.descend _ _ _ = acc' at hdescent
    cases hdescent with
    | cons hlater hrest =>
      cases hrest
      exact .visit hnew' hlater (.nil _)

theorem walk_foldl_walkFrom (roots : List BlockId) (acc : KeySet BlockId × List BlockId) :
    DepthFirst.Walk flow.successorsOf roots acc (roots.foldl flow.walkFrom acc) :=
  .foldl (fun acc root => walk_walkFrom root acc) roots acc

/-! ## Computed facts -/

variable {entry : BlockId} {edges : Edges} {a b u v : BlockId}

theorem has_transpose {sets : BlockSets} : Has (transpose sets) a b ↔ Has sets b a := by
  have hstep (acc : BlockSets) (e : BlockId × KeySet BlockId) :
      Has (e.2.keys.foldl (fun acc p => addTo acc p e.1) acc) a b ↔ Has acc a b ∨ (a ∈ e.2.keys ∧ b = e.1) := by
    rw [foldl_adds_iff (P := (Has · a b)) (R := fun p => a = p ∧ b = e.1) _ fun _ _ _ => has_addTo]
    simp
  rw [transpose, foldl_adds_iff (P := (Has · a b)) _ fun acc e _ => hstep acc e]
  simp only [not_has_map_empty, false_or, Table.mem_keys]
  constructor
  · rintro ⟨⟨c, members⟩, hmem, ha, rfl⟩
    rwa [Has, Table.getD_of_get? (Table.mem_entries.1 hmem)]
  · intro h
    cases hget : sets.get? b with
    | none => simp [Has, Table.getD, hget] at h
    | some members =>
      rw [Has, Table.getD_of_get? hget] at h
      exact ⟨(b, members), Table.mem_entries.2 hget, h, rfl⟩

/-- The successors of reachable blocks are those along edges; other blocks have none. -/
theorem mem_successorsOf_compute :
    v ∈ (compute entry edges).successorsOf u ↔ Reachable entry edges u ∧ v ∈ edges.getD u [] := by
  rw [successorsOf, Table.mem_keys]
  exact has_transpose.trans has_predecessorSets

theorem reachable_of_leads (h : DepthFirst.Leads (compute entry edges).successorsOf u v) : Reachable u edges v := by
  induction h with
  | refl => exact reachable_entry
  | tail _ hstep ih => exact ih.step (mem_successorsOf_compute.1 hstep).2

theorem leads_entry_iff :
    DepthFirst.Leads (compute entry edges).successorsOf entry b ↔ Reachable entry edges b := by
  refine ⟨reachable_of_leads, ?_⟩
  rintro ⟨before, hwalk⟩
  generalize hblocks : b :: before = blocks at hwalk
  induction hwalk generalizing b before with
  | start =>
    cases hblocks
    exact .refl
  | step hwalk hedge ih =>
    cases hblocks
    exact .tail (ih _ rfl) (mem_successorsOf_compute.2 ⟨⟨_, hwalk⟩, hedge⟩)

/-- The order is that of a walk from the entry, which is finished last in it, and then from all other blocks. -/
theorem exists_walks_compute (entry : BlockId) (edges : Edges) : ∃ seen done seen',
    DepthFirst.Walk (compute entry edges).successorsOf [entry] (∅, []) (seen, entry :: done) ∧
    DepthFirst.Walk (compute entry edges).successorsOf (compute entry edges).predecessors.keys (seen, entry :: done)
      (seen', (compute entry edges).reversePostOrder) := by
  have hwalk : DepthFirst.Walk (compute entry edges).successorsOf (entry :: (compute entry edges).predecessors.keys)
      (∅, []) (_, (compute entry edges).reversePostOrder) := walk_foldl_walkFrom _ _
  cases hwalk with
  | skip hseen _ => cases hseen
  | visit hnew hnext hrest => exact ⟨_, _, _, .visit hnew hnext (.nil _), hrest⟩

/-- The walk from the entry finishes exactly the reachable blocks. -/
theorem mem_done_iff_reachable {seen : KeySet BlockId} {done : List BlockId}
    (hwalk : DepthFirst.Walk (compute entry edges).successorsOf [entry] (∅, []) (seen, done)) :
    b ∈ done ↔ Reachable entry edges b := by
  rw [hwalk.mem_done_iff, ← leads_entry_iff]
  constructor
  · rintro (hmem | ⟨hseen, hnew⟩)
    · cases hmem
    · obtain ⟨x, hx, hleads⟩ := hwalk.leads hseen hnew
      exact List.mem_singleton.1 hx ▸ hleads
  · exact fun hleads => .inr ⟨hwalk.seen_of_leads (List.mem_singleton_self entry) hleads, rfl⟩

/-- The walk from the entry finishes a block before the blocks that dominate it. -/
theorem sublist_of_strictlyDominates {seen : KeySet BlockId} {done : List BlockId}
    (hwalk : DepthFirst.Walk (compute entry edges).successorsOf [entry] (∅, []) (seen, done))
    (hb : Reachable entry edges b) (h : StrictlyDominates entry edges a b) : [a, b].Sublist done := by
  refine hwalk.sublist_of_behind (P := StrictlyDominates entry edges a) (fun x y hy hdom => ?_) (fun h => h.1 rfl)
    (fun x hx hdom => ?_) (List.mem_singleton_self entry) (leads_entry_iff.2 hb) h
  · rw [or_iff_not_imp_left]
    exact fun hx => ⟨Ne.symm hx, hdom.2.pred hdom.1 (mem_successorsOf_compute.1 hy).2⟩
  · rw [List.mem_singleton.1 hx] at hdom
    exact hdom.1 hdom.2.eq_entry

theorem mem_reversePostOrder_compute_iff :
    b ∈ (compute entry edges).reversePostOrder ↔
      b = entry ∨ (compute entry edges).predecessors.contains b = true := by
  obtain ⟨seen, done, seen', hfirst, hrest⟩ := exists_walks_compute entry edges
  have hwalk := hfirst.append hrest
  have hdone : b ∈ (compute entry edges).reversePostOrder ↔ _ := hwalk.mem_done_iff
  have hroots : b = entry ∨ (compute entry edges).predecessors.contains b = true ↔
      b ∈ [entry] ++ (compute entry edges).predecessors.keys := by
    simp [Table.mem_keys]
  rw [hdone, hroots]
  constructor
  · rintro (hmem | ⟨hseen, hnew⟩)
    · cases hmem
    · obtain ⟨x, hx, hleads⟩ := hwalk.leads hseen hnew
      rcases Relation.ReflTransGen.cases_tail hleads with rfl | ⟨w, -, hstep⟩
      · exact hx
      · have hpred := has_predecessorSets.2 (mem_successorsOf_compute.1 hstep)
        exact List.mem_cons_of_mem _ (Table.mem_keys.2 (contains_predecessorSets.2 (.inr ⟨w, hpred⟩)))
  · exact fun hmem => .inr ⟨hwalk.seen_of_mem hmem, rfl⟩

/-! ## What the order says -/

/-- Blocks of a graph in the order in which a walk in depth from the entry leaves them. -/
structure ExactPostOrder (entry : BlockId) (blocks : Table BlockId Block) (flow : Flow) : Prop where
  /-- The blocks of the graph are in it, and all to which edges of reachable blocks lead. -/
  mem_iff : ∀ b, b ∈ flow.postOrder ↔ blocks.contains b = true ∨
    ∃ p, Reachable entry (edgesOf blocks) p ∧ b ∈ (edgesOf blocks).getD p []
  /-- Each of them is in it once. -/
  nodup : flow.postOrder.Nodup
  /-- The reachable blocks come first, and the entry is the last of them. -/
  reachable_first : ∃ first rest, flow.postOrder = first ++ entry :: rest ∧
    (∀ b ∈ first, Reachable entry (edgesOf blocks) b) ∧ ∀ b ∈ rest, ¬ Reachable entry (edgesOf blocks) b
  /-- What an edge leads to comes before its source, unless a walk leads back from there. -/
  target_first : ∀ u v, Reachable entry (edgesOf blocks) u → v ∈ (edgesOf blocks).getD u [] →
    ¬ Reachable v (edgesOf blocks) u → [v, u].Sublist flow.postOrder
  /-- A reachable block comes before the blocks that every walk to it passes. -/
  dominated_first : ∀ a b, Reachable entry (edgesOf blocks) b → StrictlyDominates entry (edgesOf blocks) a b →
    [b, a].Sublist flow.postOrder
  /-- A block comes before those that dominate it by the computed facts. -/
  strictlyDominates_first : ∀ a b, flow.strictlyDominates a b = true → [b, a].Sublist flow.postOrder

theorem strictlyDominates_compute (hentry : edges.contains entry = true)
    (h : (compute entry edges).strictlyDominates a b = true) :
    Reachable entry edges b ∧ StrictlyDominates entry edges a b := by
  rw [strictlyDominates, Bool.and_eq_true, bne_iff_ne] at h
  obtain ⟨hne, hdom⟩ : a ≠ b ∧ Has (dominatorSets entry (predecessorSets entry edges)) b a := h
  have hb : Reachable entry edges b := by
    by_contra hb
    exact hne (eq_of_has_dominatorSets hentry hb hdom)
  exact ⟨hb, hne, (has_dominatorSets hentry hb).1 hdom⟩

theorem exactPostOrder_compute {blocks : Table BlockId Block} (hentry : blocks.contains entry = true) :
    ExactPostOrder entry blocks (compute entry (edgesOf blocks)) := by
  obtain ⟨seen, done, seen', hfirst, hrest⟩ := exists_walks_compute entry (edgesOf blocks)
  have hedges (b : BlockId) : (edgesOf blocks).contains b = blocks.contains b := Table.contains_map _ _ _
  have hnodup : (compute entry (edgesOf blocks)).reversePostOrder.Nodup :=
    (hfirst.append hrest).nodup List.nodup_nil fun _ h => nomatch h
  have hordered : DepthFirst.InOrder _ (compute entry (edgesOf blocks)).reversePostOrder :=
    (hfirst.append hrest).inOrder (fun _ h => nomatch h) trivial
  have hsuffix : entry :: done <:+ (compute entry (edgesOf blocks)).reversePostOrder := hrest.done_suffix
  have hreached (b : BlockId) : b ∈ entry :: done ↔ Reachable entry (edgesOf blocks) b :=
    mem_done_iff_reachable hfirst
  have hdominated (a b : BlockId) (hb : Reachable entry (edgesOf blocks) b)
      (hdom : StrictlyDominates entry (edgesOf blocks) a b) :
      [b, a].Sublist (compute entry (edgesOf blocks)).postOrder :=
    List.reverse_sublist.2 ((sublist_of_strictlyDominates hfirst hb hdom).trans hsuffix.sublist)
  refine ⟨fun b => ?_, (List.reverse_perm _).nodup_iff.2 hnodup, ?_, fun u v hu hedge hback => ?_, hdominated,
    fun a b hdom => ?_⟩
  · rw [postOrder, List.mem_reverse, mem_reversePostOrder_compute_iff]
    have hmem : (compute entry (edgesOf blocks)).predecessors.contains b = true ↔ _ := contains_predecessorSets
    rw [hmem, hedges]
    simp only [has_predecessorSets]
    exact or_iff_right_of_imp fun hb => .inl (hb ▸ hentry)
  · obtain ⟨rest, hsplit⟩ := hsuffix
    refine ⟨done.reverse, rest.reverse, ?_, fun b hb => ?_, fun b hb hreach => ?_⟩
    · rw [postOrder, ← hsplit]
      simp
    · exact (hreached b).1 (List.mem_cons_of_mem _ (List.mem_reverse.1 hb))
    · rw [← hsplit] at hnodup
      exact (List.nodup_append.1 hnodup).2.2 b (List.mem_reverse.1 hb) b ((hreached b).2 hreach) rfl
  · have hnext := mem_successorsOf_compute.2 ⟨hu, hedge⟩
    exact List.reverse_sublist.2 (hordered.sublist (hsuffix.mem ((hreached u).2 hu)) hnext
      fun hleads => hback (reachable_of_leads hleads))
  · obtain ⟨hb, hdom⟩ := strictlyDominates_compute (by rwa [hedges]) hdom
    exact hdominated a b hb hdom

/-- Whatever the blocks, as long as the entry is one of them: the post-order of the facts about their control flow is
that of a walk in depth from the entry. -/
theorem postOrder_exact (entry : BlockId) (blocks : Table BlockId Block) (hentry : blocks.contains entry = true) :
    ExactPostOrder entry blocks (compute entry (edgesOf blocks)) :=
  exactPostOrder_compute hentry

/-- The loop of the tangled blocks is left at its missing exit first, and the block that nothing leads to comes last. -/
theorem postOrder_exact_tangledBlocks : tangledBlocks.contains ⟨0⟩ = true ∧
    (compute ⟨0⟩ (edgesOf tangledBlocks)).postOrder = [⟨9⟩, ⟨2⟩, ⟨1⟩, ⟨0⟩, ⟨3⟩] ∧
    ExactPostOrder ⟨0⟩ tangledBlocks (compute ⟨0⟩ (edgesOf tangledBlocks)) :=
  have hentry : tangledBlocks.contains ⟨0⟩ = true := by decide
  ⟨hentry, by decide, postOrder_exact ⟨0⟩ tangledBlocks hentry⟩

end Flow

/-- Every block of a graph stands in the post-order of its facts. -/
theorem mem_postOrder_compute {entry : BlockId} {edges : Edges} {b : BlockId}
    (h : edges.contains b = true) : b ∈ (Flow.compute entry edges).postOrder :=
  List.mem_reverse.2 (Flow.mem_reversePostOrder_compute_iff.2 (.inr (Flow.contains_predecessorSets.2 (.inl h))))

end Whittle.Ir
