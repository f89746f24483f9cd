import Mathlib.Logic.Relation
import Mathlib.Tactic.Common
import Whittle.Proofs.Flow.Dominators

/-!
# Reducible graphs

Blocks are laid out when they stand in an order that every edge follows, but for one edge to the test
of each loop that is closed.  The body of such a loop is entered through its test only, so that the
test dominates the block that leads back to it.  It follows that the back edges are the edges against
the order and no others.

Main statement: `Layout.reducible`, about the control flow facts of blocks that are laid out and have
edges to each other only.
-/

namespace Whittle.Ir

/-- All blocks that a terminal mentions: where execution may go on, and where arms meet. -/
def Terminal.mentions : Terminal → List BlockId
  | .jump target => [target]
  | .branch _ consequent alternate fallthrough => [consequent, alternate, fallthrough]
  | .ret _ => []

theorem Terminal.mem_mentions {t : Terminal} {b : BlockId} (h : b ∈ t.successors) :
    b ∈ t.mentions := by
  cases t with
  | jump target => exact h
  | branch test consequent alternate fallthrough =>
    simp only [successors, mentions, List.mem_cons] at h ⊢
    tauto
  | ret value => cases h

/-- An edge leads from one block to another. -/
def Edge (blocks : Table BlockId Block) (p t : BlockId) : Prop := t ∈ (edgesOf blocks).getD p []

theorem edge_iff {blocks : Table BlockId Block} {p t : BlockId} :
    Edge blocks p t ↔ ∃ block, blocks.get? p = some block ∧ t ∈ block.successors := by
  rw [Edge, edgesOf, Table.getD, Table.get?_map]
  cases blocks.get? p with
  | none => simp
  | some block => simp

/-- A block ends in a branch. -/
def EndsInBranch (blocks : Table BlockId Block) (b : BlockId) : Prop :=
  ∃ block test consequent alternate fallthrough, blocks.get? b = some block ∧
    block.terminal = some (.branch test consequent alternate fallthrough)

/-- Blocks that have ended and are entered through the test of their loop only. -/
structure IsBody (entry : BlockId) (blocks : Table BlockId Block) (head : BlockId)
    (body : BlockId → Prop) : Prop where
  entry : ¬ body entry
  ended : ∀ b, body b → blocks.contains b = true
  gate : ∀ p t, Edge blocks p t → body t → body p ∨ p = head

/-- Blocks stand in an order that every edge follows, but for the ones that lead back to the tests of
loops.  The tests of loops that are not closed yet are in no body. -/
structure Layout (entry : BlockId) (blocks : Table BlockId Block) (heads : List BlockId)
    (rank : BlockId → Nat) (latch : BlockId → Option BlockId) : Prop where
  bounded : ∃ n, ∀ b, blocks.contains b = true → rank b < n
  edges : ∀ p t, Edge blocks p t → blocks.contains t = true → rank p < rank t ∨ latch t = some p
  closed : ∀ head source, latch head = some source → head ∉ heads ∧ EndsInBranch blocks head ∧
    ∃ body, IsBody entry blocks head body ∧ body source ∧ ∀ h ∈ heads, ¬ body h

variable {entry : BlockId} {blocks : Table BlockId Block}

/-- Every walk into a body passes through the test of the loop. -/
theorem IsBody.head_mem {head : BlockId} {body : BlockId → Prop} (h : IsBody entry blocks head body)
    {b : BlockId} {before : List BlockId} (hwalk : Walk entry (edgesOf blocks) (b :: before))
    (hb : body b) : head ∈ before := by
  generalize hlist : b :: before = list at hwalk
  induction hwalk generalizing b before with
  | start =>
    cases hlist
    exact absurd hb h.entry
  | step _ hedge ih =>
    cases hlist
    rcases h.gate _ _ hedge hb with hin | rfl
    · exact List.mem_cons_of_mem _ (ih hin rfl)
    · exact List.mem_cons_self

section

variable {heads : List BlockId} {rank : BlockId → Nat} {latch : BlockId → Option BlockId}
  {p t : BlockId}

/-- The test of a loop dominates the block that leads back to it. -/
theorem Layout.dominates (h : Layout entry blocks heads rank latch) (hlatch : latch t = some p) :
    Dominates entry (edgesOf blocks) t p := by
  obtain ⟨-, -, body, hbody, hsource, -⟩ := h.closed t p hlatch
  intro before hwalk
  exact List.mem_cons_of_mem _ (hbody.head_mem hwalk hsource)

/-- Whatever is reachable is reachable in order. -/
theorem Layout.exists_sorted (h : Layout entry blocks heads rank latch)
    (hclosed : ∀ p t, Edge blocks p t → blocks.contains t = true)
    (ht : Reachable entry (edgesOf blocks) t) :
    ∃ before, Walk entry (edgesOf blocks) (t :: before) ∧
      (t :: before).Pairwise fun later earlier => rank earlier < rank later := by
  obtain ⟨way, hwalk⟩ := ht
  generalize hlist : t :: way = list at hwalk
  induction hwalk generalizing t way with
  | start =>
    cases hlist
    exact ⟨[], .start, List.pairwise_singleton ..⟩
  | @step p t _ _ hedge ih =>
    cases hlist
    obtain ⟨before, hsorted, hpairs⟩ := ih _ rfl
    rcases h.edges p t hedge (hclosed p t hedge) with hlt | hlatch
    · refine ⟨p :: before, hsorted.step hedge, List.pairwise_cons.2 ⟨fun x hx => ?_, hpairs⟩⟩
      rcases List.mem_cons.1 hx with rfl | hx
      · exact hlt
      · exact Nat.lt_trans ((List.pairwise_cons.1 hpairs).1 x hx) hlt
    · -- an edge back adds nothing: the way to its source has passed its target
      obtain ⟨later, rest, hsplit⟩ := List.append_of_mem (h.dominates hlatch before hsorted)
      rw [hsplit] at hsorted hpairs
      exact ⟨rest, hsorted.drop, (List.pairwise_append.1 hpairs).2.1⟩

/-- The edges to a dominator are those that lead back to the test of a loop. -/
theorem Layout.isLoopEdge_iff (h : Layout entry blocks heads rank latch)
    (hclosed : ∀ p t, Edge blocks p t → blocks.contains t = true)
    (hp : Reachable entry (edgesOf blocks) p) (hedge : Edge blocks p t) :
    Flow.IsLoopEdge entry (edgesOf blocks) p t ↔ latch t = some p := by
  constructor
  · rintro ⟨-, -, hdom⟩
    refine (h.edges p t hedge (hclosed p t hedge)).resolve_left fun hlt => ?_
    obtain ⟨before, hwalk, hpairs⟩ := h.exists_sorted hclosed hp
    rcases List.mem_cons.1 (hdom before hwalk) with rfl | hmem
    · exact Nat.lt_irrefl _ hlt
    · exact Nat.lt_asymm hlt ((List.pairwise_cons.1 hpairs).1 t hmem)
  · intro hlatch
    exact ⟨hp, hedge, h.dominates hlatch⟩

end

/-! ## One more block -/

section

variable {heads heads' : List BlockId} {rank : BlockId → Nat} {latch : BlockId → Option BlockId}
  {b : BlockId} {block : Block}

theorem edge_insert {p t : BlockId} :
    Edge (blocks.insert b block) p t ↔ if p = b then t ∈ block.successors else Edge blocks p t := by
  rw [edge_iff, edge_iff, Table.get?_insert]
  split
  · simp
  · rfl

theorem EndsInBranch.contains (h : EndsInBranch blocks b) : blocks.contains b = true := by
  obtain ⟨block, _, _, _, _, hblock, -⟩ := h
  exact Table.contains_iff.2 ⟨block, hblock⟩

theorem EndsInBranch.insert {head : BlockId} (h : EndsInBranch blocks head)
    (hnew : blocks.contains b = false) : EndsInBranch (blocks.insert b block) head := by
  have hne : head ≠ b := by
    rintro rfl
    rw [h.contains] at hnew
    cases hnew
  obtain ⟨old, test, consequent, alternate, fallthrough, hold, hterminal⟩ := h
  exact ⟨old, test, consequent, alternate, fallthrough, by rw [Table.get?_insert, if_neg hne, hold],
    hterminal⟩

theorem IsBody.insert {head : BlockId} {body : BlockId → Prop} (h : IsBody entry blocks head body)
    (ht : ∀ t ∈ block.successors, ¬ body t) : IsBody entry (blocks.insert b block) head body := by
  refine ⟨h.entry, fun x hx => ?_, fun p t hedge hbody => ?_⟩
  · rw [Table.contains_insert, h.ended x hx, Bool.or_true]
  · rw [edge_insert] at hedge
    split at hedge
    · exact absurd hbody (ht t hedge)
    · exact h.gate p t hedge hbody

/-- Loops that are closed stay so when a block ends that leads into none of them. -/
theorem Layout.closed_insert (h : Layout entry blocks heads rank latch)
    (hnew : blocks.contains b = false)
    (ht : ∀ t ∈ block.successors, blocks.contains t = false ∨ t ∈ heads)
    (hheads : ∀ x ∈ heads', x ∈ heads ∨ x = b) {head source : BlockId}
    (hlatch : latch head = some source) :
    head ∉ heads' ∧ EndsInBranch (blocks.insert b block) head ∧
      ∃ body, IsBody entry (blocks.insert b block) head body ∧ body source ∧ ∀ x ∈ heads', ¬ body x := by
  obtain ⟨hopen, hbranch, body, hbody, hsource, hapart⟩ := h.closed head source hlatch
  have hnot (x : BlockId) (hx : blocks.contains x = false) : ¬ body x := fun hin => by
    rw [hbody.ended x hin] at hx
    cases hx
  refine ⟨fun hmem => ?_, hbranch.insert hnew, body, hbody.insert fun t hin => ?_, hsource,
    fun x hx => ?_⟩
  · rcases hheads head hmem with hmem | rfl
    · exact hopen hmem
    · rw [hbranch.contains] at hnew
      cases hnew
  · rcases ht t hin with hin | hin
    · exact hnot t hin
    · exact hapart t hin
  · rcases hheads x hx with hx | rfl
    · exact hapart x hx
    · exact hnot x hnew

/-- A block that ends comes last in the order. -/
theorem Layout.insert (h : Layout entry blocks heads rank latch) (hnew : blocks.contains b = false)
    (block : Block) (heads' : List BlockId) (latch' : BlockId → Option BlockId)
    (hkept : ∀ head source, latch head = some source → latch' head = some source)
    (ht : ∀ t ∈ block.successors, t ≠ b ∧ (blocks.contains t = true → latch' t = some b))
    (hclosed : ∀ head source, latch' head = some source → head ∉ heads' ∧
      EndsInBranch (blocks.insert b block) head ∧ ∃ body,
        IsBody entry (blocks.insert b block) head body ∧ body source ∧ ∀ x ∈ heads', ¬ body x) :
    ∃ rank', Layout entry (blocks.insert b block) heads' rank' latch' := by
  obtain ⟨n, hn⟩ := h.bounded
  have hne {x : BlockId} (hx : blocks.contains x = true) : x ≠ b := by
    rintro rfl
    rw [hx] at hnew
    cases hnew
  refine ⟨fun x => if x = b then n else rank x, ⟨n + 1, fun x hx => ?_⟩, fun p t hedge hcontains => ?_,
    hclosed⟩
  · rw [Table.contains_insert, Bool.or_eq_true, decide_eq_true_eq] at hx
    split
    · exact Nat.lt_succ_self n
    · next hxb => exact Nat.lt_succ_of_lt (hn x (hx.resolve_left hxb))
  · rw [Table.contains_insert, Bool.or_eq_true, decide_eq_true_eq] at hcontains
    rw [edge_insert] at hedge
    split at hedge
    · next hpb =>
      obtain ⟨htb, hlatch⟩ := ht t hedge
      exact .inr (hpb ▸ hlatch (hcontains.resolve_left htb))
    · next hpb =>
      obtain ⟨old, hold, -⟩ := edge_iff.1 hedge
      have hp : blocks.contains p = true := Table.contains_iff.2 ⟨old, hold⟩
      rw [if_neg hpb]
      rcases hcontains with rfl | hcontains
      · rw [if_pos rfl]
        exact .inl (hn p hp)
      · rw [if_neg (hne hcontains)]
        exact (h.edges p t hedge hcontains).imp_right (hkept t p)

/-- A block ends that leads to blocks which have not ended. -/
theorem Layout.onward (h : Layout entry blocks heads rank latch) (hnew : blocks.contains b = false)
    (ht : ∀ t ∈ block.successors, blocks.contains t = false ∧ t ≠ b)
    (hheads : ∀ x ∈ heads', x ∈ heads ∨ x = b) :
    ∃ rank' latch', Layout entry (blocks.insert b block) heads' rank' latch' := by
  obtain ⟨rank', hlayout⟩ := h.insert hnew block heads' latch (fun _ _ hlatch => hlatch)
    (fun t hin => ⟨(ht t hin).2, fun hcontains => by
      rw [(ht t hin).1] at hcontains
      cases hcontains⟩)
    (fun _ _ hlatch => h.closed_insert hnew (fun t hin => .inl (ht t hin).1) hheads hlatch)
  exact ⟨rank', latch, hlayout⟩

end

/-! ## What it means for the facts -/

/-- A reachable edge that is no back edge. -/
def Function.Advances (f : Function) (p t : BlockId) : Prop :=
  f.flow.isReachable p = true ∧ Edge f.blocks p t ∧ f.flow.isBackEdge p t = false

/-- The blocks of a function lead to each other, and its loops are entered at their tests only. -/
structure Function.Reducible (f : Function) : Prop where
  /-- Every block ends, and mentions blocks of the function only. -/
  ends : ∀ b block, f.blocks.get? b = some block →
    ∃ terminal, block.terminal = some terminal ∧ ∀ t ∈ terminal.mentions, f.blocks.contains t = true
  /-- Nothing leads to the entry. -/
  entry : (∀ p, ¬ Edge f.blocks p f.entry) ∧ f.flow.predecessorsOf f.entry = []
  /-- No block has two back edges. -/
  backEdge : ∀ b, ∃ source, f.flow.backEdge b = .ok source
  /-- A block with a back edge ends in a branch. -/
  loops : ∀ b source, f.flow.backEdge b = .ok (some source) → EndsInBranch f.blocks b
  /-- Without the back edges no way leads from a reachable block to itself. -/
  acyclic : ∀ b, ¬ Relation.TransGen f.Advances b b

/-- Blocks that are laid out and mention each other only make a reducible graph. -/
theorem Layout.reducible {f : Function} {heads : List BlockId} {rank : BlockId → Nat}
    {latch : BlockId → Option BlockId} (h : Layout f.entry f.blocks heads rank latch)
    (hflow : f.flow = Flow.compute f.entry (edgesOf f.blocks))
    (hcontains : f.blocks.contains f.entry = true)
    (hends : ∀ b block, f.blocks.get? b = some block → ∃ terminal, block.terminal = some terminal ∧
      ∀ t ∈ terminal.mentions, f.blocks.contains t = true)
    (hentry : ∀ p, ¬ Edge f.blocks p f.entry) : f.Reducible := by
  have hexact := Flow.exact_compute hcontains
  rw [← hflow] at hexact
  have hclosed (p t : BlockId) (hedge : Edge f.blocks p t) : f.blocks.contains t = true := by
    obtain ⟨block, hblock, ht⟩ := edge_iff.1 hedge
    obtain ⟨terminal, hterminal, hmentions⟩ := hends p block hblock
    rw [Block.successors, hterminal] at ht
    exact hmentions t (Terminal.mem_mentions ht)
  have hlatch {p t : BlockId} (hloop : Flow.IsLoopEdge f.entry (edgesOf f.blocks) p t) :
      latch t = some p := (h.isLoopEdge_iff hclosed hloop.1 hloop.2.1).1 hloop
  refine ⟨hends, ⟨hentry, ?_⟩, fun b => ?_, fun b source hsource => ?_, fun b hcycle => ?_⟩
  · rw [List.eq_nil_iff_forall_not_mem]
    intro p hp
    have hp : Flow.Has f.flow.predecessors f.entry p := Table.mem_keys.1 hp
    rw [hflow] at hp
    exact hentry p (Flow.has_predecessorSets.1 hp).2
  · cases hback : f.flow.backEdge b with
    | ok source => exact ⟨source, rfl⟩
    | error e =>
      obtain ⟨p, q, hne, hp, hq⟩ := (hexact.backEdge_error_iff b).1 ⟨e, hback⟩
      exact absurd (Option.some.inj ((hlatch hp).symm.trans (hlatch hq))) hne
  · have hmem : (f.flow.backEdges.getD b ∅).contains source = true := by
      rw [Flow.backEdge] at hsource
      rw [← Table.mem_keys]
      split at hsource
      · cases hsource
      · next hkeys =>
        cases hsource
        rw [hkeys]
        exact List.mem_singleton_self _
      · cases hsource
    exact (h.closed b source (hlatch ((hexact.mem_backEdges_iff b source).1 hmem))).2.1
  · have hrank {p t : BlockId} (hway : Relation.TransGen f.Advances p t) : rank p < rank t := by
      have hstep {p t : BlockId} (hedge : f.Advances p t) : rank p < rank t := by
        obtain ⟨hreach, hedge, hback⟩ := hedge
        refine (h.edges p t hedge (hclosed p t hedge)).resolve_right fun hsome => ?_
        have hloop := (h.isLoopEdge_iff hclosed ((hexact.isReachable_iff p).1 hreach) hedge).2 hsome
        rw [Flow.isBackEdge, (hexact.mem_backEdges_iff t p).2 hloop] at hback
        cases hback
      induction hway with
      | single hedge => exact hstep hedge
      | tail _ hedge ih => exact Nat.lt_trans ih (hstep hedge)
    exact Nat.lt_irrefl _ (hrank hcycle)

end Whittle.Ir
