import Mathlib.Tactic.Common
import Whittle.Proofs.Optimize.Flow

/-!
# Functions that run straight through

A function runs straight when plain jumps lead from its entry to a return.  Nothing ever makes a
function straight that was not: passes remove blocks and jumps, but never a branch.  No block of a
straight function has two predecessors, so none of its phis has two operands.

Main statement: `Function.Straight.operands_le_one`.
-/

namespace Whittle.Ir

namespace Function

variable {f f' f'' : Function} {env : Environment} {id p q b : BlockId} {n k : Nat}

/-! ## Jumps on the way to a return -/

/-- Plain jumps lead from a block to a return; the number counts them. -/
inductive LeadsOut (f : Function) : BlockId → Nat → Prop
  | ret {id : BlockId} {b : Block} {value : Option Place} :
      f.blocks.get? id = some b → b.terminal = some (.ret value) → LeadsOut f id 0
  | jump {id target : BlockId} {b : Block} {n : Nat} :
      f.blocks.get? id = some b → b.terminal = some (.jump target) → LeadsOut f target n →
      LeadsOut f id (n + 1)

/-- A function that runs straight through to a return. -/
def Straight (f : Function) : Prop := ∃ n, f.LeadsOut f.entry n

theorem LeadsOut.unique (h : f.LeadsOut id n) (h' : f.LeadsOut id k) : n = k := by
  induction h generalizing k with
  | ret hb ht =>
    cases h' with
    | ret => rfl
    | jump hb' ht' _ => simp_all
  | jump hb ht _ ih =>
    cases h' with
    | ret hb' ht' => simp_all
    | jump hb' ht' hrest =>
      rw [hb] at hb'
      obtain rfl := Option.some.inj hb'
      rw [ht] at ht'
      obtain rfl := Terminal.jump.inj (Option.some.inj ht')
      rw [ih hrest]

/-- A block on the way has one successor, which is on the way. -/
theorem LeadsOut.of_edge (h : f.LeadsOut p n) (hedge : b ∈ (edgesOf f.blocks).getD p []) :
    ∃ k, n = k + 1 ∧ f.LeadsOut b k ∧ ∀ c ∈ (edgesOf f.blocks).getD p [], c = b := by
  rw [edgesOf, Table.getD, Table.get?_map] at hedge ⊢
  cases h with
  | ret hb ht => simp [hb, Block.successors, ht, Terminal.successors] at hedge
  | jump hb ht hrest =>
    simp only [hb, Option.map_some, Option.getD_some, Block.successors, ht, Terminal.successors,
      List.mem_singleton] at hedge ⊢
    subst hedge
    exact ⟨_, rfl, hrest, fun _ hc => hc⟩

/-- Every reachable block of a straight function is on the way, and all but the entry are closer to
the return. -/
theorem LeadsOut.of_reachable (h : f.LeadsOut f.entry n)
    (hreach : Reachable f.entry (edgesOf f.blocks) b) :
    ∃ k, f.LeadsOut b k ∧ (b = f.entry ∨ k < n) := by
  obtain ⟨before, hwalk⟩ := hreach
  generalize hblocks : b :: before = blocks at hwalk
  induction hwalk generalizing b before with
  | start =>
    cases hblocks
    exact ⟨n, h, .inl rfl⟩
  | step _ hedge ih =>
    cases hblocks
    obtain ⟨k, hk, hle⟩ := ih _ rfl
    obtain ⟨k, rfl, hnext, -⟩ := hk.of_edge hedge
    refine ⟨k, hnext, .inr ?_⟩
    rcases hle with rfl | hlt
    · have := hk.unique h
      omega
    · omega

/-- Blocks on the way are told apart by how far they are from the return. -/
theorem LeadsOut.eq_of_reachable (h : f.LeadsOut f.entry n)
    (hp : Reachable f.entry (edgesOf f.blocks) p) (hq : Reachable f.entry (edgesOf f.blocks) q)
    (hpk : f.LeadsOut p k) (hqk : f.LeadsOut q k) : p = q := by
  obtain ⟨before, hwalk⟩ := hp
  generalize hblocks : p :: before = blocks at hwalk
  induction hwalk generalizing p q before k with
  | start =>
    cases hblocks
    obtain ⟨_, hk, rfl | hlt⟩ := h.of_reachable hq
    · rfl
    · have := hpk.unique h
      have := hqk.unique hk
      omega
  | step hwalk hedge ih =>
    cases hblocks
    obtain ⟨_, hp', -⟩ := h.of_reachable ⟨_, hwalk⟩
    obtain ⟨_, rfl, hnext, honly⟩ := hp'.of_edge hedge
    obtain rfl := hpk.unique hnext
    rcases hq.cases_pred with rfl | ⟨q', hreach', hedge'⟩
    · -- the entry is the block farthest away
      obtain ⟨j, hj, rfl | hlt⟩ := h.of_reachable ⟨_, hwalk⟩
      · have := h.unique hp'
        have := h.unique hqk
        omega
      · have := hj.unique hp'
        have := h.unique hqk
        omega
    · obtain ⟨_, hq', -⟩ := h.of_reachable hreach'
      obtain ⟨_, rfl, hnext', -⟩ := hq'.of_edge hedge'
      obtain rfl := hnext'.unique hqk
      -- the blocks before them are one block by the induction, and it has one successor
      obtain rfl := ih hreach' hp' hq' _ rfl
      exact (honly q hedge').symm

theorem Straight.predecessor_unique (h : f.Straight) (hflow : f.HasFlow)
    (hp : p ∈ f.flow.predecessorsOf b) (hq : q ∈ f.flow.predecessorsOf b) : p = q := by
  obtain ⟨n, hn⟩ := h
  obtain ⟨hpreach, hpedge⟩ := (mem_predecessorsOf hflow).1 hp
  obtain ⟨hqreach, hqedge⟩ := (mem_predecessorsOf hflow).1 hq
  obtain ⟨_, hpk, -⟩ := hn.of_reachable hpreach
  obtain ⟨_, hqk, -⟩ := hn.of_reachable hqreach
  obtain ⟨_, rfl, hb, -⟩ := hpk.of_edge hpedge
  obtain ⟨_, rfl, hb', -⟩ := hqk.of_edge hqedge
  obtain rfl := hb.unique hb'
  exact hn.eq_of_reachable hpreach hqreach hpk hqk

/-- In a function that runs straight through, nothing is joined. -/
theorem Straight.operands_le_one (h : f.Straight) (hflow : f.HasFlow) (env : Environment) :
    ∀ phi ∈ (f.buildSsa env).1.phis, phi.operands.size ≤ 1 := by
  intro phi hphi
  have hmem (b : BlockId) (hb : b ∈ phi.operands.keys) : b ∈ f.flow.predecessorsOf phi.block := by
    obtain ⟨operand, hoperand⟩ := Table.contains_iff.1 (Table.mem_keys.1 hb)
    exact mem_predecessorsOf_of_operand hphi hoperand
  have hnodup := phi.operands.keys_nodup
  rw [← Table.length_keys]
  match hkeys : phi.operands.keys with
  | [] => exact Nat.zero_le 1
  | [_] => exact Nat.le_refl 1
  | p :: q :: rest =>
    rw [hkeys] at hmem hnodup
    have heq := h.predecessor_unique hflow (hmem p (by simp)) (hmem q (by simp))
    simp [heq] at hnodup

/-! ## Bodies to copy -/

/-- The blocks of a chain are different blocks of the function, and the chain leads out. -/
theorem chainFrom_eq_some {fuel : Nat} {seen : List BlockId} {chain : List Block}
    (h : f.chainFrom fuel id seen = some chain) :
    (∃ n, f.LeadsOut id n) ∧ ∃ es : List (BlockId × Block), chain = es.map (·.2) ∧ es.Nodup ∧
      ∀ e ∈ es, f.blocks.get? e.1 = some e.2 ∧ e.1 ∉ seen := by
  induction fuel generalizing id seen chain with
  | zero => cases h
  | succ fuel ih =>
    rw [chainFrom] at h
    split at h
    · cases h
    · next hseen =>
      obtain ⟨b, hb, h⟩ := Option.bind_eq_some_iff.1 h
      have hnew : id ∉ seen := by simpa using hseen
      split at h
      · next target hterminal =>
        obtain ⟨rest, hrest, h⟩ := Option.bind_eq_some_iff.1 h
        obtain rfl := Option.some.inj h
        obtain ⟨⟨n, hn⟩, es, rfl, hnodup, hes⟩ := ih hrest
        refine ⟨⟨n + 1, .jump hb hterminal hn⟩, (id, b) :: es, rfl, List.nodup_cons.2 ⟨?_, hnodup⟩,
          List.forall_mem_cons.2 ⟨⟨hb, hnew⟩, ?_⟩⟩
        · intro hmem
          exact (hes _ hmem).2 List.mem_cons_self
        · intro e he
          obtain ⟨hget, hout⟩ := hes e he
          exact ⟨hget, fun hmem => hout (List.mem_cons_of_mem _ hmem)⟩
      · next value hterminal =>
        obtain rfl := Option.some.inj h
        exact ⟨⟨0, .ret hb hterminal⟩, [(id, b)], rfl, by simp, by simpa using ⟨hb, hnew⟩⟩
      · cases h

theorem straightBody?_eq_some {body : List Block} (h : f.straightBody? = some body) :
    f.Straight ∧ body.Subperm f.blocks.values := by
  obtain ⟨chain, hchain, h⟩ := Option.bind_eq_some_iff.1 h
  split at h
  · obtain rfl := Option.some.inj h
    obtain ⟨hstraight, es, rfl, hnodup, hes⟩ := chainFrom_eq_some hchain
    have hentries : es.Subperm f.blocks.entries := by
      apply List.subperm_of_subset hnodup
      intro e he
      exact Table.mem_entries.2 (hes e he).1
    obtain ⟨es', hperm, hsub⟩ := hentries
    exact ⟨hstraight, es'.map (·.2), hperm.map _, hsub.map _⟩
  · cases h

/-! ## What was straight before -/

theorem SameFlow.leadsOut (h : f.SameFlow f') (hn : f'.LeadsOut id n) : f.LeadsOut id n := by
  have hending (id : BlockId) (b' : Block) (hb' : f'.blocks.get? id = some b') :
      ∃ b, f.blocks.get? id = some b ∧ b.ending = b'.ending := by
    have hsame := h.endings id
    rw [hb'] at hsame
    exact Option.map_eq_some_iff.1 hsame.symm
  induction hn with
  | ret hb' ht =>
    obtain ⟨b, hb, hsame⟩ := hending _ _ hb'
    rw [Block.ending, Block.ending, ht] at hsame
    obtain ⟨t, ht, hret⟩ := Option.map_eq_some_iff.1 hsame
    cases t with
    | ret value => exact .ret hb ht
    | jump | branch => cases hret
  | jump hb' ht _ ih =>
    obtain ⟨b, hb, hsame⟩ := hending _ _ hb'
    rw [Block.ending, Block.ending, ht] at hsame
    obtain ⟨t, ht', hjump⟩ := Option.map_eq_some_iff.1 hsame
    cases t with
    | jump target' =>
      obtain rfl := Terminal.jump.inj hjump
      exact .jump hb ht' ih
    | ret | branch => cases hjump

theorem SameFlow.straight (h : f.SameFlow f') (hf' : f'.Straight) : f.Straight := by
  obtain ⟨n, hn⟩ := hf'
  rw [h.entry] at hn
  exact ⟨n, h.leadsOut hn⟩

theorem LeadsOut.of_fewer (hn : f'.LeadsOut id n)
    (hblocks : ∀ id b, f'.blocks.get? id = some b → f.blocks.get? id = some b) : f.LeadsOut id n := by
  induction hn with
  | ret hb ht => exact .ret (hblocks _ _ hb) ht
  | jump hb ht _ ih => exact .jump (hblocks _ _ hb) ht ih

theorem straight_of_dropUnreachable (h : f.dropUnreachable.2.Straight) : f.Straight := by
  rw [dropUnreachable] at h
  dsimp only at h
  split at h
  · exact h
  · obtain ⟨n, hn⟩ := h
    refine ⟨n, hn.of_fewer fun id b hb => ?_⟩
    rw [recomputeFlow, Table.get?_filter] at hb
    exact (Option.filter_eq_some_iff.1 hb).1

theorem mergeable?_eq_some {target source : BlockId} (h : f.mergeable? = some (target, source)) :
    ∃ b, f.blocks.get? target = some b ∧ b.terminal = some (.jump source) ∧ source ≠ target ∧
      source ≠ f.entry := by
  obtain ⟨⟨id, b⟩, he, h⟩ := List.exists_of_findSome?_eq_some h
  dsimp only at h
  split at h
  · next hterminal =>
    split at h
    · next hcond =>
      obtain ⟨rfl, rfl⟩ := Prod.mk.inj (Option.some.inj h)
      simp only [Bool.and_eq_true, bne_iff_ne, ne_eq] at hcond
      exact ⟨b, Table.mem_entries.1 he, hterminal, hcond.1.1.1, hcond.1.1.2⟩
    · cases h
  · cases h

/-- A block that was appended to another one is entered from there. -/
theorem straight_of_merge {target source : BlockId} {merged : Block}
    (hmergeable : f.mergeable? = some (target, source)) (hmerged : f.blocks.get? source = some merged)
    (h : (f.merge target source merged).Straight) : f.Straight := by
  obtain ⟨b, hb, hterminal, hne, -⟩ := mergeable?_eq_some hmergeable
  obtain ⟨n, hn⟩ := h
  change LeadsOut _ f.entry n at hn
  suffices h : ∀ {id}, (f.merge target source merged).LeadsOut id n → ∃ k, f.LeadsOut id k from h hn
  clear hn
  intro id hn
  have hget {id : BlockId} {b' : Block} (hb' : (f.merge target source merged).blocks.get? id = some b') :
      (id = target ∧ b'.terminal = merged.terminal) ∨ f.blocks.get? id = some b' := by
    rw [merge, recomputeFlow, Table.get?_modify, Table.get?_erase] at hb'
    split at hb'
    · next heq =>
      obtain ⟨_, -, rfl⟩ := Option.map_eq_some_iff.1 hb'
      exact .inl ⟨heq, rfl⟩
    · split at hb'
      · cases hb'
      · exact .inr hb'
  induction hn with
  | ret hb' ht =>
    rcases hget hb' with ⟨rfl, hsame⟩ | hb'
    · exact ⟨1, .jump hb hterminal (.ret hmerged (hsame ▸ ht))⟩
    · exact ⟨0, .ret hb' ht⟩
  | jump hb' ht _ ih =>
    obtain ⟨k, hk⟩ := ih
    rcases hget hb' with ⟨rfl, hsame⟩ | hb'
    · exact ⟨_, .jump hb hterminal (.jump hmerged (hsame ▸ ht) hk)⟩
    · exact ⟨_, .jump hb' ht hk⟩

end Function

end Whittle.Ir
