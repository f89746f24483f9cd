import Mathlib.Tactic.Common
import Whittle.Proofs.Lowering.Shape
import Whittle.Proofs.Optimize.Course
import Whittle.Proofs.Ssa.Operands

/-!
# Merging blocks

The blocks of a function are merged two at a time, until no two are left that can be.  Each merge takes
a block away, so the bound on their number is never what ends the loop.  No merge changes what is
performed or returned, and a record follows the instructions of its block to wherever they have been
moved.

Main statement: `Module.mergeBlocks_preserves`.
-/

namespace Whittle

namespace Table

variable {κ ν : Type} [Ord κ] [Std.TransOrd κ] [Std.LawfulEqOrd κ]

omit [Std.TransOrd κ] [Std.LawfulEqOrd κ] in
theorem size_modify (t : Table κ ν) (k : κ) (f : ν → ν) : (t.modify k f).size = t.size :=
  List.length_map _

theorem size_erase {t : Table κ ν} {k : κ} {v : ν} (h : t.get? k = some v) :
    (t.erase k).size + 1 = t.size := by
  have hlength := (values_perm h).length_eq
  simpa [values, size] using hlength.symm

omit [Std.LawfulEqOrd κ] in
theorem keys_eq_singleton {t : Table κ ν} {k : κ} (h : ∀ j, j ∈ t.keys ↔ j = k) : t.keys = [k] := by
  have hperm : t.keys.Perm [k] :=
    (List.perm_ext_iff_of_nodup t.keys_nodup (List.nodup_singleton k)).2 (by simpa using h)
  exact List.perm_singleton.1 hperm

end Table

namespace Ir

variable {entry : BlockId} {edges edges' : Edges}

theorem Reachable.mono {b : BlockId} (h : Reachable entry edges' b)
    (hedges : ∀ p t, t ∈ edges'.getD p [] → t ∈ edges.getD p []) : Reachable entry edges b := by
  obtain ⟨before, hwalk⟩ := h
  generalize hblocks : b :: before = blocks at hwalk
  induction hwalk generalizing b before with
  | start =>
    cases hblocks
    exact reachable_entry
  | step _ hedge ih =>
    cases hblocks
    exact (ih _ rfl).step (hedges _ _ hedge)

namespace Function

variable {f f' : Function} {a b c : BlockId} {block merged : Block}

/-! ## Finding two blocks -/

theorem mem_terminals {t : Terminal} :
    t ∈ f.terminals ↔ ∃ b block, f.blocks.get? b = some block ∧ block.terminal = some t := by
  simp only [terminals, List.mem_filterMap, Table.mem_values]
  constructor
  · rintro ⟨block, ⟨b, hb⟩, ht⟩
    exact ⟨b, block, hb, ht⟩
  · rintro ⟨b, block, hb, ht⟩
    exact ⟨block, ⟨b, hb⟩, ht⟩

theorem contains_fallthroughs : f.fallthroughs.contains b = true ↔
    ∃ t ∈ f.terminals, ∃ test consequent alternate, t = .branch test consequent alternate b := by
  rw [fallthroughs, KeySet.contains_ofList, decide_eq_true_eq, List.mem_filterMap]
  refine exists_congr fun t => and_congr_right fun _ => ?_
  cases t <;> simp

theorem HasFlow.predecessorsOf_eq_singleton (h : f.HasFlow) : f.flow.predecessorsOf b = [a] ↔
    ∀ p, Reachable f.entry (edgesOf f.blocks) p ∧ Edge f.blocks p b ↔ p = a := by
  simp only [Edge, ← mem_predecessorsOf h]
  constructor
  · intro heq p
    rw [heq, List.mem_singleton]
  · exact Table.keys_eq_singleton

/-- What `mergeable?` asks of a block and of the target of its jump. -/
theorem HasFlow.mergeable_iff (h : f.HasFlow) (hb : f.blocks.get? a = some block)
    (hterminal : block.terminal = some (.jump b)) :
    (b != a && b != f.entry && f.flow.predecessorsOf b == [a] && !f.fallthroughs.contains b) = true ↔
      f.Mergeable a b := by
  simp only [Bool.and_eq_true, bne_iff_ne, beq_iff_eq, Bool.not_eq_true', Bool.eq_false_iff,
    h.predecessorsOf_eq_singleton, ne_eq, contains_fallthroughs]
  constructor
  · rintro ⟨⟨⟨hne, hentry⟩, honly⟩, hapart⟩
    exact ⟨⟨block, hb, hterminal⟩, hne, hentry, honly,
      fun t ht test consequent alternate heq => hapart ⟨t, ht, test, consequent, alternate, heq⟩⟩
  · rintro ⟨-, hne, hentry, honly, hapart⟩
    refine ⟨⟨⟨hne, hentry⟩, honly⟩, ?_⟩
    rintro ⟨t, ht, test, consequent, alternate, heq⟩
    exact hapart t ht test consequent alternate heq

theorem exists_jump_of_mergeable? (h : f.mergeable? = some (a, b)) :
    ∃ block, f.blocks.get? a = some block ∧ block.terminal = some (.jump b) ∧
      (b != a && b != f.entry && f.flow.predecessorsOf b == [a] &&
        !f.fallthroughs.contains b) = true := by
  obtain ⟨⟨x, block⟩, hmem, hfound⟩ := List.exists_of_findSome?_eq_some h
  dsimp only at hfound
  split at hfound
  · next target hterminal =>
    split at hfound
    · next hcond =>
      obtain ⟨rfl, rfl⟩ := Prod.mk.inj (Option.some.inj hfound)
      exact ⟨block, Table.mem_entries.1 hmem, hterminal, hcond⟩
    · cases hfound
  · cases hfound

theorem HasFlow.mergeable_of_mergeable? (h : f.HasFlow) (hfound : f.mergeable? = some (a, b)) :
    f.Mergeable a b := by
  obtain ⟨block, hb, hterminal, hcond⟩ := exists_jump_of_mergeable? hfound
  exact (h.mergeable_iff hb hterminal).1 hcond

theorem HasFlow.not_mergeable_of_mergeable? (h : f.HasFlow) (hnone : f.mergeable? = none) :
    ¬ f.Mergeable a b := by
  intro hmergeable
  obtain ⟨block, hb, hterminal⟩ := hmergeable.jumps
  have hfound := List.findSome?_eq_none_iff.1 hnone (a, block) (Table.mem_entries.2 hb)
  dsimp only at hfound
  rw [hterminal] at hfound
  dsimp only at hfound
  rw [if_pos ((h.mergeable_iff hb hterminal).2 hmergeable)] at hfound
  cases hfound

/-! ## What removing and merging leave -/

/-- The facts about control flow are up to date, and what is reachable leads to blocks of the
function. -/
structure Intact (f : Function) : Prop where
  flow : f.HasFlow
  leads : ∀ p t, Reachable f.entry (edgesOf f.blocks) p → Edge f.blocks p t →
    f.blocks.contains t = true

theorem get?_of_get?_dropUnreachable (h : f.dropUnreachable.2.blocks.get? b = some block) :
    f.blocks.get? b = some block := by
  rw [dropUnreachable] at h
  dsimp only at h
  split at h
  · exact h
  · rw [recomputeFlow, Table.get?_filter] at h
    exact (Option.filter_eq_some_iff.1 h).1

theorem contains_of_contains_dropUnreachable (h : f.dropUnreachable.2.blocks.contains b = true) :
    f.blocks.contains b = true := by
  obtain ⟨block, hblock⟩ := Table.contains_iff.1 h
  exact Table.contains_iff.2 ⟨block, get?_of_get?_dropUnreachable hblock⟩

theorem edge_of_edge_dropUnreachable (h : Edge f.dropUnreachable.2.blocks a b) : Edge f.blocks a b := by
  obtain ⟨block, hblock, hsucc⟩ := edge_iff.1 h
  exact edge_iff.2 ⟨block, get?_of_get?_dropUnreachable hblock, hsucc⟩

theorem reachable_of_reachable_dropUnreachable
    (h : Reachable f.dropUnreachable.2.entry (edgesOf f.dropUnreachable.2.blocks) b) :
    Reachable f.entry (edgesOf f.blocks) b := by
  have hentry : f.dropUnreachable.2.entry = f.entry := by rw [dropUnreachable_eq]
  rw [hentry] at h
  exact h.mono fun p t => edge_of_edge_dropUnreachable

theorem Intact.dropUnreachable (h : f.Intact) : f.dropUnreachable.2.Intact := by
  refine ⟨h.flow.dropUnreachable, fun p t hp hedge => ?_⟩
  have hp := reachable_of_reachable_dropUnreachable hp
  have hedge := edge_of_edge_dropUnreachable hedge
  obtain ⟨block, hblock⟩ := Table.contains_iff.1 (h.leads p t hp hedge)
  exact Table.contains_iff.2 ⟨block, (h.flow.get?_dropUnreachable (hp.step hedge)).trans hblock⟩

/-- An edge of the merged blocks is one of the first block, of the second one or of another one. -/
theorem Mergeable.edge_merge (h : f.Mergeable a c) (hmerged : f.blocks.get? c = some merged)
    (hedge : Edge (f.merge a c merged).blocks b t) :
    (b = a ∧ Edge f.blocks c t) ∨ (b ≠ a ∧ b ≠ c ∧ Edge f.blocks b t) := by
  obtain ⟨block, hblock, hsucc⟩ := edge_iff.1 hedge
  obtain ⟨first, hfirst, -⟩ := h.jumps
  by_cases hba : b = a
  · rw [hba, get?_merge_target h.ne hfirst] at hblock
    obtain rfl := Option.some.inj hblock
    exact .inl ⟨hba, edge_iff.2 ⟨merged, hmerged, hsucc⟩⟩
  · by_cases hbc : b = c
    · rw [hbc, get?_merge_source h.ne] at hblock
      cases hblock
    · rw [get?_merge_other hba hbc] at hblock
      exact .inr ⟨hba, hbc, edge_iff.2 ⟨block, hblock, hsucc⟩⟩

theorem Mergeable.reachable_merge (h : f.Mergeable a c) (hmerged : f.blocks.get? c = some merged)
    (hb : Reachable f.entry (edgesOf (f.merge a c merged).blocks) b) :
    Reachable f.entry (edgesOf f.blocks) b ∧ b ≠ c := by
  have hsecond : Reachable f.entry (edgesOf f.blocks) c := h.reachable.step h.edge
  obtain ⟨before, hwalk⟩ := hb
  generalize hblocks : b :: before = blocks at hwalk
  induction hwalk generalizing b before with
  | start =>
    cases hblocks
    exact ⟨reachable_entry, h.ne_entry.symm⟩
  | @step p t _ _ hedge ih =>
    cases hblocks
    obtain ⟨hp, -⟩ := ih _ rfl
    rcases h.edge_merge hmerged hedge with ⟨-, hedge⟩ | ⟨hpa, -, hedge⟩
    · exact ⟨hsecond.step hedge, fun heq => h.ne ((h.only c).1 ⟨hsecond, heq ▸ hedge⟩)⟩
    · exact ⟨hp.step hedge, fun heq => hpa ((h.only p).1 ⟨hp, heq ▸ hedge⟩)⟩

theorem contains_merge (f : Function) (a c : BlockId) (merged : Block) :
    (f.merge a c merged).blocks.contains b = true ↔ b ≠ c ∧ f.blocks.contains b = true := by
  rw [merge, recomputeFlow, Table.contains_modify, Table.contains_erase]
  simp

theorem Intact.merge (h : f.Intact) (hmergeable : f.Mergeable a c)
    (hmerged : f.blocks.get? c = some merged) : (f.merge a c merged).Intact := by
  refine ⟨rfl, fun p t hp hedge => ?_⟩
  have hne := (hmergeable.reachable_merge hmerged (hp.step hedge)).2
  refine (contains_merge ..).2 ⟨hne, ?_⟩
  rcases hmergeable.edge_merge hmerged hedge with ⟨-, hedge⟩ | ⟨-, -, hedge⟩
  · exact h.leads c t (hmergeable.reachable.step hmergeable.edge) hedge
  · exact h.leads p t (hmergeable.reachable_merge hmerged hp).1 hedge

theorem size_merge (hmerged : f.blocks.get? c = some merged) (a : BlockId) :
    (f.merge a c merged).blocks.size + 1 = f.blocks.size := by
  rw [merge, recomputeFlow, Table.size_modify]
  exact Table.size_erase hmerged

end Function

/-! ## Where blocks go -/

/-- The records with other blocks. -/
def Environment.relocate (env : Environment) (home : BlockId → BlockId) : Environment :=
  { env with
    versions := env.versions.map fun _ records =>
      records.map fun r => { r with block := home r.block } }

namespace Environment

variable {env : Environment} {home home' : BlockId → BlockId}

theorem relocate_id (env : Environment) : (env.relocate fun b => b) = env := by
  have hversions : (env.versions.map fun _ (records : List VersionRecord) =>
      records.map fun r => { r with block := r.block }) = env.versions :=
    Table.ext_get? fun d => by simp [Table.get?_map]
  rw [relocate, hversions]

theorem relocate_relocate : (env.relocate home).relocate home' = env.relocate (home' ∘ home) := by
  simp only [relocate, Table.map_map, List.map_map]
  rfl

theorem rehome_eq_relocate (env : Environment) (source target : BlockId) :
    env.rehome source target = env.relocate fun b => if b = source then target else b := by
  have hrecord (r : VersionRecord) : (if r.block == source then { r with block := target } else r) =
      { r with block := if r.block = source then target else r.block } := by
    by_cases h : r.block = source <;> simp [h]
  simp only [rehome, relocate, hrecord]

end Environment

namespace Function

variable {f f' : Function} {a b c : BlockId} {block merged : Block} {home : BlockId → BlockId}
  {fuel fuel' : Nat}

/-- Two blocks at a time are merged; `home` tells where each block has gone in the end. -/
inductive Merges : Function → Function → (BlockId → BlockId) → Prop
  | none (f : Function) : Merges f f fun b => b
  | next {f f' : Function} {a c : BlockId} {merged : Block} {home : BlockId → BlockId} :
      f.Mergeable a c → f.blocks.get? c = some merged → Merges (f.merge a c merged) f' home →
        Merges f f' fun b => home (if b = c then a else b)

theorem Merges.performs (h : f.Merges f' home) (outcomes : Nat → Bool) :
    f'.Performs outcomes = f.Performs outcomes := by
  induction h with
  | none f => rfl
  | next hmergeable hmerged _ ih => exact ih.trans (performs_merge hmergeable hmerged)

theorem Merges.returns (h : f.Merges f' home) (outcomes : Nat → Bool) :
    f'.Returns outcomes = f.Returns outcomes := by
  induction h with
  | none f => rfl
  | next hmergeable hmerged _ ih => exact ih.trans (returns_merge hmergeable hmerged)

theorem Merges.intact (h : f.Merges f' home) (hintact : f.Intact) : f'.Intact := by
  induction h with
  | none f => exact hintact
  | next hmergeable hmerged _ ih => exact ih (hintact.merge hmergeable hmerged)

/-- The blocks of a function are chains of blocks of another one: `home` tells to whose chain a block
belongs, `chain` lists the blocks whose instructions, in this order, a block has. -/
structure Joins (f f' : Function) (home : BlockId → BlockId) (chain : BlockId → List BlockId) :
    Prop where
  kept : ∀ b, f.blocks.contains b = true → f'.blocks.contains (home b) = true
  first : ∀ a, f'.blocks.contains a = true → ∃ rest, chain a = a :: rest
  mem : ∀ a b, f'.blocks.contains a = true →
    (b ∈ chain a ↔ f.blocks.contains b = true ∧ home b = a)
  instructions : ∀ a block, f'.blocks.get? a = some block →
    block.instructions = (chain a).flatMap fun b => f.codeAt (some b)

theorem Joins.refl (f : Function) : f.Joins f (fun b => b) fun b => [b] := by
  refine ⟨fun _ hb => hb, fun a _ => ⟨[], rfl⟩, fun a b ha => ?_, fun a block ha => ?_⟩
  · rw [List.mem_singleton]
    exact ⟨fun heq => ⟨heq ▸ ha, heq⟩, fun h => h.2⟩
  · rw [List.flatMap_singleton, codeAt_of_get? ha]

/-- One merge, and then others. -/
theorem Joins.after_merge {chain : BlockId → List BlockId} (hmergeable : f.Mergeable a c)
    (hmerged : f.blocks.get? c = some merged) (h : (f.merge a c merged).Joins f' home chain) :
    f.Joins f' (fun b => home (if b = c then a else b))
      fun x => (chain x).flatMap fun b => if b = a then [a, c] else [b] := by
  obtain ⟨first, hfirst, -⟩ := hmergeable.jumps
  have ha : f.blocks.contains a = true := Table.contains_iff.2 ⟨first, hfirst⟩
  have hc : f.blocks.contains c = true := Table.contains_iff.2 ⟨merged, hmerged⟩
  refine ⟨fun b hb => ?_, fun x hx => ?_, fun x b hx => ?_, fun x block hx => ?_⟩
  · apply h.kept
    rw [contains_merge]
    split
    · exact ⟨hmergeable.ne.symm, ha⟩
    · next hne => exact ⟨hne, hb⟩
  · obtain ⟨rest, hrest⟩ := h.first x hx
    rw [hrest, List.flatMap_cons]
    split
    · next heq => exact ⟨_, by rw [heq]; rfl⟩
    · exact ⟨_, rfl⟩
  · simp only [List.mem_flatMap, h.mem x _ hx, contains_merge]
    constructor
    · rintro ⟨y, ⟨⟨hyc, hy⟩, rfl⟩, hb⟩
      split at hb
      · next hya =>
        rcases List.mem_pair.1 hb with rfl | rfl
        · exact ⟨ha, by rw [if_neg hmergeable.ne.symm, hya]⟩
        · exact ⟨hc, by rw [if_pos rfl, hya]⟩
      · obtain rfl := List.mem_singleton.1 hb
        exact ⟨hy, by rw [if_neg hyc]⟩
    · rintro ⟨hb, rfl⟩
      by_cases hbc : b = c
      · exact ⟨a, ⟨⟨hmergeable.ne.symm, ha⟩, by rw [if_pos hbc]⟩, by simp [hbc]⟩
      · refine ⟨b, ⟨⟨hbc, hb⟩, by rw [if_neg hbc]⟩, ?_⟩
        split <;> simp_all
  · rw [h.instructions x block hx, List.flatMap_assoc]
    refine List.flatMap_congr fun b hb => ?_
    have hbc : b ≠ c := ((contains_merge ..).1 ((h.mem x b (Table.contains_iff.2 ⟨_, hx⟩)).1 hb).1).1
    split
    · next hba =>
      rw [hba, codeAt_of_get? (get?_merge_target hmergeable.ne hfirst)]
      simp [codeAt_of_get? hfirst, codeAt_of_get? hmerged]
    · next hba => rw [List.flatMap_singleton, codeAt, get?_merge_other hba hbc, codeAt]

theorem Merges.joins (h : f.Merges f' home) : ∃ chain, f.Joins f' home chain := by
  induction h with
  | none f => exact ⟨_, .refl f⟩
  | next hmergeable hmerged _ ih =>
    obtain ⟨chain, hjoins⟩ := ih
    exact ⟨_, hjoins.after_merge hmergeable hmerged⟩

/-! ## The loop -/

theorem mergeable?_of_size_eq_zero (h : f.blocks.size = 0) : f.mergeable? = none := by
  rw [mergeable?, List.length_eq_zero_iff.1 h]
  rfl

/-- With at least one round for each block the number of rounds makes no difference. -/
theorem mergeAll_eq_of_le {env : Environment} (hfuel : f.blocks.size ≤ fuel)
    (hfuel' : f.blocks.size ≤ fuel') : f.mergeAll fuel env = f.mergeAll fuel' env := by
  induction fuel generalizing fuel' f env with
  | zero =>
    have hnone := mergeable?_of_size_eq_zero (Nat.le_zero.1 hfuel)
    cases fuel' with
    | zero => rfl
    | succ fuel' => rw [mergeAll, mergeAll, hnone]
  | succ fuel ih =>
    cases fuel' with
    | zero => rw [mergeAll, mergeAll, mergeable?_of_size_eq_zero (Nat.le_zero.1 hfuel')]
    | succ fuel' =>
      rw [mergeAll, mergeAll]
      split
      · rfl
      · next target source _ =>
        split
        · rfl
        · next merged hmerged =>
          rw [← size_merge hmerged target] at hfuel hfuel'
          rw [ih (Nat.le_of_succ_le_succ hfuel) (Nat.le_of_succ_le_succ hfuel')]

/-- What the loop makes of a function does not depend on the records, and where it moves them is settled
by the function alone. -/
theorem exists_mergeAll (f : Function) (fuel : Nat) : ∃ changed f' home,
    (∀ env, f.mergeAll fuel env = (changed, f', env.relocate home)) ∧
      (∀ b, f.blocks.contains b = false → home b = b) ∧
      (f.Intact → f.Merges f' home ∧ (f.blocks.size ≤ fuel → f'.mergeable? = none)) := by
  induction fuel generalizing f with
  | zero =>
    refine ⟨false, f, fun b => b, fun env => ?_, fun _ _ => rfl, fun _ => ⟨.none f, fun hsize => ?_⟩⟩
    · rw [mergeAll, env.relocate_id]
    · exact mergeable?_of_size_eq_zero (Nat.le_zero.1 hsize)
  | succ fuel ih =>
    rcases hfound : f.mergeable? with _ | ⟨a, c⟩
    · refine ⟨false, f, fun b => b, fun env => ?_, fun _ _ => rfl, fun _ => ⟨.none f, fun _ => hfound⟩⟩
      rw [mergeAll, hfound, env.relocate_id]
    · rcases hmerged : f.blocks.get? c with _ | merged
      · refine ⟨false, f, fun b => b, fun env => ?_, fun _ _ => rfl, fun hintact => ?_⟩
        · simp only [mergeAll, hfound, hmerged, env.relocate_id]
        · -- an intact function has the block
          have hmergeable := hintact.flow.mergeable_of_mergeable? hfound
          have hc := hintact.leads a c hmergeable.reachable hmergeable.edge
          rw [Table.contains, hmerged] at hc
          cases hc
      · obtain ⟨changed, f', home, hloop, houtside, hmerges⟩ := ih (f.merge a c merged)
        refine ⟨true, f', fun b => home (if b = c then a else b), fun env => ?_, fun b hb => ?_,
          fun hintact => ?_⟩
        · simp only [mergeAll, hfound, hmerged, hloop, Environment.rehome_eq_relocate,
            Environment.relocate_relocate]
          rfl
        · have hbc : b ≠ c := by
            rintro rfl
            rw [Table.contains, hmerged] at hb
            cases hb
          have hnot : (f.merge a c merged).blocks.contains b = false := by
            rw [Bool.eq_false_iff, ne_eq, contains_merge]
            exact fun h => by simp [hb] at h
          simp only [if_neg hbc, houtside b hnot]
        · have hmergeable := hintact.flow.mergeable_of_mergeable? hfound
          obtain ⟨hrest, hend⟩ := hmerges (hintact.merge hmergeable hmerged)
          have hsize := size_merge hmerged a
          exact ⟨.next hmergeable hmerged hrest, fun hfuel => hend (by omega)⟩

theorem exists_mergeBlocks (f : Function) : ∃ changed f' home,
    (∀ env, f.mergeBlocks env = (changed, f', env.relocate home)) ∧
      (∀ b, f.dropUnreachable.2.blocks.contains b = false → home b = b) ∧
      (f.Intact → f.dropUnreachable.2.Merges f' home ∧ f'.mergeable? = none) := by
  obtain ⟨changed, f', home, hloop, houtside, hmerges⟩ :=
    f.dropUnreachable.2.exists_mergeAll f.dropUnreachable.2.blocks.size
  refine ⟨f.dropUnreachable.1 || changed, f', home, fun env => ?_, houtside, fun hintact => ?_⟩
  · simp only [mergeBlocks, hloop]
  · obtain ⟨hmerges, hend⟩ := hmerges hintact.dropUnreachable
    exact ⟨hmerges, hend (Nat.le_refl _)⟩

/-- Records of the blocks of a function stay with blocks of that function. -/
theorem Joins.contains_home {chain : BlockId → List BlockId}
    (h : f.dropUnreachable.2.Joins f' home chain)
    (houtside : ∀ b, f.dropUnreachable.2.blocks.contains b = false → home b = b)
    (hb : f.blocks.contains b = true) : f.blocks.contains (home b) = true := by
  cases hkept : f.dropUnreachable.2.blocks.contains b with
  | false => rwa [houtside b hkept]
  | true =>
    have ha := h.kept b hkept
    obtain ⟨rest, hrest⟩ := h.first _ ha
    exact contains_of_contains_dropUnreachable ((h.mem _ (home b) ha).1 (hrest ▸ List.mem_cons_self)).1

end Function

namespace Module

variable {m : Module} {id : FuncId} {f : Function}

/-- One function in its turn. -/
def mergeNext (t : Bool × Module × Environment) (e : FuncId × Function) : Bool × Module × Environment :=
  (t.1 || (e.2.mergeBlocks t.2.2).1, t.2.1.setFunction e.1 (e.2.mergeBlocks t.2.2).2.1,
    (e.2.mergeBlocks t.2.2).2.2)

theorem mergeBlocks_eq (m : Module) (env : Environment) :
    m.mergeBlocks env = m.functions.entries.foldl mergeNext (false, m, env) := rfl

/-- While the turns of other functions last, a function stays as it is, and so do the records of blocks
that none of these has. -/
theorem foldl_mergeNext {es : List (FuncId × Function)} (hes : ∀ e ∈ es, e.1 ≠ id)
    (t : Bool × Module × Environment) : ∃ home : BlockId → BlockId,
      (es.foldl mergeNext t).2.1.functions.get? id = t.2.1.functions.get? id ∧
      (es.foldl mergeNext t).2.2 = t.2.2.relocate home ∧
      ∀ b, (∀ e ∈ es, e.2.blocks.contains b = false) → home b = b := by
  induction es generalizing t with
  | nil => exact ⟨fun b => b, rfl, t.2.2.relocate_id.symm, fun _ _ => rfl⟩
  | cons e es ih =>
    obtain ⟨he, hes⟩ := List.forall_mem_cons.1 hes
    obtain ⟨changed, f', home, hmerge, houtside, -⟩ := e.2.exists_mergeBlocks
    obtain ⟨home', hget, henv, houtside'⟩ := ih hes (mergeNext t e)
    refine ⟨home' ∘ home, ?_, ?_, fun b hb => ?_⟩
    · rw [List.foldl_cons, hget, mergeNext, get?_setFunction, if_neg he.symm]
    · rw [List.foldl_cons, henv, mergeNext, hmerge, Environment.relocate_relocate]
    · obtain ⟨hb, hbs⟩ := List.forall_mem_cons.1 hb
      have hdropped : e.2.dropUnreachable.2.blocks.contains b = false := by
        rw [Bool.eq_false_iff] at hb ⊢
        exact fun hin => hb (Function.contains_of_contains_dropUnreachable hin)
      rw [Function.comp, houtside b hdropped, houtside' b hbs]

/-- One round of merging.  Where the facts about the control flow of a function are up to date and what
is reachable leads to blocks of the function, the function performs and returns the same as before,
whatever the outcomes of its tests; the loop ends before its rounds are used up, and leaves nothing that
could be merged; the blocks left are chains of blocks that were there, and each record of a block goes
to the one whose chain it belongs to, as long as no other function has the same blocks. -/
theorem mergeBlocks_preserves (env : Environment) (hf : m.functions.get? id = some f) (hflow : f.HasFlow)
    (hleads : ∀ p t, Reachable f.entry (edgesOf f.blocks) p → Edge f.blocks p t →
      f.blocks.contains t = true) :
    ∃ f' home chain, (m.mergeBlocks env).2.1.functions.get? id = some f' ∧
      (∀ outcomes, f'.Performs outcomes = f.Performs outcomes ∧
        f'.Returns outcomes = f.Returns outcomes) ∧
      (∀ fuel env, f.dropUnreachable.2.blocks.size ≤ fuel → f.dropUnreachable.2.mergeAll fuel env =
        f.dropUnreachable.2.mergeAll f.dropUnreachable.2.blocks.size env) ∧
      (∀ a b, ¬ f'.Mergeable a b) ∧
      f.dropUnreachable.2.Joins f' home chain ∧
      (∀ env, (f.mergeBlocks env).2 = (f', env.relocate home)) ∧
      ∃ all, (m.mergeBlocks env).2.2 = env.relocate all ∧
        ((∀ id' g, m.functions.get? id' = some g → id' ≠ id →
          ∀ b, f.blocks.contains b = true → g.blocks.contains b = false) →
            ∀ b, f.blocks.contains b = true → all b = home b) := by
  have hintact : f.Intact := ⟨hflow, hleads⟩
  obtain ⟨changed, f', home, hturn, houtside, hmerges⟩ := f.exists_mergeBlocks
  obtain ⟨hmerges, hend⟩ := hmerges hintact
  obtain ⟨chain, hjoins⟩ := hmerges.joins
  -- the functions whose turn comes before, and those whose turn comes after
  obtain ⟨before, after, hentries⟩ := List.append_of_mem (Table.mem_entries.2 hf)
  have hnodup : (m.functions.entries.map (·.1)).Nodup := m.functions.keys_nodup
  rw [hentries, List.map_append, List.map_cons, List.nodup_append, List.nodup_cons] at hnodup
  obtain ⟨-, ⟨hlater, -⟩, hearlier⟩ := hnodup
  have hbefore : ∀ e ∈ before, e.1 ≠ id := fun e he =>
    hearlier e.1 (List.mem_map_of_mem he) id List.mem_cons_self
  have hafter : ∀ e ∈ after, e.1 ≠ id := fun e he heq =>
    hlater (List.mem_map.2 ⟨e, he, heq⟩)
  obtain ⟨first, -, henv, hfirst⟩ := foldl_mergeNext hbefore (false, m, env)
  obtain ⟨last, hget', henv', hlast⟩ :=
    foldl_mergeNext hafter (mergeNext (before.foldl mergeNext (false, m, env)) (id, f))
  rw [← List.foldl_cons, ← List.foldl_append, ← hentries, ← mergeBlocks_eq] at hget' henv'
  refine ⟨f', home, chain, ?_, fun outcomes => ⟨?_, ?_⟩, fun fuel env hfuel =>
    Function.mergeAll_eq_of_le hfuel (Nat.le_refl _), fun a b => ?_, hjoins,
    fun env => congrArg Prod.snd (hturn env), last ∘ home ∘ first, ?_, fun hapart b hb => ?_⟩
  · rw [hget', mergeNext, get?_setFunction, if_pos rfl, hturn]
  · exact (hmerges.performs outcomes).trans hflow.performs_dropUnreachable
  · exact (hmerges.returns outcomes).trans hflow.returns_dropUnreachable
  · exact (hmerges.intact hintact.dropUnreachable).flow.not_mergeable_of_mergeable? hend
  · rw [henv', mergeNext, hturn, henv, Environment.relocate_relocate, Environment.relocate_relocate]
    rfl
  · have hothers {b : BlockId} (hb : f.blocks.contains b = true) {es : List (FuncId × Function)}
        (hsub : es ⊆ m.functions.entries) (hes : ∀ e ∈ es, e.1 ≠ id) :
        ∀ e ∈ es, e.2.blocks.contains b = false := fun e he =>
      hapart e.1 e.2 (Table.mem_entries.1 (hsub he)) (hes e he) b hb
    have hin := hjoins.contains_home houtside hb
    rw [Function.comp, Function.comp, hfirst b (hothers hb (by simp [hentries]) hbefore),
      hlast _ (hothers hin (by simp [hentries]) hafter)]

/-- `a; for (b; c; ) {}` -/
def initializing : Syntax.Module :=
  let name (text : String) : Syntax.Expr := .name .synthetic (.synthetic text)
  ⟨⟨0, 0⟩,
    [.expression .synthetic (name "a"),
     .for .synthetic (some (.expression (name "b"))) (some (name "c")) none (.block .synthetic [])]⟩

/-- The start of the loop becomes part of the entry. -/
theorem mergeBlocks_preserves_initializing :
    ∃ m env f f' all, initializing.lower "m" {} = .ok (m, env) ∧ m.functions.get? ⟨0⟩ = some f ∧
      f.blocks.keys = [⟨0⟩, ⟨1⟩, ⟨2⟩, ⟨3⟩, ⟨4⟩] ∧ (m.mergeBlocks env).2.1.functions.get? ⟨0⟩ = some f' ∧
      f'.blocks.keys = [⟨0⟩, ⟨2⟩, ⟨3⟩, ⟨4⟩] ∧
      (∀ outcomes, f'.Performs outcomes = f.Performs outcomes ∧
        f'.Returns outcomes = f.Returns outcomes) ∧
      (∀ a b, ¬ f'.Mergeable a b) ∧ (m.mergeBlocks env).2.2 = env.relocate all ∧
      ∀ b, f.blocks.contains b = true → f'.blocks.contains (all b) = true := by
  obtain ⟨⟨m, env⟩, hlower, f, hf, g, hg, hsize, hkeys, hkeys', hkept⟩ :
      ∃ t ∈ (initializing.lower "m" {}).toOption, ∃ f ∈ t.1.functions.get? ⟨0⟩,
        ∃ g ∈ (t.1.mergeBlocks t.2).2.1.functions.get? ⟨0⟩, t.1.functions.size = 1 ∧
        f.blocks.keys = [⟨0⟩, ⟨1⟩, ⟨2⟩, ⟨3⟩, ⟨4⟩] ∧ g.blocks.keys = [⟨0⟩, ⟨2⟩, ⟨3⟩, ⟨4⟩] ∧
        f.dropUnreachable.2.blocks.keys = f.blocks.keys := by
    decide +kernel
  have hlower := Syntax.Module.eq_ok_of_toOption hlower
  obtain ⟨_, -, hclosed⟩ := Syntax.Module.closed_lower hlower
  have hends := (Syntax.Module.reducible_of_lower hlower hf).ends
  obtain ⟨f', home, chain, hget, hcourse, -, hend, hjoins, -, all, henv, hall⟩ :=
    mergeBlocks_preserves env hf (hclosed _ f hf).flow fun p t _ hedge => by
      obtain ⟨block, hblock, ht⟩ := edge_iff.1 hedge
      obtain ⟨terminal, hterminal, hmentions⟩ := hends p block hblock
      rw [Block.successors, hterminal] at ht
      exact hmentions t (Terminal.mem_mentions ht)
  obtain rfl : g = f' := Option.some.inj (hg.symm.trans hget)
  refine ⟨m, env, f, g, all, hlower, hf, hkeys, hget, hkeys', hcourse, hend, henv, fun b hb => ?_⟩
  rw [hall _ b hb]
  · apply hjoins.kept
    rwa [← Table.mem_keys, hkept, Table.mem_keys]
  · intro id' g hg hne
    have hmem := Table.mem_entries.2 hg
    rw [Table.entries_of_size_eq_one hsize hf, List.mem_singleton] at hmem
    exact absurd (Prod.mk.inj hmem).1 hne

end Module

end Ir

end Whittle
