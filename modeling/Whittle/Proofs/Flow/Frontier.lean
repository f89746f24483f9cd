import Mathlib.Tactic.Common
import Whittle.Proofs.Flow.Dominators

/-!
# Immediate dominators and dominance frontiers

The dominators of a reachable block form a chain, and a block further down the chain has more
dominators.  So the dominator with the largest set is the closest one, and climbing from a block along
closest dominators visits all its dominators.

Main statements: `get?_immediate_iff` and `has_frontier_iff`, in terms of walks.
-/

namespace Whittle.Ir

/-- The closest of the blocks that every walk to `b` passes before it ends. -/
def ImmediatelyDominates (entry : BlockId) (edges : Edges) (d b : BlockId) : Prop :=
  StrictlyDominates entry edges d b ∧
    ∀ a, StrictlyDominates entry edges a b → Dominates entry edges a d

variable {entry : BlockId} {edges : Edges}

theorem ImmediatelyDominates.unique {d d' b : BlockId} (hb : Reachable entry edges b)
    (h : ImmediatelyDominates entry edges d b) (h' : ImmediatelyDominates entry edges d' b) :
    d = d' :=
  Dominates.antisymm (h'.1.2.reachable hb) (h'.2 d h.1) (h.2 d' h'.1)

/-- A block is dominated by itself and by what dominates its closest dominator. -/
theorem ImmediatelyDominates.dominates_iff {d b x : BlockId}
    (h : ImmediatelyDominates entry edges d b) :
    Dominates entry edges x b ↔ x = b ∨ Dominates entry edges x d := by
  constructor
  · intro hx
    by_cases hxb : x = b
    · exact .inl hxb
    · exact .inr (h.2 x ⟨hxb, hx⟩)
  · rintro (rfl | hx)
    · exact Dominates.refl x
    · exact hx.trans h.1.2

theorem ImmediatelyDominates.not_dominates {d b : BlockId} (hb : Reachable entry edges b)
    (h : ImmediatelyDominates entry edges d b) : ¬ Dominates entry edges b d := fun hbd =>
  h.1.1 (Dominates.antisymm hb h.1.2 hbd)

namespace Flow

/-! ## The largest candidate -/

theorem largest_spec (candidates : List (BlockId × Nat)) :
    (largest candidates = none ↔ candidates = []) ∧
      ∀ d, largest candidates = some d →
        ∃ n, (d, n) ∈ candidates ∧ ∀ c ∈ candidates, c.2 ≤ n := by
  let pick (best : Option (BlockId × Nat)) (c : BlockId × Nat) : Option (BlockId × Nat) :=
    best.elim (some c) fun b => if b.2 ≤ c.2 then some c else some b
  -- once there is a best one, it stays the best of itself and what was seen
  have hfold (l : List (BlockId × Nat)) (b : BlockId × Nat) :
      ∃ m, l.foldl pick (some b) = some m ∧ m ∈ b :: l ∧ ∀ c ∈ b :: l, c.2 ≤ m.2 := by
    induction l generalizing b with
    | nil => exact ⟨b, rfl, by simp, by simp⟩
    | cons c l ih =>
      have hpick : pick (some b) c = if b.2 ≤ c.2 then some c else some b := rfl
      rw [List.foldl_cons, hpick]
      split
      · rename_i hle
        obtain ⟨m, hm, hmem, hmax⟩ := ih c
        refine ⟨m, hm, List.mem_cons_of_mem _ hmem, fun x hx => ?_⟩
        rcases List.mem_cons.1 hx with rfl | hx
        · exact hle.trans (hmax c List.mem_cons_self)
        · exact hmax x hx
      · rename_i hle
        obtain ⟨m, hm, hmem, hmax⟩ := ih b
        have hb := hmax b List.mem_cons_self
        refine ⟨m, hm, ?_, fun x hx => ?_⟩
        · rcases List.mem_cons.1 hmem with rfl | hmem
          · exact List.mem_cons_self
          · exact List.mem_cons_of_mem _ (List.mem_cons_of_mem _ hmem)
        · rcases List.mem_cons.1 hx with rfl | hx
          · exact hb
          · rcases List.mem_cons.1 hx with rfl | hx
            · omega
            · exact hmax x (List.mem_cons_of_mem _ hx)
  have hlargest : largest candidates = (candidates.foldl pick none).map (·.1) := by
    unfold largest
    congr
    funext best c
    cases best <;> rfl
  rw [hlargest]
  cases candidates with
  | nil => simp
  | cons b l =>
    have hfirst : (b :: l).foldl pick none = l.foldl pick (some b) := rfl
    obtain ⟨m, hm, hmem, hmax⟩ := hfold l b
    rw [hfirst, hm]
    refine ⟨by simp, fun d hd => ?_⟩
    cases hd
    exact ⟨m.2, hmem, hmax⟩

/-! ## Immediate dominators -/

/-- The other dominators of a block, each with the number of its own. -/
def candidates (dominators : BlockSets) (e : BlockId × KeySet BlockId) : List (BlockId × Nat) :=
  ((dominators.map fun _ s => s.size).meet e.2).entries.filter (·.1 != e.1)

theorem mem_candidates {dominators : BlockSets} {e : BlockId × KeySet BlockId} {d : BlockId}
    {n : Nat} : (d, n) ∈ candidates dominators e ↔
      d ≠ e.1 ∧ e.2.contains d = true ∧ ∃ s, dominators.get? d = some s ∧ n = s.size := by
  rw [candidates, List.mem_filter, Table.mem_entries, Table.meet_eq_filter, Table.get?_filter,
    Table.get?_map, Option.filter_eq_some_iff, Option.map_eq_some_iff]
  simp only [bne_iff_ne]
  constructor
  · rintro ⟨⟨⟨s, hs, rfl⟩, hmem⟩, hne⟩
    exact ⟨hne, hmem, s, hs, rfl⟩
  · rintro ⟨hne, hmem, s, hs, rfl⟩
    exact ⟨⟨⟨s, hs, rfl⟩, hmem⟩, hne⟩

theorem get?_immediateDominators (dominators : BlockSets) (b : BlockId) :
    (immediateDominators dominators).get? b =
      (dominators.get? b).bind fun s => largest (candidates dominators (b, s)) := by
  let put (acc : Table BlockId BlockId) (e : BlockId × KeySet BlockId) : Table BlockId BlockId :=
    (largest (candidates dominators e)).elim acc (acc.insert e.1)
  have hput (acc : Table BlockId BlockId) (e : BlockId × KeySet BlockId) :
      (put acc e).get? b =
        if b = e.1 then (largest (candidates dominators e)).or (acc.get? b) else acc.get? b := by
    simp only [put]
    cases largest (candidates dominators e) with
    | none => simp
    | some d =>
      rw [Option.elim_some, Table.get?_insert]
      simp
  have hfold (l : List (BlockId × KeySet BlockId)) (hl : l.Pairwise EntryLt)
      (acc : Table BlockId BlockId) : (l.foldl put acc).get? b =
        ((Entries.find? b l).bind fun s => largest (candidates dominators (b, s))).or
          (acc.get? b) := by
    induction l generalizing acc with
    | nil => rfl
    | cons e l ih =>
      obtain ⟨k, s⟩ := e
      obtain ⟨hhead, hrest⟩ := List.pairwise_cons.1 hl
      rw [List.foldl_cons, ih hrest, hput]
      by_cases hb : b = k
      · subst hb
        have hfind : Entries.find? b ((b, s) :: l) = some s :=
          (Entries.find?_eq_some_iff hl).2 List.mem_cons_self
        have hnone : Entries.find? b l = none := by
          cases hs : Entries.find? b l with
          | none => rfl
          | some s' =>
            have hmem := (Entries.find?_eq_some_iff hrest).1 hs
            exact absurd (hhead _ hmem) (compare_self_ne_lt b)
        simp [hfind, hnone]
      · have hfind : Entries.find? b ((k, s) :: l) = Entries.find? b l := by
          ext v
          rw [Entries.find?_eq_some_iff hl, Entries.find?_eq_some_iff hrest]
          simp [hb]
        simp [hfind, hb]
  have hunfold : immediateDominators dominators = dominators.entries.foldl put ∅ := by
    simp only [immediateDominators]
    congr
    funext acc e
    simp only [put, candidates]
    split
    · rename_i hlargest
      rw [hlargest, Option.elim_some]
    · rename_i hlargest
      rw [hlargest, Option.elim_none]
  rw [hunfold, hfold dominators.entries dominators.sorted]
  exact Option.or_none

/-- Further down the chain there are more dominators. -/
theorem size_dominators_lt (hentry : edges.contains entry = true) {a b : BlockId}
    (hb : Reachable entry edges b) (hab : StrictlyDominates entry edges a b) :
    ((dominatorSets entry (predecessorSets entry edges)).getD a ∅).size <
      ((dominatorSets entry (predecessorSets entry edges)).getD b ∅).size := by
  have ha := hab.2.reachable hb
  refine KeySet.size_lt_of_subset (fun x hx => ?_) fun heq => ?_
  · exact (has_dominatorSets hentry hb).2 (((has_dominatorSets hentry ha).1 hx).trans hab.2)
  · have hself : Has (dominatorSets entry (predecessorSets entry edges)) a b := by
      rw [Has, heq]
      exact (has_dominatorSets hentry hb).2 (Dominates.refl b)
    exact hab.1 (Dominates.antisymm hb hab.2 ((has_dominatorSets hentry ha).1 hself))

/-- A reachable block is one of its dominators. -/
theorem size_dominators_pos (hentry : edges.contains entry = true) {b : BlockId}
    (hb : Reachable entry edges b) :
    0 < ((dominatorSets entry (predecessorSets entry edges)).getD b ∅).size := by
  have hself := Table.mem_keys.2 ((has_dominatorSets hentry hb).2 (Dominates.refl b))
  rw [← Table.length_keys]
  exact List.length_pos_of_mem hself

/-- A block has no more dominators than there are blocks. -/
theorem size_dominators_le (hentry : edges.contains entry = true) (b : BlockId) :
    ((dominatorSets entry (predecessorSets entry edges)).getD b ∅).size ≤
      (predecessorSets entry edges).size := by
  have hkeys : ((dominatorSets entry (predecessorSets entry edges)).getD b ∅).size ≤
      ((predecessorSets entry edges).map fun _ _ => () : KeySet BlockId).size := by
    apply KeySet.size_le_of_subset
    intro a ha
    rw [Table.contains_map]
    exact ((above_dominatorSets hentry).1.members b a ha).2
  simpa [Table.size, Table.map] using hkeys

theorem contains_dominatorSets (hentry : edges.contains entry = true) {b : BlockId}
    (hb : Reachable entry edges b) :
    ∃ s, (dominatorSets entry (predecessorSets entry edges)).get? b = some s ∧
      ∀ a, s.contains a = true ↔ Dominates entry edges a b := by
  have hhas := fun a => has_dominatorSets hentry (a := a) hb
  cases hget : (dominatorSets entry (predecessorSets entry edges)).get? b with
  | none => simpa [Has, Table.getD, hget] using (hhas b).2 (Dominates.refl b)
  | some s =>
    refine ⟨s, rfl, fun a => ?_⟩
    rw [← hhas, Has, Table.getD_of_get? hget]

/-- A reachable block other than the entry has an immediate dominator. -/
theorem exists_immediate (hentry : edges.contains entry = true) {b : BlockId}
    (hb : Reachable entry edges b) (hne : b ≠ entry) :
    ∃ d, (compute entry edges).immediate.get? b = some d ∧
      ImmediatelyDominates entry edges d b := by
  obtain ⟨s, hs, hmem⟩ := contains_dominatorSets hentry hb
  have hcand {d : BlockId} {n : Nat} :
      (d, n) ∈ candidates (dominatorSets entry (predecessorSets entry edges)) (b, s) ↔
        StrictlyDominates entry edges d b ∧
          n = ((dominatorSets entry (predecessorSets entry edges)).getD d ∅).size := by
    rw [mem_candidates, StrictlyDominates, hmem, and_assoc]
    refine and_congr_right fun _ => and_congr_right fun hdom => ?_
    obtain ⟨sd, hsd, -⟩ := contains_dominatorSets hentry (hdom.reachable hb)
    simp [hsd, Table.getD]
  have hget : (compute entry edges).immediate.get? b =
      largest (candidates (dominatorSets entry (predecessorSets entry edges)) (b, s)) := by
    change (immediateDominators _).get? b = _
    rw [get?_immediateDominators, hs]
    rfl
  obtain ⟨hnone, hsome⟩ :=
    largest_spec (candidates (dominatorSets entry (predecessorSets entry edges)) (b, s))
  rw [hget]
  cases hlargest : largest (candidates (dominatorSets entry (predecessorSets entry edges)) (b, s)) with
  | none =>
    have hentryCand := hcand.2 ⟨⟨Ne.symm hne, dominates_of_entry b⟩, rfl⟩
    rw [hnone.1 hlargest] at hentryCand
    cases hentryCand
  | some d =>
    obtain ⟨n, hd, hmax⟩ := hsome d hlargest
    obtain ⟨hdom, rfl⟩ := hcand.1 hd
    refine ⟨d, rfl, hdom, fun a ha => ?_⟩
    rcases Dominates.total hb ha.2 hdom.2 with h | h
    · exact h
    · by_cases hda : d = a
      · rw [hda]
        exact Dominates.refl a
      · have hlt := size_dominators_lt hentry (ha.2.reachable hb) ⟨hda, h⟩
        have hle := hmax _ (hcand.2 ⟨ha, rfl⟩)
        omega

/-- The immediate dominators are the closest dominators of reachable blocks. -/
theorem get?_immediate_iff (hentry : edges.contains entry = true) {b d : BlockId} :
    (compute entry edges).immediate.get? b = some d ↔
      Reachable entry edges b ∧ ImmediatelyDominates entry edges d b := by
  constructor
  · intro hget
    have hb : Reachable entry edges b ∧ b ≠ entry := by
      change (immediateDominators _).get? b = some d at hget
      rw [get?_immediateDominators] at hget
      obtain ⟨s, hs, hlargest⟩ := Option.bind_eq_some_iff.1 hget
      obtain ⟨n, hmem, -⟩ := (largest_spec _).2 d hlargest
      obtain ⟨hne, hd, -⟩ := mem_candidates.1 hmem
      have hhas : Has (dominatorSets entry (predecessorSets entry edges)) b d := by
        rwa [Has, Table.getD_of_get? hs]
      by_contra hcon
      by_cases hreach : Reachable entry edges b
      · obtain rfl : b = entry := by
          by_contra hbe
          exact hcon ⟨hreach, hbe⟩
        exact hne ((has_dominatorSets hentry hreach).1 hhas).eq_entry
      · exact hne (eq_of_has_dominatorSets hentry hreach hhas)
    obtain ⟨d', hget', hd'⟩ := exists_immediate hentry hb.1 hb.2
    rw [hget] at hget'
    cases hget'
    exact ⟨hb.1, hd'⟩
  · rintro ⟨hb, hd⟩
    have hne : b ≠ entry := by
      rintro rfl
      exact hd.1.1 hd.1.2.eq_entry
    obtain ⟨d', hget, hd'⟩ := exists_immediate hentry hb hne
    rw [hget, hd.unique hb hd']

theorem get?_immediate_entry (hentry : edges.contains entry = true) :
    (compute entry edges).immediate.get? entry = none := by
  cases hget : (compute entry edges).immediate.get? entry with
  | none => rfl
  | some d =>
    have hd := ((get?_immediate_iff hentry).1 hget).2
    exact absurd hd.1.2.eq_entry hd.1.1

/-! ## Frontiers -/

/-- Climbing from a block adds the join to the dominators of the block that are below `stop`. -/
theorem has_climb (hentry : edges.contains entry = true) {join : BlockId} {stop : Option BlockId}
    {fuel : Nat} {c : BlockId} {sets : BlockSets} (hc : Reachable entry edges c)
    (hfuel : ((dominatorSets entry (predecessorSets entry edges)).getD c ∅).size ≤ fuel)
    {x y : BlockId} :
    Has (climb (compute entry edges).immediate join stop fuel (some c) sets) x y ↔
      Has sets x y ∨ (y = join ∧ Dominates entry edges x c ∧
        ∀ s, stop = some s → Dominates entry edges s c → ¬ Dominates entry edges x s) := by
  induction fuel generalizing c sets with
  | zero =>
    have hpos := size_dominators_pos hentry hc
    omega
  | succ fuel ih =>
    rw [climb]
    by_cases hstop : stop = some c
    · subst hstop
      simp only [BEq.rfl, if_true]
      refine ⟨.inl, ?_⟩
      rintro (h | ⟨-, hx, hnot⟩)
      · exact h
      · exact absurd hx (hnot c rfl (Dominates.refl c))
    · have hstop' : ¬ (some c == stop) = true := by
        simpa using Ne.symm hstop
      rw [if_neg hstop']
      by_cases hce : c = entry
      · -- the top of the chain
        subst hce
        have hclimb (fuel : Nat) (sets : BlockSets) :
            climb (compute c edges).immediate join stop fuel none sets = sets := by
          cases fuel <;> rfl
        rw [get?_immediate_entry hentry, hclimb, has_addTo]
        refine or_congr_right ⟨?_, ?_⟩
        · rintro ⟨rfl, rfl⟩
          refine ⟨rfl, Dominates.refl _, fun s hs hsc => ?_⟩
          exact absurd (hsc.eq_entry ▸ hs) hstop
        · rintro ⟨rfl, hx, -⟩
          exact ⟨hx.eq_entry, rfl⟩
      · obtain ⟨d, hget, hd⟩ := exists_immediate hentry hc hce
        have hlt := size_dominators_lt hentry hc hd.1
        rw [hget, ih (hd.1.2.reachable hc) (by omega), has_addTo, or_assoc]
        refine or_congr_right ⟨?_, ?_⟩
        · rintro (⟨rfl, rfl⟩ | ⟨rfl, hx, hnot⟩)
          · refine ⟨rfl, Dominates.refl _, fun s hs hsc hcs => hstop ?_⟩
            rw [hs, Dominates.antisymm hc hsc hcs]
          · refine ⟨rfl, hx.trans hd.1.2, fun s hs hsc => ?_⟩
            rcases hd.dominates_iff.1 hsc with rfl | hsd
            · exact absurd hs hstop
            · exact hnot s hs hsd
        · rintro ⟨rfl, hx, hnot⟩
          rcases hd.dominates_iff.1 hx with rfl | hxd
          · exact .inl ⟨rfl, rfl⟩
          · exact .inr ⟨rfl, hxd, fun s hs hsd => hnot s hs (hsd.trans hd.1.2)⟩

/-- What the frontiers hold before the number of predecessors is looked at: `x` dominates the
predecessor `p` of `y` but not the immediate dominator of `y`. -/
theorem below_immediate_iff (hentry : edges.contains entry = true) {x y p : BlockId}
    (hp : Reachable entry edges p) (hedge : y ∈ edges.getD p []) (hx : Dominates entry edges x p) :
    (∀ s, (compute entry edges).immediate.get? y = some s → Dominates entry edges s p →
        ¬ Dominates entry edges x s) ↔ ¬ StrictlyDominates entry edges x y := by
  have hy := hp.step hedge
  constructor
  · intro hnot hxy
    have hye : y ≠ entry := by
      rintro rfl
      exact hxy.1 hxy.2.eq_entry
    obtain ⟨s, hs, himm⟩ := exists_immediate hentry hy hye
    exact hnot s hs (himm.1.2.pred himm.1.1 hedge) (himm.2 x hxy)
  · intro hnot s hs hsp hxs
    have himm := ((get?_immediate_iff hentry).1 hs).2
    refine hnot ⟨?_, hxs.trans himm.1.2⟩
    rintro rfl
    exact himm.not_dominates hy hxs

/-- A block other than the entry that follows a block it dominates has a second predecessor. -/
theorem exists_other_predecessor {x y p : BlockId} (hp : Reachable entry edges p)
    (hedge : y ∈ edges.getD p []) (hx : Dominates entry edges x p)
    (hnot : ¬ StrictlyDominates entry edges x y) (hye : y ≠ entry) :
    ∃ q, q ≠ p ∧ Reachable entry edges q ∧ y ∈ edges.getD q [] := by
  by_contra hnone
  -- then every walk to `y` comes through `p`, and `y` is met before itself
  have honly (q : BlockId) (hq : Reachable entry edges q) (hqy : y ∈ edges.getD q []) : q = p := by
    by_contra hqp
    exact hnone ⟨q, hqp, hq, hqy⟩
  have hthrough {a : BlockId} (ha : Dominates entry edges a p) {before : List BlockId}
      (hwalk : Walk entry edges (y :: before)) : a ∈ before := by
    cases hwalk with
    | start => exact absurd rfl hye
    | step hwalk hedge' =>
      obtain rfl := honly _ ⟨_, hwalk⟩ hedge'
      exact ha _ hwalk
  have hxy : x = y := by
    by_contra hxy
    exact hnot ⟨hxy, fun before hwalk => List.mem_cons_of_mem _ (hthrough hx hwalk)⟩
  subst hxy
  obtain ⟨before, hwalk⟩ := hp.step hedge
  obtain ⟨rest, hfirst, hnew, -⟩ := hwalk.exists_first
  exact hnew (hthrough hx hfirst)

/-- The frontier of `x` holds the blocks where its dominance ends: `x` dominates a predecessor but
not, or not from outside, the block itself.  The entry counts only with two predecessors. -/
theorem has_frontier_iff (hentry : edges.contains entry = true) {x y : BlockId} :
    Has (compute entry edges).frontier x y ↔
      (y ≠ entry ∨ ∃ p q, p ≠ q ∧ Has (predecessorSets entry edges) y p ∧
        Has (predecessorSets entry edges) y q) ∧
      ∃ p, Reachable entry edges p ∧ y ∈ edges.getD p [] ∧ Dominates entry edges x p ∧
        ¬ StrictlyDominates entry edges x y := by
  let preds := predecessorSets entry edges
  let immediate := (compute entry edges).immediate
  have hstep (sets : BlockSets) (e : BlockId × KeySet BlockId) (he : e ∈ preds.entries) :
      Has (if e.2.size < 2 then sets else e.2.keys.foldl
          (fun sets p => climb immediate e.1 (immediate.get? e.1) (preds.size + 1) (some p) sets)
          sets) x y ↔
        Has sets x y ∨ (2 ≤ e.2.size ∧ y = e.1 ∧ ∃ p, Reachable entry edges p ∧
          e.1 ∈ edges.getD p [] ∧ Dominates entry edges x p ∧
            ¬ StrictlyDominates entry edges x e.1) := by
    split
    · rename_i hsize
      simp [Nat.not_le_of_lt hsize]
    · rename_i hsize
      rw [foldl_adds_iff (P := (Has · x y)) (R := fun p => y = e.1 ∧ Dominates entry edges x p ∧
        ¬ StrictlyDominates entry edges x e.1)]
      · simp only [Nat.not_lt.1 hsize, Table.mem_keys, mem_predecessorSets he, true_and]
        refine or_congr_right ⟨?_, ?_⟩
        · rintro ⟨p, ⟨hp, hedge⟩, rfl, hx, hnot⟩
          exact ⟨rfl, p, hp, hedge, hx, hnot⟩
        · rintro ⟨rfl, p, hp, hedge, hx, hnot⟩
          exact ⟨p, ⟨hp, hedge⟩, rfl, hx, hnot⟩
      · intro sets p hmem
        obtain ⟨hp, hedge⟩ := (mem_predecessorSets he).1 (Table.mem_keys.1 hmem)
        rw [has_climb hentry hp (Nat.le_succ_of_le (size_dominators_le hentry p))]
        refine or_congr_right (and_congr_right fun _ => and_congr_right fun hx => ?_)
        exact below_immediate_iff hentry hp hedge hx
  change Has (frontiers preds immediate) x y ↔ _
  rw [frontiers, foldl_adds_iff (P := (Has · x y)) _ fun sets e he => hstep sets e he]
  simp only [not_has_map_empty, false_or]
  constructor
  · rintro ⟨e, he, hsize, rfl, p, hrest⟩
    refine ⟨.inr ?_, p, hrest⟩
    obtain ⟨p, q, hne, hp, hq⟩ := KeySet.two_le_size_iff.1 hsize
    rw [mem_predecessorSets he] at hp hq
    exact ⟨p, q, hne, has_predecessorSets.2 hp, has_predecessorSets.2 hq⟩
  · rintro ⟨hjoin, p, hp, hedge, hx, hnot⟩
    have hpy : Has preds y p := has_predecessorSets.2 ⟨hp, hedge⟩
    have hjoin' : ∃ p q, p ≠ q ∧ Has preds y p ∧ Has preds y q := by
      rcases hjoin with hye | hjoin
      · obtain ⟨q, hqp, hq⟩ := exists_other_predecessor hp hedge hx hnot hye
        exact ⟨q, p, hqp, has_predecessorSets.2 hq, hpy⟩
      · exact hjoin
    cases hget : preds.get? y with
    | none => simp [Has, Table.getD, hget] at hpy
    | some s =>
      unfold Has at hjoin'
      rw [Table.getD_of_get? hget, ← KeySet.two_le_size_iff] at hjoin'
      exact ⟨(y, s), Table.mem_entries.2 hget, hjoin', rfl, p, hp, hedge, hx, hnot⟩

end Flow

end Whittle.Ir
