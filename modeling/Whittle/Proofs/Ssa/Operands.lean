import Mathlib.Tactic.Common
import Whittle.Proofs.Ssa.Placement

/-!
# Operands of phis

A phi takes from each predecessor the version that the last recording block of any walk to that
predecessor leaves.  Main statement: `Function.buildSsa_operands`.
-/

namespace Whittle.Ir

open Whittle.Ir.Flow

/-! ## Versions that blocks leave -/

/-- Whether a write created the version. -/
def VersionRecord.IsWritten (r : VersionRecord) : Prop := ∃ n, r.place.cell.version = .numbered n

/-- Some record names the block. -/
def RecordedIn (records : List VersionRecord) (block : BlockId) : Prop :=
  ∃ r ∈ records, r.block = block

/-- A block leaves the last version that a write of it created; without writes, the last of its
joins. -/
inductive Leaves (records : List VersionRecord) (block : BlockId) (place : Place) : Prop
  | written (earlier later : List VersionRecord) (r : VersionRecord)
      (split : records = earlier ++ r :: later) (here : r.block = block) (named : r.place = place)
      (isWritten : r.IsWritten) (isLast : ∀ r' ∈ later, r'.block = block → ¬ r'.IsWritten)
  | joined (earlier later : List VersionRecord) (r : VersionRecord)
      (split : records = earlier ++ r :: later) (here : r.block = block) (named : r.place = place)
      (noneWritten : ∀ r' ∈ records, r'.block = block → ¬ r'.IsWritten)
      (isLast : ∀ r' ∈ later, r'.block ≠ block)

theorem getLast?_filter_eq_some {α : Type} {p : α → Bool} {l : List α} {a : α} :
    (l.filter p).getLast? = some a ↔
      ∃ front back, l = front ++ a :: back ∧ p a = true ∧ ∀ x ∈ back, p x = false := by
  rw [List.getLast?_eq_head?_reverse, ← List.filter_reverse, List.head?_filter,
    List.find?_eq_some_iff_append]
  constructor
  · rintro ⟨ha, front, back, hsplit, hnot⟩
    refine ⟨back.reverse, front.reverse, ?_, ha, fun x hx => ?_⟩
    · simpa using congrArg List.reverse hsplit
    · simpa using hnot x (List.mem_reverse.1 hx)
  · rintro ⟨front, back, rfl, ha, hnot⟩
    refine ⟨ha, back.reverse, front.reverse, by simp, fun x hx => ?_⟩
    simpa using hnot x (List.mem_reverse.1 hx)

/-- Whether a write of the block created the version. -/
def isWrittenIn (block : BlockId) (r : VersionRecord) : Bool :=
  r.block == block && match r.place.cell.version with
    | .numbered _ => true
    | .phi _ => false

theorem isWrittenIn_iff {block : BlockId} {r : VersionRecord} :
    isWrittenIn block r = true ↔ r.block = block ∧ r.IsWritten := by
  unfold isWrittenIn VersionRecord.IsWritten
  cases hv : r.place.cell.version <;> simp

theorem leftBy_eq (records : List VersionRecord) (block : BlockId) :
    leftBy records block =
      ((records.filter (isWrittenIn block)).getLast?.map (·.place)).or
        ((records.filter (·.block == block)).getLast?.map (·.place)) := by
  simp only [leftBy, List.filter_map, List.filter_filter, List.getLast?_map]
  congr 3
  refine List.filter_congr fun r _ => ?_
  simp only [isWrittenIn, Function.comp_apply]
  exact Bool.and_comm _ _

theorem getLast?_written_eq_none_iff {records : List VersionRecord} {block : BlockId} :
    (records.filter (isWrittenIn block)).getLast? = none ↔
      ∀ r ∈ records, r.block = block → ¬ r.IsWritten := by
  rw [List.getLast?_eq_none_iff, List.filter_eq_nil_iff]
  simp only [isWrittenIn_iff, not_and]

/-- The version found for a block is the one that it leaves. -/
theorem leftBy_eq_some_iff {records : List VersionRecord} {block : BlockId} {place : Place} :
    leftBy records block = some place ↔ Leaves records block place := by
  rw [leftBy_eq]
  cases hwritten : (records.filter (isWrittenIn block)).getLast? with
  | some r =>
    obtain ⟨earlier, later, hsplit, hr, hlast⟩ := getLast?_filter_eq_some.1 hwritten
    obtain ⟨hhere, hwr⟩ := isWrittenIn_iff.1 hr
    simp only [Option.map_some, Option.some_or, Option.some.injEq]
    constructor
    · intro hnamed
      refine .written earlier later r hsplit hhere hnamed hwr fun r' hr' hb hw => ?_
      exact absurd (isWrittenIn_iff.2 ⟨hb, hw⟩) (by simp [hlast r' hr'])
    · rintro (⟨earlier', later', r', hsplit', hhere', hnamed', hwr', hlast'⟩ |
        ⟨earlier', later', r', hsplit', hhere', hnamed', hnone, -⟩)
      · have hr' : (records.filter (isWrittenIn block)).getLast? = some r' := by
          refine getLast?_filter_eq_some.2
            ⟨earlier', later', hsplit', isWrittenIn_iff.2 ⟨hhere', hwr'⟩, fun x hx => ?_⟩
          rw [← Bool.not_eq_true, isWrittenIn_iff]
          exact fun h => hlast' x hx h.1 h.2
        rw [hwritten] at hr'
        cases hr'
        exact hnamed'
      · exact absurd hwr (hnone r (by simp [hsplit]) hhere)
  | none =>
    have hnone := getLast?_written_eq_none_iff.1 hwritten
    simp only [Option.map_none, Option.none_or, Option.map_eq_some_iff, getLast?_filter_eq_some,
      beq_iff_eq]
    constructor
    · rintro ⟨r, ⟨earlier, later, hsplit, hhere, hlast⟩, hnamed⟩
      exact .joined earlier later r hsplit hhere hnamed hnone fun r' hr' => by
        simpa using hlast r' hr'
    · rintro (⟨earlier, later, r, hsplit, hhere, -, hwr, -⟩ |
        ⟨earlier, later, r, hsplit, hhere, hnamed, -, hlast⟩)
      · exact absurd hwr (hnone r (by simp [hsplit]) hhere)
      · exact ⟨r, ⟨earlier, later, hsplit, hhere, fun r' hr' => by simpa using hlast r' hr'⟩, hnamed⟩

theorem leftBy_eq_none_iff {records : List VersionRecord} {block : BlockId} :
    leftBy records block = none ↔ ¬ RecordedIn records block := by
  rw [leftBy_eq, Option.or_eq_none_iff, Option.map_eq_none_iff, Option.map_eq_none_iff,
    getLast?_written_eq_none_iff, List.getLast?_eq_none_iff, List.filter_eq_nil_iff]
  simp only [beq_iff_eq, RecordedIn, not_exists, not_and]
  exact ⟨fun h => h.2, fun h => ⟨fun r hr hb => absurd hb (h r hr), h⟩⟩

theorem mem_of_leftBy {records : List VersionRecord} {block : BlockId} {place : Place}
    (h : leftBy records block = some place) : ⟨block, place⟩ ∈ records := by
  rcases leftBy_eq_some_iff.1 h with ⟨earlier, later, r, rfl, rfl, rfl, -, -⟩ |
    ⟨earlier, later, r, rfl, rfl, rfl, -, -⟩
  · simp
  · simp

theorem isWritten_of_leftBy {records : List VersionRecord} {block : BlockId} {place : Place}
    (h : leftBy records block = some place) {r : VersionRecord} (hr : r ∈ records)
    (hb : r.block = block) (hwritten : r.IsWritten) : ∃ n, place.cell.version = .numbered n := by
  rcases leftBy_eq_some_iff.1 h with ⟨_, _, r', -, -, rfl, hwritten', -⟩ |
    ⟨_, _, _, -, -, -, hnone, -⟩
  · exact hwritten'
  · exact absurd hwritten (hnone r hr hb)

/-- Joins do not change what a block with writes leaves. -/
theorem leftBy_append_of_written {records joins : List VersionRecord} {block : BlockId}
    {place : Place} (hjoins : ∀ r ∈ joins, ¬ r.IsWritten) (h : leftBy records block = some place)
    (hwritten : ∃ n, place.cell.version = .numbered n) :
    leftBy (records ++ joins) block = some place := by
  have hnone : joins.filter (isWrittenIn block) = [] := by
    refine List.filter_eq_nil_iff.2 fun r hr hin => ?_
    exact hjoins r hr (isWrittenIn_iff.1 hin).2
  rw [leftBy_eq] at h ⊢
  rw [List.filter_append, hnone, List.append_nil]
  cases hlast : (records.filter (isWrittenIn block)).getLast? with
  | some r =>
    rw [hlast] at h
    exact h
  | none =>
    have hrecord := mem_of_leftBy ((leftBy_eq records block).trans h)
    exact absurd hwritten (getLast?_written_eq_none_iff.1 hlast _ hrecord rfl)

/-- A block without writes leaves the only join that it has. -/
theorem leftBy_of_join {records : List VersionRecord} {r : VersionRecord} (hr : r ∈ records)
    (hnone : ∀ r' ∈ records, r'.block = r.block → ¬ r'.IsWritten)
    (honly : ∀ r' ∈ records, r'.block = r.block → r' = r) :
    leftBy records r.block = some r.place := by
  have hmem : r ∈ records.filter (·.block == r.block) := by simp [hr]
  rw [leftBy_eq, getLast?_written_eq_none_iff.2 hnone, Option.map_none, Option.none_or,
    List.getLast?_eq_some_getLast (List.ne_nil_of_mem hmem), Option.map_some]
  have hlast := List.getLast_mem (List.ne_nil_of_mem hmem)
  simp only [List.mem_filter, beq_iff_eq] at hlast
  rw [honly _ hlast.1 hlast.2]

/-! ## Following immediate dominators -/

variable {entry : BlockId} {edges : Edges}

/-- Every dominator but the entry has an immediate dominator itself. -/
theorem size_dominators_le_immediate (hentry : edges.contains entry = true) {b : BlockId}
    (hb : Reachable entry edges b) :
    ((dominatorSets entry (predecessorSets entry edges)).getD b ∅).size ≤
      (compute entry edges).immediate.size + 1 := by
  have hle : ((dominatorSets entry (predecessorSets entry edges)).getD b ∅).size ≤
      (KeySet.add ((compute entry edges).immediate.map fun _ _ => ()) entry).size := by
    refine KeySet.size_le_of_subset fun a ha => ?_
    rw [KeySet.contains_add, Table.contains_map, Bool.or_eq_true, decide_eq_true_eq]
    by_cases hae : a = entry
    · exact .inl hae
    · have hreach := ((has_dominatorSets hentry hb).1 ha).reachable hb
      obtain ⟨d, hd, -⟩ := exists_immediate hentry hreach hae
      exact .inr (Table.contains_iff.2 ⟨d, hd⟩)
  have hadd := KeySet.size_add_le ((compute entry edges).immediate.map fun _ _ => ()) entry
  simp only [Table.size, Table.map, List.length_map] at hle hadd ⊢
  omega

/-- The version that reaches the end of a block is the one left by the closest dominator that records
one. -/
theorem reachingVersion_of_closest (hentry : edges.contains entry = true)
    {records : List VersionRecord} {fuel : Nat} {c q : BlockId} (hc : Reachable entry edges c)
    (hfuel : ((dominatorSets entry (predecessorSets entry edges)).getD c ∅).size ≤ fuel)
    (hqc : Dominates entry edges q c) (hq : RecordedIn records q)
    (hclosest : ∀ z, Dominates entry edges z c → RecordedIn records z →
      Dominates entry edges z q) :
    reachingVersion (compute entry edges).immediate records fuel c = leftBy records q := by
  induction fuel generalizing c with
  | zero =>
    have hpos := size_dominators_pos hentry hc
    omega
  | succ fuel ih =>
    rw [reachingVersion]
    cases hleft : leftBy records c with
    | some place =>
      have hrec : RecordedIn records c := by
        by_contra hnot
        rw [leftBy_eq_none_iff.2 hnot] at hleft
        cases hleft
      obtain rfl := Dominates.antisymm hc hqc (hclosest c (Dominates.refl c) hrec)
      exact hleft.symm
    | none =>
      have hnot := leftBy_eq_none_iff.1 hleft
      have hne : q ≠ c := by
        rintro rfl
        exact hnot hq
      have hce : c ≠ entry := by
        rintro rfl
        exact hne hqc.eq_entry
      obtain ⟨d, hget, hd⟩ := exists_immediate hentry hc hce
      have hlt := size_dominators_lt hentry hc hd.1
      simp only [hget, Option.bind_some]
      refine ih (hd.1.2.reachable hc) (by omega) (hd.2 q ⟨hne, hqc⟩) fun z hz hrec => ?_
      exact hclosest z (hz.trans hd.1.2) hrec

/-- Where no dominator records a version, none reaches the end of a block. -/
theorem reachingVersion_eq_none (hentry : edges.contains entry = true)
    {records : List VersionRecord} {fuel : Nat} {c : BlockId} (hc : Reachable entry edges c)
    (hnone : ∀ z, Dominates entry edges z c → ¬ RecordedIn records z) :
    reachingVersion (compute entry edges).immediate records fuel c = none := by
  induction fuel generalizing c with
  | zero => rfl
  | succ fuel ih =>
    rw [reachingVersion, leftBy_eq_none_iff.2 (hnone c (Dominates.refl c))]
    cases hget : (compute entry edges).immediate.get? c with
    | none => rfl
    | some d =>
      have hd := ((get?_immediate_iff hentry).1 hget).2
      exact ih (hd.1.2.reachable hc) fun z hz => hnone z (hz.trans hd.1.2)

/-- Whatever version reaches the end of a block is left by the closest dominator that records one. -/
theorem exists_closest_of_reachingVersion (hentry : edges.contains entry = true)
    {records : List VersionRecord} {fuel : Nat} {c : BlockId} {place : Place}
    (hc : Reachable entry edges c)
    (h : reachingVersion (compute entry edges).immediate records fuel c = some place) :
    ∃ q, Dominates entry edges q c ∧ leftBy records q = some place ∧
      ∀ z, Dominates entry edges z c → RecordedIn records z → Dominates entry edges z q := by
  induction fuel generalizing c with
  | zero => cases h
  | succ fuel ih =>
    rw [reachingVersion] at h
    cases hleft : leftBy records c with
    | some left =>
      rw [hleft] at h
      cases h
      exact ⟨c, Dominates.refl c, hleft, fun z hz _ => hz⟩
    | none =>
      rw [hleft] at h
      obtain ⟨d, hget, hd⟩ := Option.bind_eq_some_iff.1 h
      have himm := ((get?_immediate_iff hentry).1 hget).2
      obtain ⟨q, hqd, hq, hclosest⟩ := ih (himm.1.2.reachable hc) hd
      refine ⟨q, hqd.trans himm.1.2, hq, fun z hz hrec => hclosest z ?_ hrec⟩
      refine himm.2 z ⟨?_, hz⟩
      rintro rfl
      exact leftBy_eq_none_iff.1 hleft hrec

/-! ## Operands -/

namespace Function

variable {f : Function} {env : Environment}

/-- What a phi of the result takes from a predecessor. -/
theorem get?_operands_buildSsa {phi : Phi} (hphi : phi ∈ (f.buildSsa env).1.phis) {p : BlockId}
    (hp : p ∈ f.flow.predecessorsOf phi.block) :
    phi.operands.get? p =
      reachingVersion f.flow.immediate ((f.buildSsa env).2.versionsOf phi.declaration)
        (f.flow.immediate.size + 1) p := by
  obtain ⟨placed, -, rfl⟩ := List.mem_map.1 hphi
  change (Table.ofList _).get? p = _
  rw [Table.get?_ofList_filterMap]
  exact if_pos hp

theorem mem_predecessorsOf_of_operand {phi : Phi} (hphi : phi ∈ (f.buildSsa env).1.phis)
    {p : BlockId} {operand : Place} (h : phi.operands.get? p = some operand) :
    p ∈ f.flow.predecessorsOf phi.block := by
  obtain ⟨placed, -, rfl⟩ := List.mem_map.1 hphi
  change (Table.ofList _).get? p = _ at h
  rw [Table.get?_ofList_filterMap, Option.ite_none_right_eq_some] at h
  exact h.1

/-- The blocks of the function that record versions of a joined variable: the sites of its writes and
their iterated frontier. -/
theorem recordedIn_buildSsa {phi : Phi} (hphi : phi ∈ (f.buildSsa env).1.phis) :
    ∃ sites : KeySet BlockId, ∀ b, f.blocks.contains b = true →
      (RecordedIn ((f.buildSsa env).2.versionsOf phi.declaration) b ↔
        sites.contains b = true ∨ b ∈ iteratedFrontier f.flow.frontier sites) := by
  obtain ⟨sites, hsites, hblocks⟩ := map_block_recordsOf_buildSsa hphi
  refine ⟨sites, fun b hb => ?_⟩
  rw [versionsOf_buildSsa, mem_meetings hsites, ← hblocks]
  simp only [RecordedIn, List.mem_append, or_and_right, exists_or, hb, true_and, List.mem_map]

theorem mem_predecessorsOf (hflow : f.flow = Flow.compute f.entry (edgesOf f.blocks))
    {b p : BlockId} : p ∈ f.flow.predecessorsOf b ↔
      Reachable f.entry (edgesOf f.blocks) p ∧ b ∈ (edgesOf f.blocks).getD p [] := by
  rw [hflow, ← has_predecessorSets, Has, ← Table.mem_keys]
  rfl

/-- The blocks of a walk to a predecessor are blocks of the function. -/
theorem contains_of_walk {b p : BlockId} {before : List BlockId}
    (hwalk : Walk f.entry (edgesOf f.blocks) (p :: before))
    (hedge : b ∈ (edgesOf f.blocks).getD p []) :
    ∀ x ∈ p :: before, (edgesOf f.blocks).contains x = true := by
  obtain ⟨succs, hmem, -⟩ := mem_edges_iff.1 hedge
  exact hwalk.contains (Table.contains_iff.2 ⟨succs, Table.mem_entries.1 hmem⟩)

/-- The operand for a predecessor is left by the closest dominator of it that records a version. -/
theorem exists_closest_of_operand (hflow : f.flow = Flow.compute f.entry (edgesOf f.blocks))
    {phi : Phi} (hphi : phi ∈ (f.buildSsa env).1.phis) {p : BlockId} {operand : Place}
    (h : phi.operands.get? p = some operand) :
    ∃ q, Dominates f.entry (edgesOf f.blocks) q p ∧
      leftBy ((f.buildSsa env).2.versionsOf phi.declaration) q = some operand ∧
      ∀ z, Dominates f.entry (edgesOf f.blocks) z p →
        RecordedIn ((f.buildSsa env).2.versionsOf phi.declaration) z →
        Dominates f.entry (edgesOf f.blocks) z q := by
  have hp := mem_predecessorsOf_of_operand hphi h
  obtain ⟨hreach, hedge⟩ := (mem_predecessorsOf hflow).1 hp
  obtain ⟨before, hwalk⟩ := hreach
  have hcontains := contains_of_walk hwalk hedge _ hwalk.entry_mem
  rw [get?_operands_buildSsa hphi hp, hflow] at h
  exact exists_closest_of_reachingVersion hcontains ⟨before, hwalk⟩ h

/-- A phi takes from a predecessor what the last recording block of a walk to it leaves. -/
theorem get?_operands_of_last (hflow : f.flow = Flow.compute f.entry (edgesOf f.blocks))
    (hentry : f.flow.predecessorsOf f.entry = []) {phi : Phi}
    (hphi : phi ∈ (f.buildSsa env).1.phis) {p : BlockId}
    (hp : p ∈ f.flow.predecessorsOf phi.block) {before later rest : List BlockId} {q : BlockId}
    (hwalk : Walk f.entry (edgesOf f.blocks) (p :: before))
    (hsplit : p :: before = later ++ q :: rest)
    (hq : RecordedIn ((f.buildSsa env).2.versionsOf phi.declaration) q)
    (hlater : ∀ b ∈ later, ¬ RecordedIn ((f.buildSsa env).2.versionsOf phi.declaration) b) :
    phi.operands.get? p = leftBy ((f.buildSsa env).2.versionsOf phi.declaration) q := by
  obtain ⟨hreach, hedge⟩ := (mem_predecessorsOf hflow).1 hp
  have hblocks := contains_of_walk hwalk hedge
  have hcontains := hblocks _ hwalk.entry_mem
  obtain ⟨sites, hsites⟩ := recordedIn_buildSsa hphi
  let marked (x : BlockId) : Prop :=
    sites.contains x = true ∨ x ∈ iteratedFrontier f.flow.frontier sites
  -- the blocks of the walk are blocks of the function, where marked means recorded
  have hmarked : ∀ x ∈ p :: before,
      RecordedIn ((f.buildSsa env).2.versionsOf phi.declaration) x ↔ marked x := fun x hx =>
    hsites x (by simpa [edgesOf, Table.contains_map] using hblocks x hx)
  have hclosed : FrontierClosed f.entry (edgesOf f.blocks) marked := fun x y hx hy =>
    .inr (iteratedFrontier_closed hx (by rwa [hflow]))
  have hpred (r : BlockId) (hr : Reachable f.entry (edgesOf f.blocks) r) :
      f.entry ∉ (edgesOf f.blocks).getD r [] := fun hback => by
    have hmem := (mem_predecessorsOf hflow).2 ⟨hr, hback⟩
    rw [hentry] at hmem
    cases hmem
  have hon := hmarked
  rw [hsplit] at hon
  obtain ⟨hdom, hclosest⟩ := hclosed.last_dominates hcontains hpred hwalk hsplit
    ((hon q (by simp)).1 hq) fun b hb h => hlater b hb ((hon b (by simp [hb])).2 h)
  rw [get?_operands_buildSsa hphi hp, hflow]
  exact reachingVersion_of_closest hcontains hreach
    (size_dominators_le_immediate hcontains hreach) hdom hq
    fun z hz hrec => hclosest z hz ((hmarked z (hz before hwalk)).1 hrec)

/-- Take any walk to a predecessor of a phi's block.  If some block of it records a version of the
phi's variable, the phi takes from the predecessor what the last of these blocks leaves; if none
does, it takes nothing. -/
theorem buildSsa_operands (f : Function) (env : Environment)
    (hflow : f.flow = Flow.compute f.entry (edgesOf f.blocks))
    (hentry : f.flow.predecessorsOf f.entry = []) :
    ∀ phi ∈ (f.buildSsa env).1.phis, ∀ p ∈ f.flow.predecessorsOf phi.block, ∀ before,
      Walk f.entry (edgesOf f.blocks) (p :: before) →
        let records := (f.buildSsa env).2.versionsOf phi.declaration
        (∀ later q rest, p :: before = later ++ q :: rest → RecordedIn records q →
            (∀ b ∈ later, ¬ RecordedIn records b) →
          ∃ place, phi.operands.get? p = some place ∧ Leaves records q place) ∧
        ((∀ b ∈ p :: before, ¬ RecordedIn records b) → phi.operands.get? p = none) := by
  intro phi hphi p hp before hwalk
  refine ⟨fun later q rest hsplit hq hlater => ?_, fun hnone => ?_⟩
  · rw [get?_operands_of_last hflow hentry hphi hp hwalk hsplit hq hlater]
    cases hleft : leftBy ((f.buildSsa env).2.versionsOf phi.declaration) q with
    | none => exact absurd hq (leftBy_eq_none_iff.1 hleft)
    | some place => exact ⟨place, rfl, leftBy_eq_some_iff.1 hleft⟩
  · obtain ⟨hreach, hedge⟩ := (mem_predecessorsOf hflow).1 hp
    have hcontains := contains_of_walk hwalk hedge _ hwalk.entry_mem
    rw [get?_operands_buildSsa hphi hp, hflow]
    exact reachingVersion_eq_none hcontains hreach fun z hz => hnone z (hz before hwalk)

/-- A loop whose body may skip a write: blocks 1 to 4 repeat, only block 3 writes. -/
def skippingLoop : Function :=
  let test : Place := ⟨⟨0⟩, ⟨⟨0⟩, .numbered 0, ⟨0⟩⟩⟩
  let blocks : Table BlockId Block := Table.ofList
    [(⟨0⟩, ⟨[], some (.jump ⟨1⟩)⟩),
     (⟨1⟩, ⟨[], some (.branch test ⟨2⟩ ⟨5⟩ ⟨5⟩)⟩),
     (⟨2⟩, ⟨[], some (.branch test ⟨3⟩ ⟨4⟩ ⟨4⟩)⟩),
     (⟨3⟩, ⟨[], some (.jump ⟨4⟩)⟩),
     (⟨4⟩, ⟨[], some (.jump ⟨1⟩)⟩),
     (⟨5⟩, ⟨[], some (.ret none)⟩)]
  { start ⟨0⟩ none none .declaration none ⟨0⟩ with blocks }.recomputeFlow

/-- A variable with a first value in block 0 and a second one in block 3. -/
def twoWrites : Environment :=
  let (d, env) := Environment.declare {} (some "x") .letKind ⟨0⟩
  let (first, env) := env.newPlace d
  let (second, env) := env.newPlace d
  (env.record d ⟨0⟩ first).record d ⟨3⟩ second

/-- On the walk around the write, what comes back to the loop header is the join behind it. -/
theorem buildSsa_operands_skippingLoop :
    skippingLoop.flow = Flow.compute skippingLoop.entry (edgesOf skippingLoop.blocks) ∧
      skippingLoop.flow.predecessorsOf skippingLoop.entry = [] ∧
      ∃ phi ∈ (skippingLoop.buildSsa twoWrites).1.phis,
        (⟨4⟩ : BlockId) ∈ skippingLoop.flow.predecessorsOf phi.block ∧
        ∃ place, phi.operands.get? ⟨4⟩ = some place ∧
          Leaves ((skippingLoop.buildSsa twoWrites).2.versionsOf phi.declaration) ⟨4⟩ place := by
  have hentry : skippingLoop.flow.predecessorsOf skippingLoop.entry = [] := by decide
  refine ⟨rfl, hentry, ?_⟩
  obtain ⟨phi, hphi, hblock⟩ : ∃ phi ∈ (skippingLoop.buildSsa twoWrites).1.phis,
      phi.block = ⟨1⟩ ∧ RecordedIn
        ((skippingLoop.buildSsa twoWrites).2.versionsOf phi.declaration) ⟨4⟩ := by
    unfold RecordedIn
    decide
  have hp : (⟨4⟩ : BlockId) ∈ skippingLoop.flow.predecessorsOf phi.block := by
    rw [hblock.1]
    decide
  have hwalk : Walk skippingLoop.entry (edgesOf skippingLoop.blocks) [⟨4⟩, ⟨2⟩, ⟨1⟩, ⟨0⟩] :=
    .step (.step (.step .start (by decide)) (by decide)) (by decide)
  exact ⟨phi, hphi, hp, (buildSsa_operands skippingLoop twoWrites rfl hentry phi hphi ⟨4⟩ hp _
    hwalk).1 [] ⟨4⟩ _ rfl hblock.2 (by simp)⟩

end Function

end Whittle.Ir
