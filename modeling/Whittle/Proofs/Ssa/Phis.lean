import Mathlib.Data.Set.Subsingleton
import Mathlib.Logic.Relation
import Mathlib.Order.Bounds.Defs
import Mathlib.Tactic.Common
import Whittle.Proofs.Ssa.Operands

/-!
# Where phis stand

Versions of a variable meet when two blocks of a function record them.  `Function.buildSsa` then gives
the variable one phi in each block of the least set that contains the frontiers of those blocks and of its
own members; no other phi is created, and each is new and recorded once.  Main statement:
`Function.buildSsa_places`.
-/

namespace Whittle.Ir

open Whittle.Ir.Flow

namespace Function

variable {f : Function} {env : Environment} {d : DeclId}

/-- The blocks of a function that record versions of a variable. -/
def recording (f : Function) (env : Environment) (d : DeclId) : Set BlockId :=
  {b | f.blocks.contains b = true ∧ RecordedIn (env.versionsOf d) b}

/-- The variable has a name, and two blocks of the function record versions of it. -/
def Meets (f : Function) (env : Environment) (d : DeclId) : Prop :=
  env.isTemporary d = false ∧ (f.recording env d).Nontrivial

/-- The blocks of the phis of a variable, in the order of the phis. -/
def blocksOf (phis : List Phi) (d : DeclId) : List BlockId :=
  (phis.filter (·.declaration == d)).map (·.block)

/-- What phis have to do with a function, given the environments before and after they are created. -/
structure Places (f : Function) (env : Environment) (phis : List Phi) (env' : Environment) :
    Prop where
  /-- The phis of a variable stand in the least set of blocks that contains the frontiers of the blocks
  that record versions of it, and its own frontiers. -/
  least : ∀ d, f.Meets env d →
    IsLeast (FrontiersWithin f.flow.frontier (f.recording env d)) {b | b ∈ blocksOf phis d}
  /-- A variable has one phi in a block. -/
  single : ∀ d, (blocksOf phis d).Nodup
  /-- There is no phi of a variable whose versions do not meet. -/
  only : ∀ phi ∈ phis, f.Meets env phi.declaration
  /-- The search starts from the blocks that record versions, and when it ends, with its queue empty, it
  has found the blocks of the phis. -/
  search : ∀ d, f.Meets env d → ∃ sites : KeySet BlockId,
    f.recording env d = {b | sites.contains b = true} ∧
      Relation.ReflTransGen (SearchStep f.flow.frontier sites) (sites.keys, [])
        ([], blocksOf phis d)
  /-- Ids, cells and places of the phis are new, and no two phis share one. -/
  handedOut : HandedOut env phis env'
  /-- Each phi is recorded for its block, behind all older records; nothing else is recorded. -/
  records : ∀ d, env'.versionsOf d = env.versionsOf d ++ recordsOf phis d
  /-- Where only places that were handed out are recorded, the place of a phi is recorded once, as the
  version of its variable in its block. -/
  once : (∀ d, ∀ r ∈ env.versionsOf d, r.place.id.index < env.nextPlace.index) →
    ∀ phi ∈ phis, ∀ d, (env'.versionsOf d).filter (·.place.id == phi.place.id) =
      if d = phi.declaration then [recordOf phi] else []

/-! ## Variables whose versions meet -/

theorem recording_eq {sites : KeySet BlockId} (h : (d, sites) ∈ f.meetings env) :
    f.recording env d = {b | sites.contains b = true} := by
  ext b
  exact (mem_meetings h b).symm

/-- Phis are placed for the variables whose versions meet. -/
theorem meets_iff : f.Meets env d ↔ ∃ sites, (d, sites) ∈ f.meetings env := by
  constructor
  · rintro ⟨hnamed, b, hb, b', hb', hne⟩
    cases hget : env.versions.get? d with
    | none =>
      obtain ⟨-, r, hr, -⟩ := hb
      simp [Environment.versionsOf, Table.getD, hget] at hr
    | some records =>
      have hversions : env.versionsOf d = records := Table.getD_of_get? hget
      let sites := KeySet.ofList ((records.map (·.block)).filter f.blocks.contains)
      have hsite {b : BlockId} (hb : b ∈ f.recording env d) : sites.contains b = true := by
        obtain ⟨hblock, r, hr, rfl⟩ := hb
        rw [hversions] at hr
        simp only [sites, KeySet.contains_ofList, List.mem_filter, List.mem_map, decide_eq_true_eq]
        exact ⟨⟨r, hr, rfl⟩, hblock⟩
      have htwo : 2 ≤ sites.size := KeySet.two_le_size_iff.2 ⟨b, b', hne, hsite hb, hsite hb'⟩
      refine ⟨sites, List.mem_filterMap.2 ⟨(d, records), Table.mem_entries.2 hget, ?_⟩⟩
      simp only [hnamed, Bool.not_false, Bool.true_and, decide_eq_true_eq]
      exact if_pos htwo
  · rintro ⟨sites, h⟩
    obtain ⟨b, b', hne, hb, hb'⟩ := KeySet.two_le_size_iff.1 (two_le_size_of_mem_meetings h)
    refine ⟨named_of_mem_meetings h, ?_⟩
    rw [recording_eq h]
    exact ⟨b, hb, b', hb', hne⟩

/-- The phis of a variable whose versions meet are in the blocks that the search finds. -/
theorem blocksOf_buildSsa {sites : KeySet BlockId} (h : (d, sites) ∈ f.meetings env) :
    blocksOf (f.buildSsa env).1.phis d = iteratedFrontier f.flow.frontier sites := by
  rw [← map_block_recordsOf_placePhis (meetings_distinct f env) h,
    ← recordsOf_map_fillPhi f.flow (f.buildSsa env).2]
  simp only [blocksOf, recordsOf, List.map_map]
  rfl

/-! ## One record of each phi -/

theorem filter_eq_singleton {α β : Type} [DecidableEq β] {number : α → β} {l : List α} {a : α}
    (hnodup : (l.map number).Nodup) (ha : a ∈ l) : l.filter (number · == number a) = [a] := by
  induction l with
  | nil => cases ha
  | cons b l ih =>
    obtain ⟨hb, hl⟩ := List.nodup_cons.1 hnodup
    rcases List.mem_cons.1 ha with rfl | ha
    · have hrest : l.filter (number · == number a) = [] := by
        apply List.filter_eq_nil_iff.2
        intro x hx heq
        exact hb (List.mem_map.2 ⟨x, hx, by simpa using heq⟩)
      simp [hrest]
    · have hne : number b ≠ number a := by
        intro heq
        exact hb (List.mem_map.2 ⟨a, ha, heq.symm⟩)
      simp [hne, ih hl ha]

/-- Among the records of phis, the place of a phi is found once. -/
theorem filter_recordsOf {phis : List Phi} (hnodup : (phis.map (·.place.id.index)).Nodup) {phi : Phi}
    (hphi : phi ∈ phis) (d : DeclId) :
    (recordsOf phis d).filter (·.place.id == phi.place.id) =
      if d = phi.declaration then [recordOf phi] else [] := by
  have hids : (phis.map (·.place.id)).Nodup := by
    apply List.Nodup.of_map Id.index
    rwa [List.map_map]
  have hone := filter_eq_singleton hids hphi
  have hsame : (recordsOf phis d).filter (·.place.id == phi.place.id) =
      ((phis.filter (·.place.id == phi.place.id)).filter (·.declaration == d)).map recordOf := by
    rw [recordsOf, List.filter_map, List.filter_filter, List.filter_filter]
    simp only [Bool.and_comm, Function.comp_def, recordOf]
  rw [hsame, hone]
  by_cases hd : d = phi.declaration
  · simp [hd]
  · simp [hd, Ne.symm hd]

/-! ## All phis -/

/-- A function gets its phis where versions meet, and nowhere else. -/
theorem buildSsa_places (f : Function) (env : Environment) :
    f.Places env (f.buildSsa env).1.phis (f.buildSsa env).2 := by
  have hmeets : ∀ phi ∈ (f.buildSsa env).1.phis, f.Meets env phi.declaration := by
    intro phi hphi
    obtain ⟨sites, hsites, -⟩ := map_block_recordsOf_buildSsa hphi
    exact meets_iff.2 ⟨sites, hsites⟩
  constructor
  case least =>
    intro d hd
    obtain ⟨sites, hsites⟩ := meets_iff.1 hd
    rw [recording_eq hsites, blocksOf_buildSsa hsites]
    exact iteratedFrontier_isLeast f.flow.frontier sites
  case single =>
    intro d
    by_cases hd : f.Meets env d
    · obtain ⟨sites, hsites⟩ := meets_iff.1 hd
      rw [blocksOf_buildSsa hsites]
      exact iteratedFrontier_nodup f.flow.frontier sites
    · have hnone : (f.buildSsa env).1.phis.filter (·.declaration == d) = [] := by
        apply List.filter_eq_nil_iff.2
        intro phi hphi heq
        obtain rfl : phi.declaration = d := by simpa using heq
        exact hd (hmeets phi hphi)
      rw [blocksOf, hnone]
      exact .nil
  case only => exact hmeets
  case search =>
    intro d hd
    obtain ⟨sites, hsites⟩ := meets_iff.1 hd
    refine ⟨sites, recording_eq hsites, ?_⟩
    rw [blocksOf_buildSsa hsites]
    exact (iteratedFrontier_search f.flow.frontier sites).1
  case handedOut => exact handedOut_buildSsa f env
  case records => exact versionsOf_buildSsa f env
  case once =>
    intro hold phi hphi d
    have hplaces := (handedOut_buildSsa f env).places
    have hnew := (hplaces.mem (List.mem_map.2 ⟨phi, hphi, rfl⟩)).1
    have hnone : (env.versionsOf d).filter (·.place.id == phi.place.id) = [] := by
      apply List.filter_eq_nil_iff.2
      intro r hr heq
      have hlt := hold d r hr
      rw [eq_of_beq heq] at hlt
      omega
    rw [versionsOf_buildSsa, List.filter_append, hnone, List.nil_append]
    exact filter_recordsOf hplaces.nodup hphi d

/-- The write in the loop body meets the first value where the paths around it join again and, from
there, in the loop header; each of the two phis is recorded once. -/
theorem buildSsa_places_skippingLoop : skippingLoop.Meets twoWrites ⟨0⟩ ∧
    skippingLoop.Places twoWrites (skippingLoop.buildSsa twoWrites).1.phis
      (skippingLoop.buildSsa twoWrites).2 ∧
    blocksOf (skippingLoop.buildSsa twoWrites).1.phis ⟨0⟩ = [⟨4⟩, ⟨1⟩] ∧
    ∀ phi ∈ (skippingLoop.buildSsa twoWrites).1.phis,
      ((skippingLoop.buildSsa twoWrites).2.versionsOf phi.declaration).filter
        (·.place.id == phi.place.id) = [recordOf phi] := by
  have hmeets : skippingLoop.Meets twoWrites ⟨0⟩ := by
    refine ⟨rfl, ⟨0⟩, ?_, ⟨3⟩, ?_, by decide⟩
    · exact ⟨by decide, by unfold RecordedIn; decide⟩
    · exact ⟨by decide, by unfold RecordedIn; decide⟩
  have hplaces := buildSsa_places skippingLoop twoWrites
  refine ⟨hmeets, hplaces, by decide, ?_⟩
  intro phi hphi
  have hold (d : DeclId) : ∀ r ∈ twoWrites.versionsOf d,
      r.place.id.index < twoWrites.nextPlace.index := by
    intro r hr
    rcases Environment.mem_versionsOf_record.1 hr with hr | ⟨-, rfl⟩
    · rcases Environment.mem_versionsOf_record.1 hr with hr | ⟨-, rfl⟩
      · cases hr
      · decide
    · decide
  rw [hplaces.once hold phi hphi phi.declaration, if_pos rfl]

end Function

end Whittle.Ir
