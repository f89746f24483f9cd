import Mathlib.Data.List.Nodup
import Mathlib.Tactic.Common
import Whittle.Proofs.Ir.Environment
import Whittle.Proofs.Ssa.Joins

/-!
# Placement of phis

What `Function.placePhis` does to the records of versions: the variables that need joins get one record
for each block of their iterated frontier, behind the records they have, and nothing else changes.  Each
phi is given the next id, cell and place.
-/

namespace Whittle.Ir

open Whittle.Ir.Flow

namespace Environment

@[simp] theorem versionsOf_newPhi (env : Environment) (d d' : DeclId) :
    (env.newPhi d).2.2.versionsOf d' = env.versionsOf d' := rfl

end Environment

namespace Function

/-- The record of a phi. -/
def recordOf (phi : Phi) : VersionRecord := ⟨phi.block, phi.place⟩

/-- The records of the phis of one declaration. -/
def recordsOf (phis : List Phi) (d : DeclId) : List VersionRecord :=
  (phis.filter (·.declaration == d)).map recordOf

theorem mem_recordsOf {phis : List Phi} {d : DeclId} {r : VersionRecord} :
    r ∈ recordsOf phis d ↔ ∃ phi ∈ phis, phi.declaration = d ∧ recordOf phi = r := by
  simp [recordsOf, and_assoc]

/-! ## One variable -/

theorem addPhis_cons (d : DeclId) (block : BlockId) (blocks : List BlockId) (env : Environment) :
    addPhis d (block :: blocks) env =
      (⟨(env.newPhi d).1, block, (env.newPhi d).2.1, ∅⟩ ::
          (addPhis d blocks ((env.newPhi d).2.2.record d block (env.newPhi d).2.1)).1,
        (addPhis d blocks ((env.newPhi d).2.2.record d block (env.newPhi d).2.1)).2) := rfl

theorem declaration_of_mem_addPhis {d : DeclId} {blocks : List BlockId} {env : Environment}
    {phi : Phi} (h : phi ∈ (addPhis d blocks env).1) : phi.declaration = d := by
  induction blocks generalizing env with
  | nil => cases h
  | cons block blocks ih =>
    rw [addPhis_cons] at h
    rcases List.mem_cons.1 h with rfl | h
    · rfl
    · exact ih h

theorem map_block_addPhis (d : DeclId) (blocks : List BlockId) (env : Environment) :
    (addPhis d blocks env).1.map (·.block) = blocks := by
  induction blocks generalizing env with
  | nil => rfl
  | cons block blocks ih => rw [addPhis_cons, List.map_cons, ih]

theorem versionsOf_addPhis (d d' : DeclId) (blocks : List BlockId) (env : Environment) :
    (addPhis d blocks env).2.versionsOf d' =
      env.versionsOf d' ++ recordsOf (addPhis d blocks env).1 d' := by
  induction blocks generalizing env with
  | nil => simp [addPhis, recordsOf]
  | cons block blocks ih =>
    rw [addPhis_cons, ih, Environment.versionsOf_record, Environment.versionsOf_newPhi,
      Environment.versionsOf_newPhi]
    by_cases hd : d' = d
    · subst hd
      have hphi : (⟨(env.newPhi d').1, block, (env.newPhi d').2.1, ∅⟩ : Phi).declaration = d' := rfl
      simp [recordsOf, recordOf, hphi]
    · have hphi : (⟨(env.newPhi d).1, block, (env.newPhi d).2.1, ∅⟩ : Phi).declaration = d := rfl
      simp [recordsOf, hd, hphi, Ne.symm hd]

/-! ## All variables -/

theorem placePhis_cons (frontier : BlockSets) (d : DeclId) (sites : KeySet BlockId)
    (targets : List (DeclId × KeySet BlockId)) (env : Environment) :
    placePhis frontier ((d, sites) :: targets) env =
      ((addPhis d (iteratedFrontier frontier sites) env).1 ++
          (placePhis frontier targets (addPhis d (iteratedFrontier frontier sites) env).2).1,
        (placePhis frontier targets (addPhis d (iteratedFrontier frontier sites) env).2).2) := rfl

theorem versionsOf_placePhis (frontier : BlockSets) (targets : List (DeclId × KeySet BlockId))
    (env : Environment) (d : DeclId) :
    (placePhis frontier targets env).2.versionsOf d =
      env.versionsOf d ++ recordsOf (placePhis frontier targets env).1 d := by
  induction targets generalizing env with
  | nil => simp [placePhis, recordsOf]
  | cons v targets ih =>
    obtain ⟨d', sites⟩ := v
    rw [placePhis_cons, ih, versionsOf_addPhis]
    simp [recordsOf]

theorem mem_placePhis {frontier : BlockSets} {targets : List (DeclId × KeySet BlockId)}
    {env : Environment} {phi : Phi} (h : phi ∈ (placePhis frontier targets env).1) :
    ∃ sites, (phi.declaration, sites) ∈ targets := by
  induction targets generalizing env with
  | nil => cases h
  | cons v targets ih =>
    obtain ⟨d, sites⟩ := v
    rw [placePhis_cons] at h
    rcases List.mem_append.1 h with h | h
    · rw [declaration_of_mem_addPhis h]
      exact ⟨sites, List.mem_cons_self⟩
    · obtain ⟨sites', hmem⟩ := ih h
      exact ⟨sites', List.mem_cons_of_mem _ hmem⟩

/-- A variable that needs joins gets one in each block of its iterated frontier. -/
theorem map_block_recordsOf_placePhis {frontier : BlockSets}
    {targets : List (DeclId × KeySet BlockId)}
    (hdistinct : targets.Pairwise fun a b => a.1 ≠ b.1) {env : Environment} {d : DeclId}
    {sites : KeySet BlockId} (h : (d, sites) ∈ targets) :
    (recordsOf (placePhis frontier targets env).1 d).map (·.block) =
      iteratedFrontier frontier sites := by
  induction targets generalizing env with
  | nil => cases h
  | cons v targets ih =>
    obtain ⟨d', sites'⟩ := v
    obtain ⟨hhead, hrest⟩ := List.pairwise_cons.1 hdistinct
    rw [placePhis_cons, recordsOf, List.filter_append, List.map_append, List.map_append]
    rcases List.mem_cons.1 h with heq | hmem
    · cases heq
      have hothers : (placePhis frontier targets
          (addPhis d (iteratedFrontier frontier sites) env).2).1.filter (·.declaration == d) = [] := by
        refine List.filter_eq_nil_iff.2 fun phi hphi => ?_
        obtain ⟨sites', hmem⟩ := mem_placePhis hphi
        simpa using Ne.symm (hhead _ hmem)
      have hown : (addPhis d (iteratedFrontier frontier sites) env).1.filter (·.declaration == d) =
          (addPhis d (iteratedFrontier frontier sites) env).1 :=
        List.filter_eq_self.2 fun phi hphi => by simp [declaration_of_mem_addPhis hphi]
      rw [hothers, hown, List.map_map, List.map_nil, List.map_nil, List.append_nil]
      exact map_block_addPhis d (iteratedFrontier frontier sites) env
    · have hothers : (addPhis d' (iteratedFrontier frontier sites') env).1.filter
          (·.declaration == d) = [] := by
        refine List.filter_eq_nil_iff.2 fun phi hphi => ?_
        rw [declaration_of_mem_addPhis hphi]
        simpa using hhead _ hmem
      rw [hothers]
      exact ih hrest hmem

/-- The variables that need joins, with the blocks of the function that record versions of them. -/
theorem mem_meetings {f : Function} {env : Environment} {d : DeclId} {sites : KeySet BlockId}
    (h : (d, sites) ∈ f.meetings env) (b : BlockId) :
    sites.contains b = true ↔ f.blocks.contains b = true ∧ ∃ r ∈ env.versionsOf d, r.block = b := by
  obtain ⟨⟨d', records⟩, hmem, hsome⟩ := List.mem_filterMap.1 h
  simp only [Option.ite_none_right_eq_some, Option.some.injEq, Prod.mk.injEq] at hsome
  obtain ⟨-, rfl, rfl⟩ := hsome
  have hversions : env.versionsOf d' = records := Table.getD_of_get? (Table.mem_entries.1 hmem)
  simp [hversions, and_comm]

theorem meetings_distinct (f : Function) (env : Environment) :
    (f.meetings env).Pairwise fun a b => a.1 ≠ b.1 := by
  refine List.Pairwise.filterMap _ ?_ (List.pairwise_map.1 env.versions.keys_nodup)
  rintro ⟨d, r⟩ ⟨d', r'⟩ hne ⟨a, s⟩ ha ⟨b, s'⟩ hb
  simp only [Option.ite_none_right_eq_some, Option.some.injEq, Prod.mk.injEq] at ha hb
  rw [← ha.2.1, ← hb.2.1]
  exact hne

/-! ## Numbers of phis -/

/-- A counter goes from one value to another and hands out all that it passes, in order. -/
inductive Counts : Nat → List Nat → Nat → Prop
  | done (n : Nat) : Counts n [] n
  | next {n m : Nat} {ns : List Nat} (more : Counts (n + 1) ns m) : Counts n (n :: ns) m

theorem Counts.append {k m n : Nat} {ks ms : List Nat} (hk : Counts k ks m) (hm : Counts m ms n) :
    Counts k (ks ++ ms) n := by
  induction hk with
  | done => exact hm
  | next _ ih => exact .next (ih hm)

/-- What is handed out lies between the old value of the counter and the new one. -/
theorem Counts.mem {k m n : Nat} {ns : List Nat} (h : Counts n ns m) (hk : k ∈ ns) : n ≤ k ∧ k < m := by
  have hle {n m : Nat} {ns : List Nat} (h : Counts n ns m) : n ≤ m := by
    induction h with
    | done => exact Nat.le_refl _
    | next _ ih => omega
  induction h with
  | done => cases hk
  | next more ih =>
    rcases List.mem_cons.1 hk with rfl | hk
    · exact ⟨Nat.le_refl _, hle more⟩
    · have hlater := ih hk
      omega

/-- No number is handed out twice. -/
theorem Counts.nodup {n m : Nat} {ns : List Nat} (h : Counts n ns m) : ns.Nodup := by
  induction h with
  | done => exact .nil
  | next more ih =>
    refine List.nodup_cons.2 ⟨?_, ih⟩
    intro hmem
    exact absurd (more.mem hmem).1 (by omega)

/-- The phis take the next ids, cells and places of an environment, and nothing that was handed out
before. -/
structure HandedOut (env : Environment) (phis : List Phi) (env' : Environment) : Prop where
  /-- The ids. -/
  ids : Counts env.nextPhi.index (phis.map (·.id.index)) env'.nextPhi.index
  /-- The cells. -/
  cells : Counts env.nextCell.index (phis.map (·.place.cell.id.index)) env'.nextCell.index
  /-- The places. -/
  places : Counts env.nextPlace.index (phis.map (·.place.id.index)) env'.nextPlace.index
  /-- Each phi defines the version that has its id. -/
  version : ∀ phi ∈ phis, phi.place.cell.version = .phi phi.id

theorem HandedOut.append {env env' env'' : Environment} {phis phis' : List Phi}
    (h : HandedOut env phis env') (h' : HandedOut env' phis' env'') :
    HandedOut env (phis ++ phis') env'' := by
  constructor
  · rw [List.map_append]
    exact h.ids.append h'.ids
  · rw [List.map_append]
    exact h.cells.append h'.cells
  · rw [List.map_append]
    exact h.places.append h'.places
  · intro phi hphi
    rcases List.mem_append.1 hphi with hphi | hphi
    · exact h.version phi hphi
    · exact h'.version phi hphi

theorem handedOut_addPhis (d : DeclId) (blocks : List BlockId) (env : Environment) :
    HandedOut env (addPhis d blocks env).1 (addPhis d blocks env).2 := by
  induction blocks generalizing env with
  | nil => exact ⟨.done _, .done _, .done _, by simp [addPhis]⟩
  | cons block blocks ih =>
    rw [addPhis_cons]
    have hfirst : HandedOut env [⟨(env.newPhi d).1, block, (env.newPhi d).2.1, ∅⟩]
        ((env.newPhi d).2.2.record d block (env.newPhi d).2.1) := by
      refine ⟨.next (.done _), .next (.done _), .next (.done _), ?_⟩
      intro phi hphi
      rw [List.mem_singleton.1 hphi]
      rfl
    exact hfirst.append (ih _)

theorem handedOut_placePhis (frontier : BlockSets) (targets : List (DeclId × KeySet BlockId))
    (env : Environment) :
    HandedOut env (placePhis frontier targets env).1 (placePhis frontier targets env).2 := by
  induction targets generalizing env with
  | nil => exact ⟨.done _, .done _, .done _, by simp [placePhis]⟩
  | cons v targets ih =>
    obtain ⟨d, sites⟩ := v
    rw [placePhis_cons]
    exact (handedOut_addPhis d (iteratedFrontier frontier sites) env).append (ih _)

/-! ## The joined function -/

theorem recordsOf_map_fillPhi (flow : Flow) (env : Environment) (phis : List Phi) (d : DeclId) :
    recordsOf (phis.map (fillPhi flow env)) d = recordsOf phis d := by
  rw [recordsOf, recordsOf, List.filter_map, List.map_map]
  rfl

/-- The records of a joined function: those that it had, then one for each of its phis. -/
theorem versionsOf_buildSsa (f : Function) (env : Environment) (d : DeclId) :
    (f.buildSsa env).2.versionsOf d =
      env.versionsOf d ++ recordsOf (f.buildSsa env).1.phis d := by
  change (placePhis _ _ env).2.versionsOf d = _ ++ recordsOf (List.map _ _) d
  rw [recordsOf_map_fillPhi, versionsOf_placePhis]

/-- The phis of a variable: one in each block of the iterated frontier of its sites. -/
theorem map_block_recordsOf_buildSsa {f : Function} {env : Environment} {phi : Phi}
    (hphi : phi ∈ (f.buildSsa env).1.phis) :
    ∃ sites, (phi.declaration, sites) ∈ f.meetings env ∧
      (recordsOf (f.buildSsa env).1.phis phi.declaration).map (·.block) =
        iteratedFrontier f.flow.frontier sites := by
  obtain ⟨placed, hplaced, rfl⟩ := List.mem_map.1 hphi
  obtain ⟨sites, hsites⟩ := mem_placePhis hplaced
  refine ⟨sites, hsites, ?_⟩
  change (recordsOf (List.map _ _) placed.declaration).map _ = _
  rw [recordsOf_map_fillPhi, map_block_recordsOf_placePhis (meetings_distinct f env) hsites]

/-- A phi stands where a block leads that some path reaches. -/
theorem exists_edge_of_phi {f : Function} {env : Environment} {phi : Phi}
    (hflow : f.flow = compute f.entry (edgesOf f.blocks)) (hentry : f.blocks.contains f.entry = true)
    (hphi : phi ∈ (f.buildSsa env).1.phis) :
    ∃ p, Reachable f.entry (edgesOf f.blocks) p ∧ phi.block ∈ (edgesOf f.blocks).getD p [] := by
  obtain ⟨sites, -, hblocks⟩ := map_block_recordsOf_buildSsa hphi
  have hmem : phi.block ∈ iteratedFrontier f.flow.frontier sites := by
    rw [← hblocks]
    exact List.mem_map.2 ⟨_, mem_recordsOf.2 ⟨phi, hphi, rfl, rfl⟩, rfl⟩
  obtain ⟨x, hx⟩ := exists_of_mem_iteratedFrontier hmem
  rw [hflow, has_frontier_iff (by simpa [edgesOf] using hentry)] at hx
  obtain ⟨-, p, hp, hedge, -⟩ := hx
  exact ⟨p, hp, hedge⟩

/-- A variable has at most one phi in a block. -/
theorem phi_eq_of_block {f : Function} {env : Environment} {phi phi' : Phi}
    (hphi : phi ∈ (f.buildSsa env).1.phis) (hphi' : phi' ∈ (f.buildSsa env).1.phis)
    (hdecl : phi.declaration = phi'.declaration) (hblock : phi.block = phi'.block) : phi = phi' := by
  obtain ⟨sites, -, hblocks⟩ := map_block_recordsOf_buildSsa hphi
  have hnodup := iteratedFrontier_nodup f.flow.frontier sites
  rw [← hblocks, recordsOf, List.map_map] at hnodup
  refine List.inj_on_of_nodup_map hnodup ?_ ?_ hblock
  · simp [hphi]
  · simp [hphi', hdecl]

/-- The phis of a joined function have the numbers that they were placed with. -/
theorem handedOut_buildSsa (f : Function) (env : Environment) :
    HandedOut env (f.buildSsa env).1.phis (f.buildSsa env).2 := by
  obtain ⟨hids, hcells, hplaces, hversion⟩ :=
    handedOut_placePhis f.flow.frontier (f.meetings env) env
  have hmap (number : Phi → Nat)
      (h : ∀ phi, number (fillPhi f.flow (f.buildSsa env).2 phi) = number phi) :
      (f.buildSsa env).1.phis.map number =
        (placePhis f.flow.frontier (f.meetings env) env).1.map number := by
    change (List.map _ (List.map _ _)) = _
    rw [List.map_map]
    exact List.map_congr_left fun phi _ => h phi
  constructor
  · rw [hmap _ fun _ => rfl]
    exact hids
  · rw [hmap _ fun _ => rfl]
    exact hcells
  · rw [hmap _ fun _ => rfl]
    exact hplaces
  · intro phi hphi
    obtain ⟨placed, hplaced, rfl⟩ := List.mem_map.1 hphi
    exact hversion placed hplaced

/-- A phi defines a joined version. -/
theorem version_of_phi {f : Function} {env : Environment} {phi : Phi}
    (hphi : phi ∈ (f.buildSsa env).1.phis) : ∃ id, phi.place.cell.version = .phi id :=
  ⟨phi.id, (handedOut_buildSsa f env).version phi hphi⟩

/-- Phis can be told apart by their cells. -/
theorem phi_eq_of_cell {f : Function} {env : Environment} {phi phi' : Phi}
    (hphi : phi ∈ (f.buildSsa env).1.phis) (hphi' : phi' ∈ (f.buildSsa env).1.phis)
    (hcell : phi.place.cell.id = phi'.place.cell.id) : phi = phi' :=
  List.inj_on_of_nodup_map (handedOut_buildSsa f env).cells.nodup hphi hphi'
    (congrArg Id.index hcell)

theorem phis_nodup (f : Function) (env : Environment) : (f.buildSsa env).1.phis.Nodup :=
  (handedOut_buildSsa f env).ids.nodup.of_map _

/-! ## Records stay well kept -/

theorem wellKept_addPhis {env : Environment} (h : env.WellKept) {d : DeclId}
    (hd : d.index < env.declarations.size) (blocks : List BlockId) :
    (addPhis d blocks env).2.WellKept ∧
      (addPhis d blocks env).2.declarations = env.declarations := by
  induction blocks generalizing env with
  | nil => exact ⟨h, rfl⟩
  | cons block blocks ih =>
    rw [addPhis_cons]
    exact ih (h.record_new rfl rfl (Nat.le_refl _) hd rfl rfl) hd

theorem wellKept_placePhis {env : Environment} (h : env.WellKept) (frontier : BlockSets)
    {targets : List (DeclId × KeySet BlockId)}
    (hdeclared : ∀ v ∈ targets, v.1.index < env.declarations.size) :
    (placePhis frontier targets env).2.WellKept ∧
      (placePhis frontier targets env).2.declarations = env.declarations := by
  induction targets generalizing env with
  | nil => exact ⟨h, rfl⟩
  | cons v targets ih =>
    obtain ⟨d, sites⟩ := v
    obtain ⟨hkept, hsame⟩ := wellKept_addPhis h (hdeclared _ List.mem_cons_self)
      (iteratedFrontier frontier sites)
    rw [placePhis_cons]
    obtain ⟨hkept', hsame'⟩ := ih hkept fun v hv => by
      rw [hsame]
      exact hdeclared v (List.mem_cons_of_mem _ hv)
    exact ⟨hkept', hsame'.trans hsame⟩

theorem two_le_size_of_mem_meetings {f : Function} {env : Environment} {d : DeclId}
    {sites : KeySet BlockId} (h : (d, sites) ∈ f.meetings env) : 2 ≤ sites.size := by
  obtain ⟨e, -, hsome⟩ := List.mem_filterMap.1 h
  simp only [Option.ite_none_right_eq_some, Option.some.injEq, Prod.mk.injEq, Bool.and_eq_true,
    decide_eq_true_eq] at hsome
  obtain ⟨⟨-, hsize⟩, -, rfl⟩ := hsome
  exact hsize

theorem named_of_mem_meetings {f : Function} {env : Environment} {d : DeclId}
    {sites : KeySet BlockId} (h : (d, sites) ∈ f.meetings env) : env.isTemporary d = false := by
  obtain ⟨e, -, hsome⟩ := List.mem_filterMap.1 h
  simp only [Option.ite_none_right_eq_some, Option.some.injEq, Prod.mk.injEq, Bool.and_eq_true,
    Bool.not_eq_true'] at hsome
  obtain ⟨⟨hnamed, -⟩, rfl, -⟩ := hsome
  exact hnamed

theorem versionsOf_ne_nil_of_mem_meetings {f : Function} {env : Environment} {d : DeclId}
    {sites : KeySet BlockId} (h : (d, sites) ∈ f.meetings env) : env.versionsOf d ≠ [] := by
  obtain ⟨b, -, -, hb, -⟩ := KeySet.two_le_size_iff.1 (two_le_size_of_mem_meetings h)
  obtain ⟨-, r, hr, -⟩ := (mem_meetings h b).1 hb
  exact List.ne_nil_of_mem hr

theorem wellKept_buildSsa {env : Environment} (h : env.WellKept) (f : Function) :
    (f.buildSsa env).2.WellKept ∧ (f.buildSsa env).2.declarations = env.declarations :=
  wellKept_placePhis h f.flow.frontier fun ⟨d, _⟩ hv =>
    h.declared d (versionsOf_ne_nil_of_mem_meetings hv)

theorem mem_versionsOf_of_phi {f : Function} {env : Environment} {phi : Phi}
    (hphi : phi ∈ (f.buildSsa env).1.phis) :
    recordOf phi ∈ (f.buildSsa env).2.versionsOf phi.declaration := by
  rw [versionsOf_buildSsa]
  exact List.mem_append_right _ (mem_recordsOf.2 ⟨phi, hphi, rfl, rfl⟩)

/-- The cells of phis are new. -/
theorem cell_ne_of_phi {f : Function} {env : Environment} (h : env.WellKept) {phi : Phi}
    (hphi : phi ∈ (f.buildSsa env).1.phis) {d : DeclId} {r : VersionRecord}
    (hr : r ∈ env.versionsOf d) : r.place.cell.id ≠ phi.place.cell.id := by
  have hle := ((handedOut_buildSsa f env).cells.mem (List.mem_map.2 ⟨phi, hphi, rfl⟩)).1
  have hlt := h.cell_lt d r hr
  intro heq
  rw [heq] at hlt
  omega

end Function

end Whittle.Ir
