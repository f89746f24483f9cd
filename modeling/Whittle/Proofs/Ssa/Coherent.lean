import Mathlib.Tactic.Common
import Whittle.Proofs.Ir.Cells
import Whittle.Proofs.Ir.Functions
import Whittle.Proofs.Ssa.Operands
import Whittle.Proofs.Ssa.Removal
import Whittle.Ssa.Copies

/-!
# Joins keep modules coherent

The operands of a phi are recorded versions of the declaration that it joins.  So what removing it adds
to a function are places that were there, and where a returned value is redirected to the phi, that is
a version of the same declaration.

Main statement: `Module.Coherent.throughSsa`.
-/

namespace Whittle.Ir

variable {env env' : Environment} {cells : List Cell} {f f' : Function} {phi : Phi} {id : FuncId}

/-! ## Phis -/

/-- A phi of a variable, made just now. -/
structure Phi.IsNew (phi : Phi) (env : Environment) (cells : List Cell) : Prop where
  place : phi.place.IsOf cells
  joined : phi.place.cell.version.isNumbered = false
  named : env.isTemporary phi.declaration = false

theorem advance_addPhis (h : env.Logs cells) {d : DeclId} (hd : env.isTemporary d = false)
    (blocks : List BlockId) : ∃ cells', Advance env cells (Function.addPhis d blocks env).2 cells' ∧
      ∀ phi ∈ (Function.addPhis d blocks env).1, phi.IsNew env cells' := by
  induction blocks generalizing env cells with
  | nil => exact ⟨cells, .refl h, by simp [Function.addPhis]⟩
  | cons block blocks ih =>
    obtain ⟨cells₁, hphi, hplace⟩ := Advance.newPhi h (Environment.index_lt_of_named hd) hd
    have hrecord : Advance _ _ ((env.newPhi d).2.2.record d block (env.newPhi d).2.1) cells₁ :=
      .record hphi.logs hplace block
    have hfirst := hphi.trans hrecord
    obtain ⟨cells', hmore, hphis⟩ := ih hrecord.logs (hfirst.named hd)
    rw [Function.addPhis_cons]
    refine ⟨cells', hfirst.trans hmore, List.forall_mem_cons.2
      ⟨⟨hplace.mono (hrecord.trans hmore).cells, rfl, hd⟩, fun phi hphi => ?_⟩⟩
    exact { hphis phi hphi with }

theorem advance_placePhis (h : env.Logs cells) (frontier : BlockSets)
    {targets : List (DeclId × KeySet BlockId)} (htargets : ∀ t ∈ targets, env.isTemporary t.1 = false) :
    ∃ cells', Advance env cells (Function.placePhis frontier targets env).2 cells' ∧
      ∀ phi ∈ (Function.placePhis frontier targets env).1,
        phi.IsNew (Function.placePhis frontier targets env).2 cells' := by
  induction targets generalizing env cells with
  | nil => exact ⟨cells, .refl h, by simp [Function.placePhis]⟩
  | cons target targets ih =>
    obtain ⟨d, sites⟩ := target
    obtain ⟨hd, htargets⟩ := List.forall_mem_cons.1 htargets
    obtain ⟨cells₁, hadvance, hphis⟩ := advance_addPhis h hd (iteratedFrontier frontier sites)
    obtain ⟨cells', hmore, hothers⟩ := ih hadvance.logs fun t ht => hadvance.named (htargets t ht)
    rw [Function.placePhis_cons]
    refine ⟨cells', hadvance.trans hmore, List.forall_mem_append.2 ⟨fun phi hphi => ?_, hothers⟩⟩
    obtain ⟨hplace, hjoined, hnamed⟩ := hphis phi hphi
    exact ⟨hplace.mono hmore.cells, hjoined, (hadvance.trans hmore).named hnamed⟩

theorem exists_record_of_reachingVersion {immediate : Table BlockId BlockId}
    {records : List VersionRecord} {fuel : Nat} {block : BlockId} {p : Place}
    (h : reachingVersion immediate records fuel block = some p) : ∃ r ∈ records, r.place = p := by
  induction fuel generalizing block with
  | zero => cases h
  | succ fuel ih =>
    rw [reachingVersion] at h
    split at h
    · next place hleft =>
      obtain rfl := Option.some.inj h
      exact ⟨_, mem_of_leftBy hleft, rfl⟩
    · obtain ⟨dominator, -, h⟩ := Option.bind_eq_some_iff.1 h
      exact ih h

theorem advance_buildSsa (h : env.Logs cells) (f : Function) :
    ∃ cells', Advance env cells (f.buildSsa env).2 cells' ∧
      ∀ phi ∈ (f.buildSsa env).1.phis, phi.Fits (f.buildSsa env).2 cells' := by
  obtain ⟨cells', hadvance, hphis⟩ := advance_placePhis h f.flow.frontier
    fun t ht => Function.named_of_mem_meetings (f := f) ht
  refine ⟨cells', hadvance, fun phi hphi => ?_⟩
  obtain ⟨placed, hplaced, rfl⟩ := List.mem_map.1 hphi
  obtain ⟨hplace, hjoined, hnamed⟩ := hphis placed hplaced
  refine ⟨hplace, hjoined, hnamed, fun b p hp => ?_⟩
  rw [Function.get?_operands_buildSsa hphi (Function.mem_predecessorsOf_of_operand hphi hp)] at hp
  obtain ⟨r, hr, rfl⟩ := exists_record_of_reachingVersion hp
  exact hadvance.logs.recorded _ r hr

/-! ## Removing them -/

theorem mem_of_mem_insertBehind {p : Instr → Bool} {new i : Instr} {is : List Instr}
    (h : i ∈ insertBehind p new is) : i = new ∨ i ∈ is := by
  induction is with
  | nil => exact .inl (List.mem_singleton.1 h)
  | cons j is ih =>
    rw [insertBehind] at h
    split at h
    · simp only [List.mem_cons] at h ⊢
      tauto
    · simp only [List.mem_cons] at h ⊢
      tauto

theorem Function.Fits.withStore (hf : f.Fits env cells id) (first : VersionRecord) {store : Instr}
    (hstore : ∀ p ∈ store.places, p.IsOf cells) : (f.withStore first store).Fits env cells id := by
  refine ⟨hf.id, ⟨hf.uses.params, hf.uses.header, forall_withStore hf.uses.blocks ?_⟩, hf.phis⟩
  intro b huses
  refine huses.withInstructions fun i hi => ?_
  rcases mem_of_mem_insertBehind hi with rfl | hi
  · exact hstore
  · exact huses.instructions i hi

/-- Some reads of a block become reads of other places. -/
theorem Block.Uses.mapSome {good own : Place → Prop} {g : Place → Place} {b : Block}
    (h : b.Uses good own) (hg : ∀ p, good p → good (g p)) (hown : ∀ p, good p → own p → own (g p))
    (chosen : Nat → List Place → Bool) :
    ({ instructions := b.instructions.mapIdx fun index i =>
          if chosen index i.reads then i.mapReads g else i
       terminal := b.terminal.map fun t =>
          if chosen b.instructions.length t.reads then t.mapReads g else t } : Block).Uses good own := by
  have hall := h.mapReads hg hown
  refine ⟨fun i hi => ?_, fun t ht => ?_, fun p hp => ?_⟩
  · obtain ⟨index, hindex, rfl⟩ := List.mem_mapIdx.1 hi
    have hmem := List.getElem_mem hindex
    split
    · exact hall.instructions _ (List.mem_map_of_mem hmem)
    · exact h.instructions _ hmem
  · obtain ⟨t₀, ht₀, rfl⟩ := Option.map_eq_some_iff.1 ht
    split
    · exact hall.terminal _ (by rw [Block.mapReads, ht₀]; rfl)
    · exact h.terminal t₀ ht₀
  · obtain ⟨t, ht, hret⟩ := Option.map_eq_some_iff.1 hp
    split at hret
    · exact hall.returned p (by rw [Block.mapReads, ht]; exact congrArg some hret)
    · exact h.returned p (hret ▸ ht)

theorem Function.Fits.redirectReads (hf : f.Fits env cells id) (hphi : phi.Fits env cells) :
    (f.redirectReads env phi).Fits env cells id := by
  refine ⟨hf.id, hf.uses.mapBlocks fun b block hb => ?_, hf.phis⟩
  have huses := hf.uses.blocks b block hb
  split
  · refine huses.mapSome (fun p hp => ?_) (fun p hp howner => ?_) _
    · split
      · exact hphi.place
      · exact hp
    · -- cells of one number are one cell, so what is read belongs to the phi's declaration
      split
      · next hoperand =>
        simp only [KeySet.contains_ofList, decide_eq_true_eq, List.mem_map, Table.mem_values]
          at hoperand
        obtain ⟨operand, ⟨pred, hpred⟩, hid⟩ := hoperand
        obtain ⟨hof, hd⟩ := hphi.operands pred operand hpred
        have hcell := hof.single hp hid
        have hsame : phi.place.declaration = p.declaration := by
          rw [← Phi.declaration, ← hd, Place.declaration, hcell]
          rfl
        rwa [hsame]
      · exact howner
  · exact huses

theorem Advance.copyInstrs (h : env.Logs cells) (hphi : phi.place.IsOf cells) (owner : FuncId)
    {operand : Place} (hoperand : operand.IsOf cells) :
    ∃ cells', Advance env cells (copyInstrs phi owner operand env).2 cells' ∧
      ∀ i ∈ (copyInstrs phi owner operand env).1, ∀ p ∈ i.places, p.IsOf cells' := by
  rw [Ir.copyInstrs]
  dsimp only
  obtain ⟨cells₁, hload, hloaded⟩ := Advance.newInstr_places h owner (.loadLocal operand)
    (by simpa [Op.reads] using hoperand) (by simp [Op.target?])
  generalize env.newInstr owner (.loadLocal operand) = load at hload hloaded ⊢
  obtain ⟨cells₂, hcopy, hcopied⟩ := Advance.newInstr_places hload.logs owner
    (.copy phi.place load.1.place)
    (by simpa [Op.reads] using hloaded _ load.1.place_mem_places)
    (by simpa [Op.target?] using hphi.mono hload.cells)
  generalize load.2.newInstr owner (.copy phi.place load.1.place) = copy at hcopy hcopied ⊢
  obtain ⟨cells₃, hstatement, hstated⟩ := Advance.newInstr_places hcopy.logs owner
    (.expressionStatement copy.1.place)
    (by simpa [Op.reads] using hcopied _ copy.1.place_mem_places) (by simp [Op.target?])
  refine ⟨cells₃, (hload.trans hcopy).trans hstatement, ?_⟩
  simp only [List.forall_mem_cons, List.not_mem_nil, false_imp_iff, implies_true, and_true]
  exact ⟨fun p hp => (hloaded p hp).mono (hcopy.trans hstatement).cells,
    fun p hp => (hcopied p hp).mono hstatement.cells, hstated⟩

/-- The environment comes further with every change for a phi, and the function still fits in. -/
theorem Phi.Fits.survives (hphi : phi.Fits env cells) (id : FuncId) :
    Function.Survives
      (fun f env' => ∃ cells', Advance env cells env' cells' ∧ f.Fits env' cells' id) phi where
  store := by
    rintro f env₁ first ⟨cells₁, hadvance, hf⟩ hfirst
    have hvalue := (hadvance.logs.recorded _ first (List.mem_of_find?_eq_some hfirst)).1
    obtain ⟨cells₂, hnew, hstore⟩ := Advance.newInstr_places hadvance.logs f.id
      (.storeLocal phi.place first.place .reassign) (by simpa [Op.reads] using hvalue)
      (by simpa [Op.target?] using hphi.place.mono hadvance.cells)
    exact ⟨cells₂, hadvance.trans hnew, (hnew.fits hf).withStore first hstore⟩
  redirect := by
    rintro f env₁ ⟨cells₁, hadvance, hf⟩
    exact ⟨cells₁, hadvance, hf.redirectReads (hadvance.phi hphi)⟩
  copy := by
    rintro f env₁ predecessor operand b ⟨cells₁, hadvance, hf⟩ hoperand hb
    have hphi₁ := hadvance.phi hphi
    obtain ⟨cells₂, hnew, hcopies⟩ := Advance.copyInstrs hadvance.logs hphi₁.place f.id
      (hphi₁.operands predecessor operand hoperand).1
    have hlater := hnew.fits hf
    have huses := hlater.uses.blocks predecessor b hb
    have hinstrs := List.forall_mem_append.2 ⟨huses.instructions, hcopies⟩
    exact ⟨cells₂, hadvance.trans hnew, hlater.id,
      hlater.uses.setBlock predecessor (huses.withInstructions hinstrs), hlater.phis⟩

/-! ## Modules -/

theorem Function.Fits.buildSsa (hf : f.Fits env cells id) (h : env.Logs cells) :
    ∃ cells', Advance env cells (f.buildSsa env).2 cells' ∧
      (f.buildSsa env).1.Fits (f.buildSsa env).2 cells' id := by
  obtain ⟨cells', hadvance, hphis⟩ := advance_buildSsa h f
  have hlater := hadvance.fits hf
  exact ⟨cells', hadvance, hlater.id,
    ⟨hlater.uses.params, hlater.uses.header, hlater.uses.blocks⟩, hphis⟩

theorem Function.Fits.eliminateSsa (hf : f.Fits env cells id) (h : env.Logs cells)
    (hout : f.eliminateSsa env = .ok (f', env')) :
    ∃ cells', Advance env cells env' cells' ∧ f'.Fits env' cells' id := by
  have hstart : ({ f with phis := [] } : Function).Fits env cells id :=
    ⟨hf.id, ⟨hf.uses.params, hf.uses.header, hf.uses.blocks⟩, by rintro phi ⟨⟩⟩
  exact Function.eliminateSsa_induction (fun phi hphi _ => (hf.phis phi hphi).survives id)
    ⟨cells, .refl h, hstart⟩ hout

/-- A step on all functions, one after the other. -/
theorem Module.Coherent.forFunctions {m m' : Module}
    {step : Function → Environment → Outcome (Function × Environment)} (hm : m.Coherent env)
    (hstep : ∀ {f : Function} {env cells id f' env'}, f.Fits env cells id → env.Logs cells →
      step f env = .ok (f', env') → ∃ cells', Advance env cells env' cells' ∧ f'.Fits env' cells' id)
    (hout : m.forFunctions step env = .ok (m', env')) : m'.Coherent env' := by
  refine Module.forFunctions_induction (P := fun m env => m.Coherent env) ?_ hout hm
  rintro m env id f f' env' ⟨cells, hlogs, hall⟩ hf hone
  obtain ⟨cells', hadvance, hfits⟩ := hstep (hall id f hf) hlogs hone
  exact ⟨cells', hadvance.logs, (AllUse.advance hall hadvance).setFunction hfits⟩

theorem Module.Coherent.buildSsa {m m' : Module} (hm : m.Coherent env)
    (hout : m.buildSsa env = .ok (m', env')) : m'.Coherent env' := by
  refine hm.forFunctions (fun hf h hone => ?_) hout
  obtain ⟨rfl, rfl⟩ := Prod.mk.inj (Except.ok.inj hone)
  exact hf.buildSsa h

theorem Module.Coherent.eliminateSsa {m m' : Module} (hm : m.Coherent env)
    (hout : m.eliminateSsa env = .ok (m', env')) : m'.Coherent env' :=
  hm.forFunctions (fun hf h hone => hf.eliminateSsa h hone) hout

/-- Joins come and go, and a module stays coherent. -/
theorem Module.Coherent.throughSsa {m m' : Module} (hm : m.Coherent env)
    (hout : m.throughSsa env = .ok (m', env')) : m'.Coherent env' := by
  refine hm.forFunctions (fun hf h hone => ?_) hout
  obtain ⟨cells₁, hbuild, hbuilt⟩ := hf.buildSsa h
  obtain ⟨cells', heliminate, hfits⟩ := hbuilt.eliminateSsa hbuild.logs hone
  exact ⟨cells', hbuild.trans heliminate, hfits⟩

end Whittle.Ir
