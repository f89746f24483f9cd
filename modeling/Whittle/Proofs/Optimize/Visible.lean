import Mathlib.Tactic.Common
import Whittle.Proofs.Optimize.Homes

/-!
# Captured variables are all captured

Code of one function that mentions a variable of another one is captured code, and so is what kept
source and exports mention.  Lowering captures all of it.  Operations hand out temporaries, join
variables of the function that joins them, and copy code whose variables become the caller's own: so what
was captured is all that has to be.  The one thing that a copy forgets is that an exported variable stays
exported, so exports count only where the functions that may be copied hold none.

Main statement: `Module.used_captured`.
-/

namespace Whittle.Ir

/-- Whether an operation exports a variable. -/
def Op.isExport : Op → Bool
  | .exportSpecifier .. => true
  | _ => false

variable {exports : Bool} {env env' : Environment} {cells cells' : List Cell} {id : FuncId}
  {kind : FunctionKind} {i j : Instr} {p q : Place}

/-! ## Instructions -/

/-- An instruction that uses what its function may use, and exports nothing where it may be copied. -/
structure Instr.Discreet (exports : Bool) (env : Environment) (id : FuncId) (kind : FunctionKind)
    (i : Instr) : Prop extends i.Visible exports env id where
  unexported : exports = true → kind = .declaration → i.op.isExport = false

theorem Op.isExposing_mono {op : Op} (h : op.isExposing exports = true) : op.isExposing true = true := by
  cases op <;> first | rfl | cases h

theorem Op.isExposing_of_isExport {op : Op} (h : op.isExport = true) : op.isExposing true = true := by
  cases op <;> first | rfl | cases h

theorem Environment.Shows.congr (h : env.Shows id p) (hd : q.declaration = p.declaration) :
    env.Shows id q := by
  rwa [Environment.Shows, hd]

theorem Environment.Exposes.congr (h : env.Exposes p) (hd : q.declaration = p.declaration) :
    env.Exposes q :=
  ⟨hd ▸ h.named, hd ▸ h.captured⟩

namespace Instr.Discreet

/-- An instruction that shows nothing to others. -/
theorem of_plain (hop : i.op.isExposing true = false) (hplaces : ∀ p ∈ i.places, env.Shows id p) :
    i.Discreet exports env id kind := by
  refine ⟨⟨hplaces, fun hexposing => ?_⟩, fun _ _ => Bool.eq_false_iff.2 fun hexport => ?_⟩
  · rw [Op.isExposing_mono hexposing] at hop
    cases hop
  · rw [Op.isExposing_of_isExport hexport] at hop
    cases hop

theorem advance (h : i.Discreet exports env id kind) (hadvance : Advance env cells env' cells')
    (hlogs : env.Logs cells) (hi : ∀ p ∈ i.places, p.IsOf cells) : i.Discreet exports env' id kind :=
  ⟨hadvance.instrVisible hlogs hi h.toVisible, h.unexported⟩

/-- An instruction in the place of another one that exposes only what that one does. -/
theorem replace (h : i.Discreet exports env id kind) (hplaces : ∀ p ∈ j.places, env.Shows id p)
    (hop : j.op.isExposing true = true → j.op = i.op) : j.Discreet exports env id kind := by
  refine ⟨⟨hplaces, fun hexposing p hp => ?_⟩, fun hexports hkind => Bool.eq_false_iff.2 fun hexport => ?_⟩
  · have hsame := hop (Op.isExposing_mono hexposing)
    rw [reads, hsame] at hp
    exact h.exposed (hsame ▸ hexposing) p hp
  · have hnone := h.unexported hexports hkind
    rw [← hop (Op.isExposing_of_isExport hexport), hexport] at hnone
    cases hnone

theorem weakens (h : i.Discreet exports env id kind) (hij : i.Weakens j) :
    j.Discreet exports env id kind :=
  h.replace (fun p hp => h.shown p (hij.places hp)) hij.exposing

/-- An instruction that reads other places. -/
theorem mapReads {g : Place → Place} (h : i.Discreet exports env id kind)
    (hshown : ∀ p ∈ i.reads, env.Shows id p → env.Shows id (g p))
    (hexposed : ∀ p ∈ i.reads, env.Exposes p → env.Exposes (g p)) :
    (i.mapReads g).Discreet exports env id kind := by
  have hexposing : (i.mapReads g).op.isExposing exports = i.op.isExposing exports := by
    rw [Instr.mapReads]
    cases i.op <;> rfl
  have hexport : (i.mapReads g).op.isExport = i.op.isExport := by
    rw [Instr.mapReads]
    cases i.op <;> rfl
  have hreads : (i.mapReads g).reads = i.reads.map g := Op.reads_mapReads ..
  refine ⟨⟨fun p hp => ?_, fun hop p hp => ?_⟩, fun hexports hkind => ?_⟩
  · rw [places, hreads, defined_mapReads] at hp
    rcases List.mem_append.1 hp with hp | hp
    · obtain ⟨q, hq, rfl⟩ := List.mem_map.1 hp
      exact hshown q hq (h.shown q (List.mem_append_left _ hq))
    · exact h.shown p (List.mem_append_right _ hp)
  · rw [hreads] at hp
    obtain ⟨q, hq, rfl⟩ := List.mem_map.1 hp
    exact hexposed q hq (h.exposed (hexposing ▸ hop) q hq)
  · rw [hexport]
    exact h.unexported hexports hkind

end Instr.Discreet

/-- Forwarding changes only stores and copies. -/
theorem mem_of_exposing_forwardBlock {canSkip : Place → Place → Bool} {s : Forwarding} {is : List Instr}
    (hj : j ∈ (forwardBlock canSkip s is).2) (hop : j.op.isExposing true = true) : j ∈ is := by
  induction is generalizing s with
  | nil => exact hj
  | cons i is ih =>
    rw [forwardBlock] at hj
    split at hj
    all_goals
      rcases List.mem_cons.1 hj with rfl | hj
      · first
        | cases hop
        | exact List.mem_cons_self
      · exact List.mem_cons_of_mem _ (ih hj)

/-! ## New instructions -/

/-- A place that a function may use. -/
structure Environment.Offers (env : Environment) (cells : List Cell) (id : FuncId) (p : Place) :
    Prop where
  known : p.IsOf cells
  shown : env.Shows id p

theorem Advance.offers (h : Advance env cells env' cells') (hlogs : env.Logs cells)
    (hp : env.Offers cells id p) : env'.Offers cells' id p :=
  ⟨hp.known.mono h.cells, h.shows hlogs hp.known hp.shown⟩

/-- A new instruction defines a temporary, which its function may use. -/
theorem Advance.newInstr_offers (h : env.Logs cells) (owner : FuncId) (op : Op)
    (hreads : ∀ p ∈ op.reads, env.Offers cells id p) (htarget : ∀ p ∈ op.target?, env.Offers cells id p) :
    ∃ cells', Advance env cells (env.newInstr owner op).2 cells' ∧
      ∀ p ∈ (env.newInstr owner op).1.places, (env.newInstr owner op).2.Offers cells' id p := by
  obtain ⟨cells', hadvance, hof, -⟩ := Advance.newInstr h owner op
  refine ⟨cells', hadvance, fun p hp => ?_⟩
  rcases List.mem_append.1 hp with hp | hp
  · exact hadvance.offers h (hreads p hp)
  · rcases List.mem_cons.1 hp with rfl | hp
    · refine ⟨hof, fun hnamed => ?_⟩
      rw [Environment.isTemporary_newInstr] at hnamed
      cases hnamed
    · exact hadvance.offers h (htarget p (Option.mem_toList.1 hp))

theorem offers_copyInstrs {phi : Phi} (h : env.Logs cells) (hphi : env.Offers cells id phi.place)
    (owner : FuncId) {operand : Place} (hoperand : env.Offers cells id operand) :
    ∃ cells', Advance env cells (copyInstrs phi owner operand env).2 cells' ∧
      ∀ i ∈ (copyInstrs phi owner operand env).1, i.op.isExposing true = false ∧
        ∀ p ∈ i.places, (copyInstrs phi owner operand env).2.Offers cells' id p := by
  rw [copyInstrs]
  dsimp only
  obtain ⟨cells₁, hload, hloaded⟩ := Advance.newInstr_offers h owner (.loadLocal operand)
    (by simpa [Op.reads] using hoperand) (by simp [Op.target?])
  have hloadOp := Environment.op_newInstr env owner (.loadLocal operand)
  generalize env.newInstr owner (.loadLocal operand) = load at *
  obtain ⟨cells₂, hcopy, hcopied⟩ := Advance.newInstr_offers hload.logs owner
    (.copy phi.place load.1.place)
    (by simpa [Op.reads] using hloaded _ load.1.place_mem_places)
    (by simpa [Op.target?] using hload.offers h hphi)
  have hcopyOp := Environment.op_newInstr load.2 owner (.copy phi.place load.1.place)
  generalize load.2.newInstr owner (.copy phi.place load.1.place) = copy at *
  obtain ⟨cells₃, hstatement, hstated⟩ := Advance.newInstr_offers hcopy.logs owner
    (.expressionStatement copy.1.place)
    (by simpa [Op.reads] using hcopied _ copy.1.place_mem_places) (by simp [Op.target?])
  have hstatementOp := Environment.op_newInstr copy.2 owner (.expressionStatement copy.1.place)
  refine ⟨cells₃, (hload.trans hcopy).trans hstatement, ?_⟩
  simp only [List.forall_mem_cons, List.not_mem_nil, false_imp_iff, implies_true, and_true, hloadOp,
    hcopyOp, hstatementOp]
  exact ⟨⟨rfl, fun p hp => (hcopy.trans hstatement).offers hload.logs (hloaded p hp)⟩,
    ⟨rfl, fun p hp => hstatement.offers hcopy.logs (hcopied p hp)⟩, rfl, hstated⟩

/-! ## Blocks -/

namespace Block.All

variable {P : Instr → Prop} {Q : Place → Prop} {b : Block} {g : Place → Place}

theorem mapReads (h : b.All P Q) (hP : ∀ i ∈ b.instructions, P i → P (i.mapReads g))
    (hQ : ∀ p ∈ b.lastReads, Q p → Q (g p)) : (b.mapReads g).All P Q := by
  refine ⟨fun i hi => ?_, fun p hp => ?_⟩
  · obtain ⟨i₀, hi₀, rfl⟩ := List.mem_map.1 hi
    exact hP i₀ hi₀ (h.instructions i₀ hi₀)
  · rw [Block.lastReads_mapReads] at hp
    obtain ⟨q, hq, rfl⟩ := List.mem_map.1 hp
    exact hQ q hq (h.last q hq)

/-- Some reads of a block become reads of other places. -/
theorem mapSome (h : b.All P Q) (hP : ∀ i ∈ b.instructions, P i → P (i.mapReads g))
    (hQ : ∀ p ∈ b.lastReads, Q p → Q (g p)) (chosen : Nat → List Place → Bool) :
    ({ instructions := b.instructions.mapIdx fun index i =>
          if chosen index i.reads then i.mapReads g else i
       terminal := b.terminal.map fun t =>
          if chosen b.instructions.length t.reads then t.mapReads g else t } : Block).All P Q := by
  have hall := h.mapReads hP hQ
  refine ⟨fun i hi => ?_, fun p hp => ?_⟩
  · obtain ⟨index, hindex, rfl⟩ := List.mem_mapIdx.1 hi
    have hmem := List.getElem_mem hindex
    split
    · exact hall.instructions _ (List.mem_map_of_mem hmem)
    · exact h.instructions _ hmem
  · cases hterminal : b.terminal with
    | none => simp [Block.lastReads, hterminal] at hp
    | some t =>
      have hmapped := hall.last
      have hkept := h.last
      simp only [Block.lastReads, Block.mapReads, hterminal, Option.map_some, Option.getD_some]
        at hp hmapped hkept
      split at hp
      · exact hmapped p hp
      · exact hkept p hp

end Block.All

/-! ## Functions -/

namespace Function

variable {f f' : Function} {P : Instr → Prop} {Q : Place → Prop} {phi : Phi}

theorem All.setBlock (h : f.All P Q) (b : BlockId) {block : Block} (hblock : block.All P Q) :
    (f.setBlock b block).All P Q :=
  ⟨h.header, forall_setBlock h.blocks b hblock⟩

theorem All.mapBlocks (h : f.All P Q) {g : BlockId → Block → Block}
    (hg : ∀ b block, f.blocks.get? b = some block → (g b block).All P Q) : (f.mapBlocks g).All P Q :=
  ⟨h.header, forall_mapBlocks hg⟩

theorem All.dropUnreachable (h : f.All P Q) : f.dropUnreachable.2.All P Q := by
  rw [dropUnreachable_eq]
  exact ⟨h.header, forall_dropUnreachable h.blocks⟩

theorem All.merge (h : f.All P Q) {target source : BlockId} {merged : Block}
    (hmerged : f.blocks.get? source = some merged) : (f.merge target source merged).All P Q := by
  have hbehind := h.blocks source merged hmerged
  refine ⟨h.header, forall_merge h.blocks fun block hblock => ⟨?_, hbehind.last⟩⟩
  exact List.forall_mem_append.2 ⟨hblock.instructions, hbehind.instructions⟩

theorem All.withStore (h : f.All P Q) (first : VersionRecord) {store : Instr} (hstore : P store) :
    (f.withStore first store).All P Q := by
  refine ⟨h.header, forall_withStore h.blocks fun b hb => ⟨fun i hi => ?_, hb.last⟩⟩
  rcases mem_of_mem_insertBehind hi with rfl | hi
  · exact hstore
  · exact hb.instructions i hi

/-- A function that uses what it may use, also where it joins versions. -/
structure Discreet (exports : Bool) (env : Environment) (id : FuncId) (f : Function) : Prop where
  code : f.All (·.Discreet exports env id f.kind) (env.Shows id)
  phis : ∀ phi ∈ f.phis, env.Shows id phi.place

theorem Discreet.advance (h : f.Discreet exports env id) (hadvance : Advance env cells env' cells')
    (hlogs : env.Logs cells) {owner : FuncId} (hf : f.Fits env cells owner) :
    f.Discreet exports env' id := by
  refine ⟨⟨fun i hi => ?_, fun b block hb => ⟨fun i hi => ?_, fun p hp => ?_⟩⟩, fun phi hphi => ?_⟩
  · exact (h.code.header i hi).advance hadvance hlogs (hf.uses.header i hi)
  · exact ((h.code.blocks b block hb).instructions i hi).advance hadvance hlogs
      ((hf.uses.blocks b block hb).instructions i hi)
  · exact hadvance.shows hlogs ((hf.uses.blocks b block hb).lastReads p hp)
      ((h.code.blocks b block hb).last p hp)
  · exact hadvance.shows hlogs (hf.phis phi hphi).place (h.phis phi hphi)

/-- Records have nothing to do with owners, kinds and what is captured. -/
theorem Discreet.rehome (h : f.Discreet exports env id) (source target : BlockId) :
    f.Discreet exports (env.rehome source target) id := by
  have hinstr (i : Instr) (hi : i.Discreet exports env id f.kind) :
      i.Discreet exports (env.rehome source target) id f.kind :=
    ⟨⟨hi.shown, fun hop p hp => ⟨(hi.exposed hop p hp).named, (hi.exposed hop p hp).captured⟩⟩,
      hi.unexported⟩
  refine ⟨⟨fun i hi => hinstr i (h.code.header i hi), fun b block hb => ⟨fun i hi => ?_, ?_⟩⟩, h.phis⟩
  · exact hinstr i ((h.code.blocks b block hb).instructions i hi)
  · exact (h.code.blocks b block hb).last

theorem Discreet.reworks {R : List Instr → List Instr → Prop} (h : f.Discreet exports env id)
    (hf : f.Reworks R f')
    (hR : ∀ is js, R is js → (∀ i ∈ is, i.Discreet exports env id f.kind) →
      ∀ j ∈ js, j.Discreet exports env id f.kind) : f'.Discreet exports env id := by
  obtain ⟨change, rfl, hchange⟩ := hf
  refine ⟨h.code.mapBlocks fun b block hb => ?_, h.phis⟩
  obtain ⟨hterminal, his⟩ := hchange b block hb
  have hblock := h.code.blocks b block hb
  refine ⟨hR _ _ his hblock.instructions, fun p hp => hblock.last p ?_⟩
  rwa [Block.lastReads, hterminal] at hp

/-- Reads of the operands become reads of the phi, which is of the same variable. -/
theorem Discreet.redirectReads (h : f.Discreet exports env id) (hf : f.Fits env cells id)
    (hphi : phi.Fits env cells) (hshown : env.Shows id phi.place) :
    (f.redirectReads env phi).Discreet exports env id := by
  refine ⟨h.code.mapBlocks fun b block hb => ?_, h.phis⟩
  have hblock := h.code.blocks b block hb
  split
  · refine hblock.mapSome (fun i hi hdiscreet => hdiscreet.mapReads (fun p _ hp => ?_) fun p hp hexposed => ?_)
      (fun p _ hp => ?_) _
    · split
      · exact hshown
      · exact hp
    · split
      · next hoperand =>
        -- cells of one number are one cell, so the operand is a version of what was read
        simp only [KeySet.contains_ofList, decide_eq_true_eq, List.mem_map, Table.mem_values] at hoperand
        obtain ⟨operand, ⟨predecessor, hget⟩, hid⟩ := hoperand
        obtain ⟨hof, hd⟩ := hphi.operands predecessor operand hget
        have hread := (hf.uses.blocks b block hb).instructions i hi p (List.mem_append_left _ hp)
        have hdeclaration : operand.declaration = p.declaration :=
          congrArg Cell.declaration (hof.single hread hid)
        exact hexposed.congr (hd.symm.trans hdeclaration)
      · exact hexposed
    · split
      · exact hshown
      · exact hp
  · exact hblock

/-- A function that may use what a phi joins may use all that comes of the phi. -/
theorem survives_discreet (hphi : phi.Fits env cells) (hlogs : env.Logs cells)
    (hshown : env.Shows id phi.place) :
    Survives (fun f env' => (∃ cells', Advance env cells env' cells' ∧ f.Fits env' cells' id) ∧
      f.Discreet exports env' id) phi where
  store := by
    rintro f env₁ first ⟨hfits, hdiscreet⟩ hfirst
    refine ⟨(hphi.survives id).store f env₁ first hfits hfirst, ?_⟩
    obtain ⟨cells₁, hadvance, hf⟩ := hfits
    obtain ⟨hknown, hdeclaration⟩ := hadvance.logs.recorded _ first (List.mem_of_find?_eq_some hfirst)
    have hplace := hadvance.offers hlogs ⟨hphi.place, hshown⟩
    have hvalue : env₁.Offers cells₁ id first.place := ⟨hknown, hplace.shown.congr hdeclaration⟩
    obtain ⟨cells₂, hnew, hstore⟩ := Advance.newInstr_offers hadvance.logs f.id
      (.storeLocal phi.place first.place .reassign) (by simpa [Op.reads] using hvalue)
      (by simpa [Op.target?] using hplace)
    have hlater := hdiscreet.advance hnew hadvance.logs hf
    refine ⟨hlater.code.withStore first ?_, hlater.phis⟩
    exact .of_plain rfl fun p hp => (hstore p hp).shown
  redirect := by
    rintro f env₁ ⟨hfits, hdiscreet⟩
    refine ⟨(hphi.survives id).redirect f env₁ hfits, ?_⟩
    obtain ⟨cells₁, hadvance, hf⟩ := hfits
    exact hdiscreet.redirectReads hf (hadvance.phi hphi) (hadvance.shows hlogs hphi.place hshown)
  copy := by
    rintro f env₁ predecessor operand b ⟨hfits, hdiscreet⟩ hoperand hb
    refine ⟨(hphi.survives id).copy f env₁ predecessor operand b hfits hoperand hb, ?_⟩
    obtain ⟨cells₁, hadvance, hf⟩ := hfits
    have hplace := hadvance.offers hlogs ⟨hphi.place, hshown⟩
    obtain ⟨hknown, hdeclaration⟩ := (hadvance.phi hphi).operands predecessor operand hoperand
    obtain ⟨cells₂, hnew, hcopies⟩ := offers_copyInstrs hadvance.logs hplace f.id
      ⟨hknown, hplace.shown.congr hdeclaration⟩
    have hlater := hdiscreet.advance hnew hadvance.logs hf
    have hblock := hlater.code.blocks predecessor b hb
    refine ⟨hlater.code.setBlock predecessor ⟨?_, hblock.last⟩, hlater.phis⟩
    refine List.forall_mem_append.2 ⟨hblock.instructions, fun i hi => ?_⟩
    exact .of_plain (hcopies i hi).1 fun p hp => ((hcopies i hi).2 p hp).shown

theorem Discreet.eliminateSsa (h : f.Discreet exports env id) (hf : f.Fits env cells id)
    (hlogs : env.Logs cells) (hout : f.eliminateSsa env = .ok (f', env')) :
    f'.Discreet exports env' id := by
  have hstart : ({ f with phis := [] } : Function).Fits env cells id :=
    ⟨hf.id, ⟨hf.uses.params, hf.uses.header, hf.uses.blocks⟩, by rintro phi ⟨⟩⟩
  refine (eliminateSsa_induction (fun phi hphi _ =>
    survives_discreet (hf.phis phi hphi) hlogs (h.phis phi hphi))
    ⟨⟨cells, .refl hlogs, hstart⟩, ⟨h.code.header, h.code.blocks⟩, ?_⟩ hout).2
  rintro phi ⟨⟩

/-- The phis of a function join variables that it may use. -/
theorem Discreet.buildSsa {home : Table BlockId FuncId} (h : f.Discreet exports env id)
    (hf : f.Fits env cells id) (hlogs : env.Logs cells) (hhomed : env.Homed home)
    (hhoused : f.Housed home id) : (f.buildSsa env).1.Discreet exports (f.buildSsa env).2 id := by
  obtain ⟨_, hadvance, -⟩ := advance_buildSsa hlogs f
  have hlater := h.advance hadvance hlogs hf
  exact ⟨⟨hlater.code.header, hlater.code.blocks⟩,
    fun phi hphi => hhomed.shows_buildSsa hhoused.own hadvance hphi⟩

theorem All.instructions (h : f.All P Q) (hi : i ∈ f.instructions) : P i := by
  rcases List.mem_append.1 hi with hi | hi
  · exact h.header i hi
  · obtain ⟨block, hblock, hi⟩ := List.mem_flatMap.1 hi
    obtain ⟨b, hb⟩ := Table.mem_values.1 hblock
    exact (h.blocks b block hb).instructions i hi

theorem All.reads (h : f.All P Q) (hP : ∀ i, P i → ∀ p ∈ i.reads, Q p) (hp : p ∈ f.reads) : Q p := by
  rcases List.mem_append.1 hp with hp | hp
  · obtain ⟨i, hi, hp⟩ := List.mem_flatMap.1 hp
    exact hP i (h.instructions hi) p hp
  · obtain ⟨t, ht, hp⟩ := List.mem_flatMap.1 hp
    obtain ⟨b, block, hb, hterminal⟩ := mem_terminals.1 ht
    apply (h.blocks b block hb).last
    rwa [Block.lastReads, hterminal]

end Function

/-! ## Calls that are replaced -/

namespace Splice

variable {m : Module} {start : List Cell} (s : Splice m env start)

/-- The caller may use what stands for what the callee may use. -/
theorem shows_place (hall : m.AllUse env start) (hp : p.IsOf start) (hcovers : s.copying.Covers p)
    (hshown : env.Shows s.callee.id p) : s.after.Shows s.caller.id (s.copying.place p) := by
  by_cases howner : s.copying.env.ownerOf p.declaration = some s.copying.callee
  · -- a counterpart is the caller's own
    have hcaller := s.expands.goes.fresh.owner _ _ (hcovers.get?_places howner)
    rw [s.expands.caller] at hcaller
    intro _
    exact .inl ((s.advance_copied hall).ownerOf hcaller)
  · have hdeclared := (s.copyable.logs.has hp).2
    rw [Copying.place_of_foreign howner]
    intro hnamed
    rw [(s.advance hall).temporary _ hdeclared] at hnamed
    rcases hshown hnamed with hown | hcaptured
    · rw [s.expands.goes.env.owner _ hdeclared, s.expands.callee] at howner
      exact absurd hown howner
    · exact .inr ((s.advance hall).captured _ hcaptured)

/-- A copied instruction shows nothing to others: kept source is not copied, and neither is an export
where exports count. -/
theorem discreet_copy (hall : m.AllUse env start) (hcallee : s.callee.Discreet exports env s.callee.id)
    (hi : i ∈ s.original) (hij : s.copying.IsCopy i j) :
    j.Discreet exports s.after s.caller.id kind := by
  have hmem := s.mem_callee hi
  have hdiscreet := hcallee.code.instructions hmem
  have hexport : exports = true → i.op.isExport = false := fun hexports =>
    hdiscreet.unexported hexports (Module.kind_of_smallBody? s.small)
  have hcopyable := (Module.smallBody?_eq_some s.small).2.2 i hmem
  have hplain : i.op.isExposing exports = false := by
    cases hop : i.op with
    | unsupported => simp [Instr.isCopyable, hop] at hcopyable
    | exportSpecifier =>
      rw [hop] at hexport
      exact Bool.eq_false_iff.2 fun hexports => absurd (hexport hexports) (by simp [Op.isExport])
    | _ => rfl
  have hplaces : j.places = i.places.map s.copying.place := by
    rw [Instr.places, Instr.defined_mapPlaces hij.op hij.place, Instr.reads, hij.op,
      Op.reads_mapPlaces, Instr.places, List.map_append, Instr.reads]
  refine ⟨⟨fun p hp => ?_, fun hop => ?_⟩, fun hexports _ => ?_⟩
  · obtain ⟨q, hq, rfl⟩ := List.mem_map.1 (hplaces ▸ hp)
    exact s.shows_place hall (s.isOf_original hi hq) (s.expands.covers i hi q hq) (hdiscreet.shown q hq)
  · have hsame : j.op.isExposing exports = i.op.isExposing exports := by
      rw [hij.op]
      cases i.op <;> rfl
    rw [hsame, hplain] at hop
    cases hop
  · rw [hij.op, ← hexport hexports]
    cases i.op <;> rfl

/-- The temporaries of an expansion may be used anywhere. -/
theorem shows_reserved (hall : m.AllUse env start) (id : FuncId) :
    ∀ p ∈ [s.bind.place, s.pattern.place, s.array.place], s.after.Shows id p := by
  intro p hp hnamed
  obtain ⟨hof, htemporary⟩ := s.expands.goes.fresh.reserved_known p hp
  rw [(s.advance_copied hall).temporary _ (s.expands.goes.env.logs.has hof).2, htemporary] at hnamed
  cases hnamed

/-- What stands in the place of a call uses what the caller may use. -/
theorem discreet_code (hall : m.AllUse env start) (hcaller : s.caller.Discreet exports env s.caller.id)
    (hcallee : s.callee.Discreet exports env s.callee.id) :
    ∀ j ∈ s.code, j.Discreet exports s.after s.caller.id s.caller.kind := by
  have hblock := (hcaller.advance (s.advance hall) s.copyable.logs (hall _ _ s.caller_mem)).code.blocks _ _
    s.block_mem
  have hcall := (hblock.instructions _ s.call_mem_block).shown
  have hreserved := s.shows_reserved hall s.caller.id
  simp only [List.mem_cons, List.not_mem_nil, or_false, forall_eq_or_imp, forall_eq] at hreserved
  obtain ⟨hbind, hpattern, harray⟩ := hreserved
  have hcopied {is js : List Instr} (his : ∀ i ∈ is, i ∈ s.original)
      (hcopies : List.Forall₂ s.copying.IsCopy is js) :
      ∀ j ∈ js, j.Discreet exports s.after s.caller.id s.caller.kind :=
    forall_of_forall₂ hcopies fun i hi j hij => s.discreet_copy hall hcallee (his i hi) hij
  intro j hj
  simp only [code, List.cons_append, List.append_assoc, List.nil_append, List.mem_cons,
    List.mem_append] at hj
  rcases hj with rfl | hj | rfl | rfl | hj | hj
  · -- the array holds the arguments of the call
    refine .of_plain (by rw [s.expands.array_op]; rfl) fun p hp => ?_
    simp only [Instr.places, Instr.reads, Instr.defined, s.expands.array_op, Op.reads, Op.target?,
      Option.toList_none, List.mem_append, List.mem_singleton] at hp
    rcases hp with hp | rfl
    · refine hcall p (List.mem_append_left _ ?_)
      rw [Instr.reads, s.call_op]
      exact List.mem_cons_of_mem _ hp
    · exact harray
  · exact hcopied (fun i hi => List.mem_append_left _ hi) s.expands.header j hj
  · -- the pattern names the parameters, which the header of the callee defines
    refine .of_plain (by rw [s.expands.pattern_op]; rfl) fun p hp => ?_
    simp only [Instr.places, Instr.reads, Instr.defined, s.expands.pattern_op, Op.reads, Op.target?,
      Option.toList_none, List.mem_append, List.mem_singleton, List.flatMap_map, List.mem_flatMap,
      Option.mem_toList, Option.some.injEq] at hp
    rcases hp with ⟨q, hq, rfl⟩ | rfl
    · obtain ⟨i, hi, hcell⟩ := s.copyable.params q hq
      have hdefined := (hcallee.code.header i hi).shown i.place i.place_mem_places
      exact s.shows_place hall (s.copyable.known q (Function.places_of_params hq))
        (s.expands.covers_params q hq) (hdefined.congr (congrArg Cell.declaration hcell.symm))
    · exact hpattern
  · refine .of_plain (by rw [s.expands.bind_op]; rfl) fun p hp => ?_
    simp only [Instr.places, Instr.reads, Instr.defined, s.expands.bind_op, Op.reads, Op.target?,
      Option.toList_none, List.mem_append, List.mem_cons, List.not_mem_nil, or_false] at hp
    rcases hp with (rfl | rfl) | rfl
    · exact hpattern
    · exact harray
    · exact hbind
  · exact hcopied (fun i hi => List.mem_append_right _ hi) s.expands.body j hj
  · obtain rfl := Inlining.eq_of_mem_closing hj
    refine .of_plain rfl fun p hp => ?_
    obtain rfl : p = s.call.place := by
      simpa [Instr.places, Instr.reads, Instr.defined, Op.reads, Op.target?] using hp
    exact hcall _ s.call.place_mem_places

/-- The result stands in a place of the caller, and what others see is no result of a call. -/
theorem discreet_replaced (hall : m.AllUse env start) (horder : s.caller.InOrder env)
    (hcaller : s.caller.Discreet exports env s.caller.id)
    (hcallee : s.callee.Discreet exports env s.callee.id) :
    s.replaced.Discreet exports s.after s.caller.id := by
  have hadvance := s.advance hall
  have hlater := hcaller.advance hadvance s.copyable.logs (hall _ _ s.caller_mem)
  have hfits := hall _ _ s.caller_mem
  have hblock := hlater.code.blocks _ _ s.block_mem
  have hspliced : s.spliced.All (·.Discreet exports s.after s.caller.id s.caller.kind)
      (s.after.Shows s.caller.id) := by
    refine hlater.code.setBlock _ ⟨?_, hblock.last⟩
    simp only [instructions, List.forall_mem_append]
    exact ⟨⟨fun i hi => hblock.instructions i (List.mem_of_mem_take hi),
      s.discreet_code hall hcaller hcallee⟩, fun i hi => hblock.instructions i (List.mem_of_mem_drop hi)⟩
  have huses := (hadvance.fits hfits).uses.setBlock s.site.block
    (((hadvance.fits hfits).uses.blocks _ _ s.block_mem).withInstructions (s.isOf_instructions hall))
  have hcall : s.call.place.IsOf start :=
    (hfits.uses.blocks _ _ s.block_mem).instructions _ s.call_mem_block _ s.call.place_mem_places
  have hresult (p : Place) (hp : s.after.Shows s.caller.id p) :
      s.after.Shows s.caller.id (redirect s.call.place s.result p) := by
    refine redirect_cases hp fun q hq => ?_
    obtain ⟨p, hp, rfl⟩ := Option.map_eq_some_iff.1 hq
    intro _
    exact .inl ((s.advance_copied hall).ownerOf (s.expands.result s.copyable hp).2)
  refine ⟨hspliced.mapBlocks fun b block hb => ?_, hlater.phis⟩
  refine (hspliced.blocks b block hb).mapReads (fun i hi hdiscreet => hdiscreet.mapReads
    (fun p _ => hresult p) fun p hp hexposed => ?_) (fun p _ => hresult p)
  -- what others see is named, but the value of the call is a temporary
  by_cases hid : p.cell.id = s.call.place.cell.id
  · have hof := (huses.blocks b block hb).instructions i hi p (List.mem_append_left _ hp)
    have hdeclaration : p.declaration = s.call.place.declaration :=
      congrArg Cell.declaration (hof.single (hcall.mono hadvance.cells) hid)
    have hnamed := hexposed.named
    rw [hdeclaration, hadvance.temporary _ (s.copyable.logs.has hcall).2, s.isTemporary_call horder]
      at hnamed
    cases hnamed
  · rwa [redirect_of_ne _ hid]

end Splice

/-! ## Modules -/

namespace Module

variable {m m' : Module} {f : Function} {home : Table BlockId FuncId}

/-- All functions of a module use what they may use. -/
def Discreet (exports : Bool) (env : Environment) (m : Module) : Prop :=
  ∀ id f, m.functions.get? id = some f → f.Discreet exports env id

theorem Discreet.setFunction (h : m.Discreet exports env) (hf : f.Discreet exports env id) :
    (m.setFunction id f).Discreet exports env := by
  intro id' f' hf'
  rw [get?_setFunction] at hf'
  split at hf'
  · next heq => exact heq ▸ Option.some.inj hf' ▸ hf
  · exact h id' f' hf'

theorem Discreet.advance (h : m.Discreet exports env) (hall : m.AllUse env cells)
    (hlogs : env.Logs cells) (hadvance : Advance env cells env' cells') : m.Discreet exports env' :=
  fun id f hf => (h id f hf).advance hadvance hlogs (hall id f hf)

theorem Discreet.reworks {R : List Instr → List Instr → Prop} (h : m.Discreet exports env)
    (hm : m.Reworks R m')
    (hR : ∀ id kind is js, R is js → (∀ i ∈ is, i.Discreet exports env id kind) →
      ∀ j ∈ js, j.Discreet exports env id kind) : m'.Discreet exports env := by
  intro id f' hf'
  obtain ⟨f, hf, hreworks⟩ := hm.get? hf'
  exact (h id f hf).reworks hreworks (hR id f.kind)

theorem Discreet.sweepDead (h : m.Discreet exports env) : (m.sweepDead env).2.Discreet exports env := by
  apply sweepDead_removals _ h
  intro m id f b block before i after hm hf hb hinstrs _
  have hblock := (hm id f hf).code.blocks b block hb
  refine hm.setFunction ⟨(hm id f hf).code.setBlock b ⟨fun j hj => ?_, hblock.last⟩, (hm id f hf).phis⟩
  apply hblock.instructions
  rw [hinstrs]
  exact ((List.sublist_cons_self i after).append_left before).subset hj

theorem Discreet.mergeBlocks (h : m.Discreet exports env) :
    (m.mergeBlocks env).2.1.Discreet exports (m.mergeBlocks env).2.2 := by
  refine mergeBlocks_induction (P := fun m env => m.Discreet exports env) ?_ ?_ h
  · intro m env id f hm hf
    refine hm.setFunction ?_
    have hcode := (hm id f hf).code.dropUnreachable
    rw [Function.dropUnreachable_eq] at hcode ⊢
    exact ⟨hcode, (hm id f hf).phis⟩
  · intro m env id f target source merged hm hf _ hmerged
    have hrehomed : m.Discreet exports (env.rehome source target) := fun id f hf =>
      (hm id f hf).rehome source target
    exact hrehomed.setFunction
      ⟨(hrehomed id f hf).code.merge hmerged, (hrehomed id f hf).phis⟩

theorem Discreet.inlineOne (h : m.Discreet exports env) (hall : m.AllUse env cells)
    (hlogs : env.Logs cells) (horder : m.InOrder env) (cache : RecursionCache) :
    (m.inlineOne env cache).2.1.Discreet exports (m.inlineOne env cache).2.2.1 := by
  rcases hinline : m.inlineOne env cache with ⟨changed, m', env', cache'⟩
  cases changed with
  | false =>
    obtain ⟨rfl, rfl⟩ := inlineOne_eq_false hinline
    exact h
  | true =>
    obtain ⟨s, rfl, rfl⟩ := exists_splice hall hlogs hinline
    exact (h.advance hall hlogs (s.advance hall)).setFunction
      (s.discreet_replaced hall (horder _ _ s.caller_mem) (h _ _ s.caller_mem) (h _ _ s.callee_mem))

end Module

theorem Pass.discreet_step {w : Workbench} (h : w.module.Discreet exports w.env)
    (hall : w.module.AllUse w.env cells) (hlogs : w.env.Logs cells) (horder : w.module.InOrder w.env)
    (pass : Pass) : (pass.step w).2.module.Discreet exports (pass.step w).2.env := by
  cases pass with
  | inlining => exact h.inlineOne hall hlogs horder w.recursion
  | propagation =>
    apply h.reworks (w.module.reworks_propagateConstants w.env w.constants)
    exact fun _ _ _ _ hfolds => (hfolds.thins fun _ => False).forall fun _ _ hij hi => hi.weakens hij
  | forwarding =>
    apply h.reworks (w.module.reworks_forwardStores w.env)
    intro id kind is js hforwards his j hj
    have hplaces := places_of_forwards hforwards (fun i hi => (his i hi).shown) j hj
    obtain ⟨canSkip, -, rfl⟩ := hforwards
    by_cases hexposing : j.op.isExposing true = true
    · exact his j (mem_of_exposing_forwardBlock hj hexposing)
    · exact .of_plain (Bool.eq_false_iff.2 hexposing) hplaces
  | overwriting =>
    apply h.reworks (w.module.reworks_dropOverwritten w.env)
    exact fun _ _ _ _ hoverwrites => hoverwrites.thins.forall fun _ _ hij hi => hi.weakens hij
  | sweeping => exact h.sweepDead
  | merging => exact h.mergeBlocks

namespace Module

variable {m m' m₀ : Module} {f : Function} {home : Table BlockId FuncId} {env₀ : Environment}

/-- An operation lets functions use only what they may use. -/
theorem Discreet.next (h : m.Discreet exports env) (hreached : m.Reached env)
    (hop : Operation m env m' env') : m'.Discreet exports env' := by
  obtain ⟨cells, hlogs, hall⟩ := hreached.coherent
  cases hop with
  | resolve globals => exact h
  | @buildSsa _ id f _ hf =>
    obtain ⟨home, hhoused⟩ := hreached.housed
    obtain ⟨_, hadvance, -⟩ := (hall id f hf).buildSsa hlogs
    exact (h.advance hall hlogs hadvance).setFunction
      ((h id f hf).buildSsa (hall id f hf) hlogs hhoused.records (hhoused.functions id f hf))
  | @eliminateSsa _ id f _ _ _ hf hout =>
    obtain ⟨_, hadvance, -⟩ := (hall id f hf).eliminateSsa hlogs hout
    exact (h.advance hall hlogs hadvance).setFunction
      ((h id f hf).eliminateSsa (hall id f hf) hlogs hout)
  | step w pass => exact pass.discreet_step h hall hlogs hreached.inOrder

theorem Discreet.operations (h : m₀.Discreet exports env₀) (hreached : m₀.Reached env₀)
    (hops : Operations m₀ env₀ m env) : m.Discreet exports env := by
  induction hops with
  | none => exact h
  | next hops hop ih => exact ih.next (hops.reached hreached) hop

/-- Lowered functions use what they may use; exports do not count, or none is in a function that may be
copied. -/
theorem discreet_lower {path : String} {tree : Syntax.Module} (hlower : tree.lower path {} = .ok (m, env))
    (hexports : exports = true → ∀ id f, m.functions.get? id = some f → f.kind = .declaration →
      ∀ i ∈ f.instructions, i.op.isExport = false) : m.Discreet exports env := by
  intro id f hf
  obtain ⟨cells, hlogs, hlowered⟩ := Syntax.Module.lowered_lower hlower
  obtain ⟨home, -, hclosed⟩ := Syntax.Module.closed_lower hlower
  have hvisible := (hlowered id f hf).visible
  have hdiscreet (i : Instr) (hi : i ∈ f.instructions) (h : i.Visible true env id) :
      i.Discreet exports env id f.kind :=
    ⟨⟨h.shown, fun hop => h.exposed (Op.isExposing_mono hop)⟩,
      fun hexports' hkind => hexports hexports' id f hf hkind i hi⟩
  refine ⟨⟨fun i hi => hdiscreet i (List.mem_append_left _ hi) (hvisible.header i hi),
    fun b block hb => ⟨fun i hi => ?_, (hvisible.blocks b block hb).last⟩⟩, fun phi hphi => ?_⟩
  · refine hdiscreet i (List.mem_append_right _ ?_) ((hvisible.blocks b block hb).instructions i hi)
    exact List.mem_flatMap.2 ⟨block, Table.mem_values.2 ⟨b, hb⟩, hi⟩
  · rw [(hclosed id f hf).unjoined] at hphi
    cases hphi

/-- The captured set is complete.  Whatever operations a lowered module goes through, every variable that
one of its functions reads or writes though another function owns it is captured, and so is every variable
that kept source mentions, or an export if no function that may be copied holds exports. -/
theorem used_captured (exports : Bool) {path : String} {tree : Syntax.Module}
    (hlower : tree.lower path {} = .ok (m₀, env₀))
    (hexports : exports = true → ∀ id f, m₀.functions.get? id = some f → f.kind = .declaration →
      ∀ i ∈ f.instructions, i.op.isExport = false)
    (hops : Operations m₀ env₀ m env) (hf : m.functions.get? id = some f) :
    (∀ p, (p ∈ f.reads ∨ ∃ i ∈ f.instructions, p ∈ i.defined) →
      env.isTemporary p.declaration = false → env.ownerOf p.declaration ≠ some id →
        env.captured.contains p.declaration = true) ∧
    ∀ i ∈ f.instructions, i.op.isExposing exports = true → ∀ p ∈ i.reads,
      env.isTemporary p.declaration = false → env.captured.contains p.declaration = true := by
  have hdiscreet := ((discreet_lower hlower hexports).operations (.lower hlower) hops id f hf).code
  refine ⟨fun p hp hnamed howner => ?_, fun i hi hop p hp _ => ?_⟩
  · have hshown : env.Shows id p := by
      rcases hp with hp | ⟨i, hi, hp⟩
      · exact hdiscreet.reads (fun i hi p hp => hi.shown p (List.mem_append_left _ hp)) hp
      · exact (hdiscreet.instructions hi).shown p (List.mem_append_right _ hp)
    exact (hshown hnamed).resolve_left howner
  · exact ((hdiscreet.instructions hi).exposed hop p hp).captured

/-- `let x = 1; function f() { return x; } function g() { f(); } export { x };` -/
def exportingRead : Syntax.Module :=
  let ident (text : String) : Syntax.Ident := .synthetic text
  let function (text : String) (body : Syntax.Stmt) : Syntax.Stmt :=
    .function .synthetic (.mk .synthetic (some (ident text)) [] (.block [body]) false)
  ⟨⟨0, 0⟩,
    [.declaration .synthetic .letKind [.mk .synthetic (.name .synthetic (ident "x"))
       (some (.literal .synthetic (.number Number.one)))],
     function "f" (.return .synthetic (some (.name .synthetic (ident "x")))),
     function "g" (.expression .synthetic (.call .synthetic (.name .synthetic (ident "f")) [])),
     .exportNames .synthetic [⟨ident "x", "x"⟩] none]⟩

/-- A lowered module, and what it is after its joins and a round of inlining. -/
def inlined? (tree : Syntax.Module) : Option ((Module × Environment) × Module × Environment) := do
  let lowered ← (tree.lower "m" {}).toOption
  let joined ← (lowered.1.throughSsa lowered.2).toOption
  let w := (Pass.inlining.step ⟨joined.1, joined.2, {}, ∅⟩).2
  return (lowered, w.module, w.env)

theorem operations_of_inlined? {tree : Syntax.Module} (h : inlined? tree = some ((m₀, env₀), m, env)) :
    tree.lower "m" {} = .ok (m₀, env₀) ∧ Operations m₀ env₀ m env := by
  obtain ⟨_, hlower, h⟩ := Option.bind_eq_some_iff.1 h
  obtain ⟨joined, hthrough, h⟩ := Option.bind_eq_some_iff.1 h
  cases h
  have hjoined := Operations.none.throughSsa (Syntax.Module.eq_ok_of_toOption hthrough)
  exact ⟨Syntax.Module.eq_ok_of_toOption hlower, hjoined.next (.step ⟨joined.1, joined.2, {}, ∅⟩ .inlining)⟩

/-- The call in `g` is replaced.  Then `g` reads `x`, which it did not before, and `x` is captured; so is
what the export reads. -/
theorem used_captured_exportingRead :
    ∃ (m₀ m : Module) (env₀ env : Environment) (g₀ g f : Function) (p : Place) (i : Instr),
      exportingRead.lower "m" {} = .ok (m₀, env₀) ∧
      (∀ id f, m₀.functions.get? id = some f → f.kind = .declaration →
        ∀ i ∈ f.instructions, i.op.isExport = false) ∧
      Operations m₀ env₀ m env ∧
      (m₀.functions.get? ⟨2⟩ = some g₀ ∧ ∀ q ∈ g₀.reads, q.declaration ≠ p.declaration) ∧
      (m.functions.get? ⟨2⟩ = some g ∧ p ∈ g.reads ∧ env.isTemporary p.declaration = false ∧
        env.ownerOf p.declaration = some ⟨0⟩ ∧ env.captured.contains p.declaration = true) ∧
      m.functions.get? ⟨0⟩ = some f ∧ i ∈ f.instructions ∧ i.op.isExport = true ∧
      ∀ q ∈ i.reads, env.isTemporary q.declaration = false → env.captured.contains q.declaration = true := by
  obtain ⟨⟨⟨m₀, env₀⟩, m, env⟩, hinlined, hexports, g₀, hg₀, g, hg, p, hp, ⟨hnew, hnamed, howner⟩, f, hf,
      i, hi, hexport⟩ :
      ∃ t ∈ inlined? exportingRead,
        (∀ e ∈ t.1.1.functions.entries, e.2.kind = .declaration → ∀ i ∈ e.2.instructions,
          i.op.isExport = false) ∧
        ∃ g₀ ∈ t.1.1.functions.get? ⟨2⟩, ∃ g ∈ t.2.1.functions.get? ⟨2⟩, ∃ p ∈ g.reads,
          ((∀ q ∈ g₀.reads, q.declaration ≠ p.declaration) ∧ t.2.2.isTemporary p.declaration = false ∧
            t.2.2.ownerOf p.declaration = some ⟨0⟩) ∧
          ∃ f ∈ t.2.1.functions.get? ⟨0⟩, ∃ i ∈ f.instructions, i.op.isExport = true := by
    decide +kernel
  obtain ⟨hlower, hops⟩ := operations_of_inlined? hinlined
  have hnone (id : FuncId) (f : Function) (hf : m₀.functions.get? id = some f) :=
    hexports (id, f) (Table.mem_entries.2 hf)
  have hcaptured := (used_captured true hlower (fun _ => hnone) hops hg).1 p (.inl hp) hnamed
    (by rw [howner]; decide)
  have hexposed := (used_captured true hlower (fun _ => hnone) hops hf).2 i hi (Op.isExposing_of_isExport hexport)
  exact ⟨m₀, m, env₀, env, g₀, g, f, p, i, hlower, hnone, hops, ⟨hg₀, hnew⟩,
    ⟨hg, hp, hnamed, howner, hcaptured⟩, hf, hi, hexport, hexposed⟩

end Module

end Whittle.Ir
