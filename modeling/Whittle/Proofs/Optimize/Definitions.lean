import Mathlib.Data.List.Flatten
import Mathlib.Tactic.Common
import Whittle.Proofs.Optimize.Straight
import Whittle.Proofs.Optimize.Thinning

/-!
# Definitions

No cell with a numbered version is ever defined twice.  Lowering defines each of its cells once.  Joins
define their own cells, which have other versions, several times; everything else that is added to a
module defines cells that were not there before.  A copy of a function would define the counterpart of
a joined cell several times, but functions that are copied run straight through and join nothing.

Main statement: `Module.defined_once`.
-/

namespace Whittle.Ir

/-- The places that a function defines. -/
def Function.defined (f : Function) : List Place := f.instructions.flatMap (·.defined)

/-- The places that a module defines. -/
def Module.defined (m : Module) : List Place := m.instructions.flatMap (·.defined)

/-- The cells with numbered versions among places, each as often as it is there. -/
def numberedCells (ps : List Place) : List CellId :=
  (ps.filter (·.cell.version.isNumbered)).map (·.cell.id)

theorem numberedCells_append (ps qs : List Place) :
    numberedCells (ps ++ qs) = numberedCells ps ++ numberedCells qs := by
  simp [numberedCells]

theorem numberedCells_of_numbered {ps : List Place}
    (h : ∀ p ∈ ps, p.cell.version.isNumbered = true) : numberedCells ps = ps.map (·.cell.id) := by
  rw [numberedCells, List.filter_eq_self.2 h]

theorem numberedCells_subperm {ps qs : List Place} (h : ps.Subperm qs) :
    (numberedCells ps).Subperm (numberedCells qs) := by
  obtain ⟨rs, hperm, hsub⟩ := h.filter (·.cell.version.isNumbered)
  exact ⟨rs.map _, hperm.map _, hsub.map _⟩

/-! ## Passes that define nothing new -/

section Passes

variable {is is' : List Instr}

theorem defined_forwardBlock (canSkip : Place → Place → Bool) (s : Forwarding) (is : List Instr) :
    (forwardBlock canSkip s is).2.flatMap (·.defined) = is.flatMap (·.defined) := by
  induction is generalizing s with
  | nil => rfl
  | cons i is ih =>
    rw [forwardBlock]
    split <;> simp_all [Instr.defined, Op.target?]

theorem defined_of_forwards {env : Environment} (h : Forwards env is is') :
    is'.flatMap (·.defined) = is.flatMap (·.defined) := by
  obtain ⟨canSkip, -, rfl⟩ := h
  exact defined_forwardBlock canSkip {} is

end Passes

namespace Function

variable {f f' f'' : Function} {R : List Instr → List Instr → Prop}

/-- A function that defines no more than another one, joins no more and runs straight only if the other
one does. -/
structure Lessens (f f' : Function) : Prop where
  phis : f'.phis = f.phis
  straight : f'.Straight → f.Straight
  defined : f'.defined.Subperm f.defined

theorem Lessens.refl (f : Function) : f.Lessens f := ⟨rfl, fun h => h, .refl _⟩

theorem Lessens.trans (h : f.Lessens f') (h' : f'.Lessens f'') : f.Lessens f'' :=
  ⟨h'.phis.trans h.phis, fun hf => h.straight (h'.straight hf), h'.defined.trans h.defined⟩

theorem Reworks.lessens (h : f.Reworks R f')
    (hR : ∀ is is', R is is' → (is'.flatMap (·.defined)).Sublist (is.flatMap (·.defined))) :
    f.Lessens f' := by
  have hstraight := h.sameFlow.straight
  obtain ⟨change, rfl, hchange⟩ := h
  refine ⟨rfl, hstraight, List.Sublist.subperm ?_⟩
  rw [defined, defined, instructions, instructions, List.flatMap_append, List.flatMap_append]
  apply List.Sublist.append_left
  rw [mapBlocks, Table.values_map, Table.values, List.flatMap_map, List.flatMap_map,
    List.flatMap_assoc, List.flatMap_assoc]
  apply List.Sublist.flatMap_right
  intro e he
  exact hR _ _ (hchange e.1 e.2 (Table.mem_entries.1 he)).2

theorem lessens_remove {block : BlockId} {b : Block} {before after : List Instr} {i : Instr}
    (hb : f.blocks.get? block = some b) (hinstrs : b.instructions = before ++ i :: after) :
    f.Lessens (f.setBlock block { b with instructions := before ++ after }) := by
  refine ⟨rfl, (SameFlow.withInstructions hb _).straight, ?_⟩
  have hold := (instructions_perm hb).flatMap_right Instr.defined
  have hnew := (instructions_setBlock_perm f block
    { b with instructions := before ++ after }).flatMap_right Instr.defined
  refine hnew.subperm.trans (List.Subperm.trans (List.Sublist.subperm ?_) hold.symm.subperm)
  rw [hinstrs]
  apply List.Sublist.flatMap
  exact ((List.sublist_cons_self i after).append_left before).append_right _

theorem lessens_dropUnreachable (f : Function) : f.Lessens f.dropUnreachable.2 := by
  have hphis : f.dropUnreachable.2.phis = f.phis := by rw [dropUnreachable_eq]
  refine ⟨hphis, straight_of_dropUnreachable, ?_⟩
  rw [dropUnreachable]
  dsimp only
  split
  · exact .refl _
  · apply List.Sublist.subperm
    apply List.Sublist.flatMap
    apply List.Sublist.append_left
    apply List.Sublist.flatMap
    exact (List.filter_sublist (l := f.blocks.entries)).map _

theorem lessens_merge {target source : BlockId} {merged : Block}
    (hmergeable : f.mergeable? = some (target, source)) (hmerged : f.blocks.get? source = some merged) :
    f.Lessens (f.merge target source merged) := by
  refine ⟨rfl, straight_of_merge hmergeable hmerged, List.Perm.subperm ?_⟩
  obtain ⟨b, hb, -, hne, -⟩ := mergeable?_eq_some hmergeable
  have hkept : (f.blocks.erase source).get? target = some b := by
    rw [Table.get?_erase, if_neg hne.symm, hb]
  apply List.Perm.flatMap_right
  -- the two blocks in front, in both functions
  have hold := (Table.values_perm hmerged).trans ((Table.values_perm hkept).cons merged)
  have hnew := Table.values_insert_perm (f.blocks.erase source) target
    ⟨b.instructions ++ merged.instructions, merged.terminal⟩
  change (f.header ++ ((f.blocks.erase source).modify target _).values.flatMap _).Perm _
  rw [Table.modify_of_get? hkept]
  apply List.Perm.append_left
  refine (hnew.flatMap_right _).trans (List.Perm.trans ?_ (hold.flatMap_right _).symm)
  simp only [List.flatMap_cons, ← List.append_assoc]
  exact List.perm_append_comm.append_right _

end Function

namespace Module

variable {m m' m'' : Module} {R : List Instr → List Instr → Prop}

/-- No function of a module defines more than it did in another one. -/
structure Lessens (m m' : Module) : Prop where
  functions : ∀ id f', m'.functions.get? id = some f' →
    ∃ f, m.functions.get? id = some f ∧ f.Lessens f'
  defined : m'.defined.Subperm m.defined

theorem Lessens.refl (m : Module) : m.Lessens m := ⟨fun _ f hf => ⟨f, hf, .refl f⟩, .refl _⟩

theorem Lessens.trans (h : m.Lessens m') (h' : m'.Lessens m'') : m.Lessens m'' := by
  refine ⟨fun id f'' hf'' => ?_, h'.defined.trans h.defined⟩
  obtain ⟨f', hf', hless'⟩ := h'.functions id f'' hf''
  obtain ⟨f, hf, hless⟩ := h.functions id f' hf'
  exact ⟨f, hf, hless.trans hless'⟩

theorem Lessens.setFunction {id : FuncId} {f f' : Function} (hf : m.functions.get? id = some f)
    (h : f.Lessens f') : m.Lessens (m.setFunction id f') := by
  constructor
  case functions =>
    intro id' g hg
    rw [get?_setFunction] at hg
    split at hg
    · next heq =>
      obtain rfl := Option.some.inj hg
      exact ⟨f, heq ▸ hf, h⟩
    · exact ⟨g, hg, .refl g⟩
  case defined =>
    have hold := (instructions_perm hf).flatMap_right Instr.defined
    have hnew := (instructions_setFunction_perm m id f').flatMap_right Instr.defined
    refine hnew.subperm.trans (List.Subperm.trans ?_ hold.symm.subperm)
    rw [List.flatMap_append, List.flatMap_append]
    exact h.defined.append (.refl _)

theorem Reworks.lessens (h : m.Reworks R m')
    (hR : ∀ is is', R is is' → (is'.flatMap (·.defined)).Sublist (is.flatMap (·.defined))) :
    m.Lessens m' := by
  constructor
  case functions =>
    intro id f' hf'
    obtain ⟨f, hf, hreworks⟩ := h.get? hf'
    exact ⟨f, hf, hreworks.lessens hR⟩
  case defined =>
    obtain ⟨change, rfl, hchange⟩ := h
    rw [defined, defined, instructions, instructions, mapFunctions, Table.values_map, Table.values,
      List.flatMap_map, List.flatMap_map]
    have hes : ∀ e ∈ m.functions.entries, e.2.Lessens (change e.2) := by
      intro e he
      exact (hchange e.1 e.2 (Table.mem_entries.1 he)).lessens hR
    generalize m.functions.entries = es at hes
    induction es with
    | nil => exact .refl _
    | cons e es ih =>
      obtain ⟨he, hes⟩ := List.forall_mem_cons.1 hes
      simp only [List.flatMap_cons, List.flatMap_append]
      exact he.defined.append (ih hes)

theorem lessens_sweepDead (m : Module) (env : Environment) : m.Lessens (m.sweepDead env).2 := by
  obtain ⟨_, hswept⟩ : ∃ _counts, m.Lessens (m.sweepDead env).2 := by
    apply Module.sweepDead_induction (P := fun m' _ => m.Lessens m') _ (.refl m)
    intro m' _ _ id f block b _ _ _ hm' hf hb hinstrs _
    exact hm'.trans (.setFunction hf (Function.lessens_remove hb hinstrs))
  exact hswept

theorem lessens_mergeBlocks (m : Module) (env : Environment) :
    m.Lessens (m.mergeBlocks env).2.1 := by
  refine mergeBlocks_induction (P := fun m' _ => m.Lessens m') ?_ ?_ (.refl m)
  · intro m' _ id f hm' hf
    exact hm'.trans (.setFunction hf f.lessens_dropUnreachable)
  · intro m' _ id f target source merged hm' hf hmergeable hmerged
    exact hm'.trans (.setFunction hf (Function.lessens_merge hmergeable hmerged))

end Module

/-- Only inlining defines anything. -/
theorem Pass.lessens_step (w : Workbench) {pass : Pass} (hpass : pass ≠ .inlining) :
    w.module.Lessens (pass.step w).2.module := by
  cases pass with
  | inlining => exact absurd rfl hpass
  | propagation =>
    exact (w.module.reworks_propagateConstants w.env w.constants).lessens fun _ _ h =>
      (h.thins fun _ => False).defined
  | forwarding =>
    exact (w.module.reworks_forwardStores w.env).lessens fun _ _ h =>
      (defined_of_forwards h).symm ▸ .refl _
  | overwriting =>
    exact (w.module.reworks_dropOverwritten w.env).lessens fun _ _ h => h.thins.defined
  | sweeping => exact w.module.lessens_sweepDead w.env
  | merging => exact w.module.lessens_mergeBlocks w.env

/-! ## New cells -/

/-- Cells that were handed out between two moments, each of them once. -/
structure Handed (env env' : Environment) (new : List CellId) : Prop where
  le : env.nextCell.index ≤ env'.nextCell.index
  nodup : new.Nodup
  between : ∀ id ∈ new, env.nextCell.index ≤ id.index ∧ id.index < env'.nextCell.index

section Handed

variable {env env₁ env₂ : Environment} {new new' : List CellId}

theorem Handed.append (h : Handed env env₁ new) (h' : Handed env₁ env₂ new') :
    Handed env env₂ (new ++ new') := by
  refine ⟨h.le.trans h'.le, List.nodup_append.2 ⟨h.nodup, h'.nodup, ?_⟩, List.forall_mem_append.2 ⟨?_, ?_⟩⟩
  · rintro id hid _ hid' rfl
    have := (h.between id hid).2
    have := (h'.between id hid').1
    omega
  · intro id hid
    obtain ⟨hle, hlt⟩ := h.between id hid
    exact ⟨hle, hlt.trans_le h'.le⟩
  · intro id hid
    obtain ⟨hle, hlt⟩ := h'.between id hid
    exact ⟨h.le.trans hle, hlt⟩

theorem handed_newInstr (env : Environment) (owner : FuncId) (op : Op) :
    Handed env (env.newInstr owner op).2 [env.nextCell] := by
  have hnext : (env.newInstr owner op).2.nextCell.index = env.nextCell.index + 1 := rfl
  refine ⟨by omega, List.nodup_singleton _, ?_⟩
  simp only [List.mem_singleton, forall_eq]
  omega

/-- A new instruction defines a new cell, and perhaps one of a join. -/
theorem numberedCells_newInstr (env : Environment) (owner : FuncId) (op : Op)
    (hop : ∀ p ∈ op.target?, p.cell.version.isNumbered = false) :
    numberedCells (env.newInstr owner op).1.defined = [env.nextCell] := by
  rw [Instr.defined, Environment.op_newInstr, ← List.singleton_append, numberedCells_append]
  have htarget : numberedCells op.target?.toList = [] := by
    cases htarget : op.target? with
    | none => rfl
    | some p => simp [numberedCells, hop p htarget]
  rw [htarget, List.append_nil]
  rfl

end Handed

namespace Function

variable {f f' f'' : Function} {env env' env'' : Environment}

/-- A function defines what another one defines, perhaps less, and cells that are new. -/
def Adds (env : Environment) (f : Function) (env' : Environment) (f' : Function) : Prop :=
  ∃ new, Handed env env' new ∧
    (numberedCells f'.defined).Subperm (new ++ numberedCells f.defined)

theorem Adds.of_le (hle : env.nextCell.index ≤ env'.nextCell.index)
    (h : (numberedCells f'.defined).Subperm (numberedCells f.defined)) : Adds env f env' f' :=
  ⟨[], ⟨hle, List.nodup_nil, by simp⟩, h⟩

theorem Adds.trans (h : Adds env f env' f') (h' : Adds env' f' env'' f'') : Adds env f env'' f'' := by
  obtain ⟨new, hnew, hsub⟩ := h
  obtain ⟨new', hnew', hsub'⟩ := h'
  refine ⟨new ++ new', hnew.append hnew', hsub'.trans ?_⟩
  refine ((List.Subperm.refl new').append hsub).trans (List.Perm.subperm ?_)
  rw [List.append_assoc]
  exact List.perm_append_comm_assoc ..

/-- Instructions are put into a block. -/
theorem Adds.setBlock {id : BlockId} {b : Block} (hb : f.blocks.get? id = some b)
    {added is : List Instr} (his : is.Perm (added ++ b.instructions))
    (hnew : Handed env env' (numberedCells (added.flatMap (·.defined)))) :
    Adds env f env' (f.setBlock id { b with instructions := is }) := by
  refine ⟨_, hnew, ?_⟩
  rw [← numberedCells_append]
  apply numberedCells_subperm
  have hold := (instructions_perm hb).flatMap_right Instr.defined
  have hnew := (instructions_setBlock_perm f id
    { b with instructions := is }).flatMap_right Instr.defined
  apply List.Perm.subperm
  refine hnew.trans (((his.append_right _).flatMap_right _).trans ?_)
  rw [List.append_assoc, List.flatMap_append]
  exact hold.symm.append_left _

theorem defined_mapBlocks {g : BlockId → Block → Block} (h : ∀ id b,
    (g id b).instructions.flatMap (·.defined) = b.instructions.flatMap (·.defined)) (f : Function) :
    (f.mapBlocks g).defined = f.defined := by
  rw [defined, defined, instructions, instructions, List.flatMap_append, List.flatMap_append, mapBlocks,
    Table.values_map, Table.values, List.flatMap_map, List.flatMap_map, List.flatMap_assoc,
    List.flatMap_assoc]
  congr 1
  exact List.flatMap_congr fun e _ => h e.1 e.2

/-! Removing joins. -/

theorem insertBehind_perm (p : Instr → Bool) (new : Instr) (is : List Instr) :
    (insertBehind p new is).Perm (new :: is) := by
  induction is with
  | nil => exact .refl _
  | cons i is ih =>
    rw [insertBehind]
    split
    · exact .swap new i is
    · exact (ih.cons i).trans (.swap new i is)

theorem defined_redirectReads (f : Function) (env : Environment) (phi : Phi) :
    (f.redirectReads env phi).defined = f.defined := by
  apply defined_mapBlocks
  intro id b
  split
  · rw [List.flatMap_def, List.flatMap_def]
    congr 1
    apply List.ext_getElem
    · simp
    · intro index _ _
      simp only [List.getElem_map, List.getElem_mapIdx]
      split <;> simp
  · rfl

theorem withStore_eq {first : VersionRecord} {b : Block} (hb : f.blocks.get? first.block = some b)
    (store : Instr) : f.withStore first store = f.setBlock first.block { b with
      instructions := insertBehind (·.defined.contains first.place) store b.instructions } := by
  rw [withStore, setBlock, Table.modify_of_get? hb]

/-- The instructions that stand for a join define new cells and that of the join. -/
theorem adds_eliminateSsa (hphis : ∀ phi ∈ f.phis, phi.place.cell.version.isNumbered = false)
    (h : f.eliminateSsa env = .ok (f', env')) : Adds env f env' f' := by
  refine eliminateSsa_induction (P := fun g env' => Adds env f env' g) ?_
    (.of_le (Nat.le_refl _) (.refl _)) h
  intro phi hphi _
  have hjoined := hphis phi hphi
  constructor
  case store =>
    intro g env₁ first hg hfirst
    have hcontains : g.blocks.contains first.block = true := by
      rw [firstVersion?] at hfirst
      simpa using List.find?_some hfirst
    obtain ⟨b, hb⟩ := Table.contains_iff.1 hcontains
    rw [withStore_eq hb]
    have hperm := insertBehind_perm (·.defined.contains first.place)
      (env₁.newInstr g.id (.storeLocal phi.place first.place .reassign)).1 b.instructions
    rw [← List.singleton_append] at hperm
    refine hg.trans (Adds.setBlock hb hperm ?_)
    rw [List.flatMap_singleton,
      numberedCells_newInstr _ _ _ (by simpa [Op.target?] using hjoined)]
    exact handed_newInstr ..
  case redirect =>
    intro g env₁ hg
    refine hg.trans (.of_le (Nat.le_refl _) ?_)
    rw [defined_redirectReads]
  case copy =>
    intro g env₁ predecessor operand b hg _ hb
    refine hg.trans (Adds.setBlock hb List.perm_append_comm ?_)
    simp only [copyInstrs, List.flatMap_cons, List.flatMap_nil, numberedCells_append, List.append_nil]
    rw [numberedCells_newInstr _ _ _ (by simp [Op.target?]),
      numberedCells_newInstr _ _ _ (by simpa [Op.target?] using hjoined),
      numberedCells_newInstr _ _ _ (by simp [Op.target?])]
    exact (handed_newInstr ..).append ((handed_newInstr ..).append (handed_newInstr ..))

end Function

/-! ## Copies -/

theorem defined_copies {c : Copying} {is js : List Instr} (h : List.Forall₂ c.IsCopy is js) :
    js.flatMap (·.defined) = (is.flatMap (·.defined)).map c.place := by
  induction h with
  | nil => rfl
  | cons hij _ ih =>
    rw [List.flatMap_cons, List.flatMap_cons, List.map_append, ih,
      Instr.defined_mapPlaces hij.op hij.place]

namespace Splice

variable {m : Module} {env : Environment} {start : List Cell} (s : Splice m env start)

/-- The code that is copied. -/
def original : List Instr := s.callee.header ++ s.toInlining.code

/-- What stands in the place of the call, up to its end. -/
def main : List Instr := s.array :: s.header ++ [s.pattern, s.bind] ++ s.copied

/-- What stands in the place of the call comes between what stood before it and behind it. -/
theorem instructions_eq : s.instructions = s.block.instructions.take s.site.index ++ (s.main ++
    (s.closing s.call ++ s.block.instructions.drop (s.site.index + 1))) := by
  rw [instructions, code, main]
  simp only [List.append_assoc]

/-- The new instructions define the reserved places and the counterparts of what the callee defines. -/
theorem defined_main : (s.main.flatMap (·.defined)).Perm
    ([s.bind.place, s.pattern.place, s.array.place] ++
      (s.original.flatMap (·.defined)).map s.copying.place) := by
  have hheader := defined_copies s.expands.header
  have hbody := defined_copies s.expands.body
  have harray : s.array.defined = [s.array.place] := by simp [Instr.defined, s.expands.array_op, Op.target?]
  have hpattern : s.pattern.defined = [s.pattern.place] := by
    simp [Instr.defined, s.expands.pattern_op, Op.target?]
  have hbind : s.bind.defined = [s.bind.place] := by simp [Instr.defined, s.expands.bind_op, Op.target?]
  simp only [main, original, List.flatMap_append, List.flatMap_cons, List.flatMap_nil, hheader, hbody,
    harray, hpattern, hbind, List.map_append]
  rw [List.perm_iff_count]
  intro p
  simp only [List.count_append, List.count_cons, List.count_nil]
  omega

theorem mem_callee {i : Instr} (hi : i ∈ s.original) : i ∈ s.callee.instructions := by
  rcases List.mem_append.1 hi with hi | hi
  · exact Inlining.Copyable.mem_of_header hi
  · exact s.copyable.mem_of_code hi

theorem owned_original {p : Place} (hp : p ∈ s.original.flatMap (·.defined)) :
    s.copying.places.get? p.cell.id = some (s.copying.place p) := by
  obtain ⟨i, hi, hp⟩ := List.mem_flatMap.1 hp
  have hmem := s.mem_callee hi
  have hplaces : p ∈ i.places := List.mem_append_right _ hp
  refine (s.expands.covers i hi p hplaces).get?_places ?_
  rw [s.expands.goes.env.owner _ (s.copyable.declared (Function.places_of_instr hmem hplaces)),
    s.expands.callee]
  exact s.copyable.owned i hmem p hp

theorem isNumbered_main (hlogs : s.copying.env.Logs s.cells) :
    ∀ p ∈ s.main.flatMap (·.defined), p.cell.version.isNumbered = true := by
  intro p hp
  rcases List.mem_append.1 (s.defined_main.mem_iff.1 hp) with hp | hp
  · obtain ⟨hof, htemporary⟩ := s.expands.goes.fresh.reserved_known p hp
    exact hlogs.isNumbered hof htemporary
  · obtain ⟨q, hq, rfl⟩ := List.mem_map.1 hp
    exact s.expands.goes.fresh.numbered _ _ (s.owned_original hq)

theorem exists_of_copied {p : Place} (hp : p ∈ (s.original.flatMap (·.defined)).map s.copying.place) :
    ∃ id, s.copying.places.get? id = some p := by
  obtain ⟨q, hq, rfl⟩ := List.mem_map.1 hp
  exact ⟨_, s.owned_original hq⟩

/-- The new instructions define new cells. -/
theorem between_main {p : Place} (hp : p ∈ s.main.flatMap (·.defined)) :
    env.nextCell.index ≤ p.cell.id.index ∧ p.cell.id.index < s.copying.env.nextCell.index := by
  have hfresh := s.expands.goes.fresh
  have hlogs := s.expands.goes.env.logs
  rcases List.mem_append.1 (s.defined_main.mem_iff.1 hp) with hp | hp
  · refine ⟨?_, (hlogs.has (hfresh.reserved_known p hp).1).1⟩
    have hnew := s.expands.new
    simp only [List.mem_cons, List.not_mem_nil, or_false, forall_eq_or_imp, forall_eq] at hnew hp
    rcases hp with rfl | rfl | rfl
    · exact hnew.2.2
    · exact hnew.2.1
    · exact hnew.1
  · obtain ⟨id, hid⟩ := s.exists_of_copied hp
    exact ⟨hfresh.new id p hid, (hlogs.has (hfresh.known id p hid)).1⟩

/-- They define each cell once, where the copied ones do. -/
theorem handed_main (horiginal : ((s.original.flatMap (·.defined)).map (·.cell.id)).Nodup) :
    Handed env s.after ((s.main.flatMap (·.defined)).map (·.cell.id)) := by
  have hfresh := s.expands.goes.fresh
  have hafter : s.after.nextCell = s.copying.env.nextCell := by
    rw [after, recordDefined]
    generalize s.code.flatMap (·.defined) = ps
    generalize s.copying.env = env'
    induction ps generalizing env' with
    | nil => rfl
    | cons p ps ih =>
      rw [List.foldl_cons, ih]
      split <;> rfl
  constructor
  case le =>
    rw [hafter]
    exact s.expands.goes.nextCell_le
  case nodup =>
    rw [(s.defined_main.map _).nodup_iff, List.map_append, List.nodup_append]
    refine ⟨hfresh.reserved_nodup, ?_, ?_⟩
    · rw [List.map_map, List.Nodup, List.pairwise_map]
      rw [List.Nodup, List.pairwise_map] at horiginal
      refine horiginal.imp_of_mem fun {p q} hp hq hne heq => hne ?_
      exact hfresh.injective _ _ _ _ (s.owned_original hp) (s.owned_original hq) heq
    · intro id hid id' hid' heq
      obtain ⟨k, hk, rfl⟩ := List.mem_map.1 hid
      obtain ⟨p, hp, rfl⟩ := List.mem_map.1 hid'
      obtain ⟨id, hid⟩ := s.exists_of_copied hp
      exact hfresh.apart k hk id p hid heq.symm
  case between =>
    intro id hid
    obtain ⟨p, hp, rfl⟩ := List.mem_map.1 hid
    rw [hafter]
    exact s.between_main hp

/-- The caller defines the new cells beside what it defined before. -/
theorem subperm_replaced : s.replaced.defined.Subperm (s.main.flatMap (·.defined) ++ s.caller.defined) := by
  have hreplaced : s.replaced.defined = s.spliced.defined := by
    apply Function.defined_mapBlocks
    intro _ b
    rw [Block.mapReads, List.flatMap_map]
    exact List.flatMap_congr fun i _ => i.defined_mapReads _
  have hclosing : ((s.closing s.call).flatMap (·.defined)).Sublist s.call.defined := by
    rw [Inlining.closing]
    cases returned? s.body with
    | some _ => exact List.nil_sublist _
    | none => simp [Instr.defined, Op.target?]
  have hnew := (Function.instructions_setBlock_perm s.caller s.site.block
    { s.block with instructions := s.instructions }).flatMap_right fun i : Instr => i.defined
  have hold := (Function.instructions_perm s.block_mem).flatMap_right fun i : Instr => i.defined
  rw [hreplaced]
  refine hnew.subperm.trans (List.Subperm.trans ?_ (hold.symm.append_left _).subperm)
  rw [s.block_eq]
  change List.Subperm ((s.block.instructions.take s.site.index ++ (s.main ++ s.closing s.call) ++
    s.block.instructions.drop (s.site.index + 1) ++ _).flatMap _) _
  generalize s.block.instructions.take s.site.index = before
  generalize s.block.instructions.drop (s.site.index + 1) = later
  simp only [List.flatMap_append, List.flatMap_cons]
  refine List.Subperm.trans (List.Sublist.subperm ((((hclosing.append_left _).append_left _).append_right
    _).append_right _)) (List.Perm.subperm ?_)
  rw [List.perm_iff_count]
  intro p
  simp only [List.count_append]
  omega

/-- The blocks end as they did. -/
theorem sameFlow_replaced : s.caller.SameFlow s.replaced := by
  apply (Function.SameFlow.withInstructions s.block_mem s.instructions).trans
  apply Function.SameFlow.mapBlocks
  intro _ b _
  exact b.ending_mapReads _

end Splice

/-! ## Modules -/

namespace Function

variable {f f' : Function} {env env' : Environment}

theorem exists_code {i : Instr} (hi : i ∈ f.instructions) : ∃ b, i ∈ f.code b := by
  rcases List.mem_append.1 hi with hi | hi
  · exact ⟨f.entry, List.mem_append_left _ (by simpa using hi)⟩
  · obtain ⟨b, hb, hi⟩ := List.mem_flatMap.1 hi
    obtain ⟨id, hb⟩ := Table.mem_values.1 hb
    exact ⟨id, List.mem_append_right _ (by simpa [hb] using hi)⟩

/-- A function that joins nothing. -/
structure Plain (f : Function) : Prop where
  phis : ∀ phi ∈ f.phis, phi.operands.size ≤ 1
  numbered : ∀ p ∈ f.defined, p.cell.version.isNumbered = true

theorem Lessens.plain (h : f.Lessens f') (hf : f.Plain) : f'.Plain :=
  ⟨h.phis ▸ hf.phis, fun p hp => hf.numbered p (h.defined.subset hp)⟩

/-- Without joins there is nothing to remove. -/
theorem Plain.eliminateSsa (hf : f.Plain) (h : f.eliminateSsa env = .ok (f', env')) : f'.Plain := by
  obtain rfl := eliminateSsa_of_size_le_one hf.phis h
  exact ⟨nofun, hf.numbered⟩

end Function

namespace Module

variable {m m' : Module} {env env' : Environment} {cells : List Cell}

theorem AllUse.isOf_defined (h : m.AllUse env cells) {p : Place} (hp : p ∈ m.defined) :
    p.IsOf cells := by
  obtain ⟨i, hi, hp⟩ := List.mem_flatMap.1 hp
  exact h.isOf hi (List.mem_append_right _ hp)

/-- No cell is defined twice, and functions that run straight through join nothing. -/
structure NumberedOnce (m : Module) : Prop where
  nodup : (numberedCells m.defined).Nodup
  plain : ∀ id f, m.functions.get? id = some f → f.Straight → f.Plain

theorem NumberedOnce.lessens (h : m.NumberedOnce) (hless : m.Lessens m') : m'.NumberedOnce := by
  constructor
  case nodup =>
    obtain ⟨ids, hperm, hsub⟩ := numberedCells_subperm hless.defined
    exact hperm.nodup_iff.1 (h.nodup.sublist hsub)
  case plain =>
    intro id f' hf' hstraight
    obtain ⟨f, hf, hfless⟩ := hless.functions id f' hf'
    exact hfless.plain (h.plain id f hf (hfless.straight hstraight))

/-- One function defines new cells. -/
theorem NumberedOnce.setFunction (h : m.NumberedOnce) (hall : m.AllUse env cells) (hlogs : env.Logs cells)
    {id : FuncId} {f f' : Function} (hf : m.functions.get? id = some f)
    (hadds : Function.Adds env f env' f') (hplain : f'.Straight → f'.Plain) :
    (m.setFunction id f').NumberedOnce := by
  constructor
  case nodup =>
    obtain ⟨new, hnew, hsub⟩ := hadds
    have hold := ((instructions_perm hf).flatMap_right fun i : Instr => i.defined).symm
    have hset := (instructions_setFunction_perm m id f').flatMap_right fun i : Instr => i.defined
    have hcells : (numberedCells (m.setFunction id f').defined).Subperm
        (new ++ numberedCells m.defined) := by
      refine (numberedCells_subperm hset.subperm).trans ?_
      refine List.Subperm.trans ?_ ((List.Subperm.refl new).append (numberedCells_subperm hold.subperm))
      simp only [List.flatMap_append, numberedCells_append, ← List.append_assoc]
      exact hsub.append (.refl _)
    obtain ⟨ids, hperm, hsublist⟩ := hcells
    refine hperm.nodup_iff.1 (List.Nodup.sublist hsublist (List.nodup_append.2 ⟨hnew.nodup, h.nodup, ?_⟩))
    rintro c hc _ hc' rfl
    obtain ⟨p, hp, rfl⟩ := List.mem_map.1 hc'
    have hlt := (hlogs.has (hall.isOf_defined (List.mem_filter.1 hp).1)).1
    have hle := (hnew.between _ hc).1
    omega
  case plain =>
    intro id' g hg
    rw [get?_setFunction] at hg
    split at hg
    · obtain rfl := Option.some.inj hg
      exact hplain
    · exact h.plain id' g hg

/-- A copy of a function defines new cells, because the function joins nothing. -/
theorem NumberedOnce.inlineOne (h : m.NumberedOnce) (hall : m.AllUse env cells) (hlogs : env.Logs cells)
    (cache : RecursionCache) : (m.inlineOne env cache).2.1.NumberedOnce := by
  rcases hinline : m.inlineOne env cache with ⟨changed, m', env', cache'⟩
  cases changed with
  | false =>
    obtain ⟨rfl, rfl⟩ := inlineOne_eq_false hinline
    exact h
  | true =>
    obtain ⟨s, rfl, rfl⟩ := exists_splice hall hlogs hinline
    obtain ⟨hstraight, hbody⟩ := Function.straightBody?_eq_some (smallBody?_eq_some s.small).1
    have hcallee := h.plain _ _ s.callee_mem hstraight
    have horiginal : (s.original.flatMap (·.defined)).Subperm s.callee.defined := by
      obtain ⟨bs, hperm, hsub⟩ := hbody
      refine ⟨_, (((hperm.flatMap_right _).append_left s.callee.header).flatMap_right _), ?_⟩
      exact ((hsub.flatMap _).append_left _).flatMap _
    have hnodup : ((s.original.flatMap (·.defined)).map (·.cell.id)).Nodup := by
      rw [← numberedCells_of_numbered fun p hp => hcallee.numbered p (horiginal.subset hp)]
      have hmodule : (numberedCells (s.original.flatMap (·.defined))).Subperm
          (numberedCells m.defined) := by
        apply numberedCells_subperm
        refine horiginal.trans (List.Subperm.trans (List.Sublist.subperm ?_)
          ((instructions_perm s.callee_mem).symm.flatMap_right _).subperm)
        rw [List.flatMap_append]
        exact List.sublist_append_left _ _
      obtain ⟨ids, hperm, hsub⟩ := hmodule
      exact hperm.nodup_iff.1 (h.nodup.sublist hsub)
    have hnumbered := s.isNumbered_main s.expands.goes.env.logs
    apply h.setFunction hall hlogs s.caller_mem
    · refine ⟨_, s.handed_main hnodup, ?_⟩
      rw [← numberedCells_of_numbered hnumbered, ← numberedCells_append]
      exact numberedCells_subperm s.subperm_replaced
    · intro hreplaced
      have hplain := h.plain _ _ s.caller_mem (s.sameFlow_replaced.straight hreplaced)
      refine ⟨hplain.phis, fun p hp => ?_⟩
      rcases List.mem_append.1 (s.subperm_replaced.subset hp) with hp | hp
      · exact hnumbered p hp
      · exact hplain.numbered p hp

theorem numberedOnce_lower {path : String} {tree : Syntax.Module}
    (h : tree.lower path {} = .ok (m, env)) : m.NumberedOnce := by
  obtain ⟨home, -, hclosed⟩ := Syntax.Module.closed_lower h
  have hnumbered {id : FuncId} {f : Function} (hf : m.functions.get? id = some f) :
      ∀ p ∈ f.defined, p.cell.version.isNumbered = true := by
    intro p hp
    obtain ⟨i, hi, hp⟩ := List.mem_flatMap.1 hp
    obtain ⟨b, hi⟩ := f.exists_code hi
    exact ((hclosed id f hf).tells.known b i hi p hp).2
  constructor
  case nodup =>
    rw [numberedCells_of_numbered, defined, List.map_flatMap]
    · exact Syntax.Module.writes_nodup_lower h
    · intro p hp
      obtain ⟨i, hi, hp⟩ := List.mem_flatMap.1 hp
      obtain ⟨f, hf, hi⟩ := List.mem_flatMap.1 hi
      obtain ⟨id, hf⟩ := Table.mem_values.1 hf
      exact hnumbered hf p (List.mem_flatMap.2 ⟨i, hi, hp⟩)
  case plain =>
    intro id f hf _
    exact ⟨by simp [(hclosed id f hf).unjoined], hnumbered hf⟩

theorem NumberedOnce.next (h : m.NumberedOnce) (hall : m.AllUse env cells) (hlogs : env.Logs cells)
    (hflow : ∀ id f, m.functions.get? id = some f → f.HasFlow) (hop : Operation m env m' env') :
    m'.NumberedOnce := by
  cases hop with
  | resolve globals => exact ⟨h.nodup, h.plain⟩
  | @buildSsa _ _ f _ hf =>
    obtain ⟨_, hadvance, -⟩ := (hall _ _ hf).buildSsa hlogs
    have hadds : Function.Adds env f (f.buildSsa env).2 (f.buildSsa env).1 :=
      .of_le (hadvance.nextCell_le hlogs) (.refl _)
    apply h.setFunction hall hlogs hf hadds
    intro hstraight
    have hbefore := (f.sameFlow_buildSsa env).straight hstraight
    exact ⟨hbefore.operands_le_one (hflow _ _ hf) env, (h.plain _ _ hf hbefore).numbered⟩
  | @eliminateSsa _ _ f _ _ _ hf hout =>
    apply h.setFunction hall hlogs hf
    · exact Function.adds_eliminateSsa (fun phi hphi => ((hall _ _ hf).phis phi hphi).joined) hout
    · intro hstraight
      exact (h.plain _ _ hf ((Function.sameFlow_eliminateSsa hout).straight hstraight)).eliminateSsa hout
  | step w pass =>
    by_cases hpass : pass = .inlining
    · subst hpass
      exact h.inlineOne hall hlogs w.recursion
    · exact h.lessens (Pass.lessens_step w hpass)

theorem Reached.numberedOnce (h : m.Reached env) : m.NumberedOnce := by
  induction h with
  | lower hlower => exact numberedOnce_lower hlower
  | next hreached hop ih =>
    obtain ⟨cells, hlogs, hall⟩ := hreached.coherent
    exact ih.next hall hlogs hreached.hasFlow hop

/-- How many instructions define a cell, if all places of its number are numbered. -/
theorem countP_le_numberedCells {id : CellId} {is : List Instr}
    (h : ∀ p ∈ is.flatMap (·.defined), p.cell.id = id → p.cell.version.isNumbered = true) :
    (is.countP fun i => i.defined.any (·.cell.id == id)) ≤
      (numberedCells (is.flatMap (·.defined))).count id := by
  induction is with
  | nil => exact Nat.le_refl 0
  | cons i is ih =>
    rw [List.flatMap_cons, List.forall_mem_append] at h
    rw [List.countP_cons, List.flatMap_cons, numberedCells_append, List.count_append]
    have hrest := ih h.2
    split
    · next hany =>
      obtain ⟨p, hp, hid⟩ := List.any_eq_true.1 hany
      rw [beq_iff_eq] at hid
      have hmem : id ∈ numberedCells i.defined :=
        List.mem_map.2 ⟨p, List.mem_filter.2 ⟨hp, h.1 p hp hid⟩, hid⟩
      have hpos := List.count_pos_iff.2 hmem
      omega
    · omega

/-- Single definition: whatever operations have led to a module, a cell with a numbered version that
an instruction of the module defines is defined by no other instruction of the module. -/
theorem defined_once (h : m.Reached env) {i : Instr} (hi : i ∈ m.instructions) {p : Place}
    (hp : p ∈ i.defined) {n : Nat} (hversion : p.cell.version = .numbered n) :
    (m.instructions.countP fun j => j.defined.any (·.cell.id == p.cell.id)) = 1 := by
  obtain ⟨cells, -, hall⟩ := h.coherent
  have hmem : p ∈ m.defined := List.mem_flatMap.2 ⟨i, hi, hp⟩
  have hsame (q : Place) (hq : q ∈ m.defined) (hid : q.cell.id = p.cell.id) :
      q.cell.version.isNumbered = true := by
    rw [(hall.isOf_defined hq).single (hall.isOf_defined hmem) hid, hversion]
    rfl
  have hle := (countP_le_numberedCells hsame).trans
    (List.nodup_iff_count_le_one.1 h.numberedOnce.nodup p.cell.id)
  have hpos : 0 < m.instructions.countP fun j => j.defined.any (·.cell.id == p.cell.id) :=
    List.countP_pos_iff.2 ⟨i, hi, List.any_eq_true.2 ⟨p, hp, beq_self_eq_true _⟩⟩
  omega

/-- A call is replaced, and a cell that was not there before is defined by one instruction. -/
theorem defined_once_takingFirst :
    ∃ (w : Workbench) (i : Instr) (p : Place), joined? takingFirst = some (w.module, w.env) ∧
      w.module.Reached w.env ∧ (Pass.inlining.step w).1 = true ∧
      i ∈ (Pass.inlining.step w).2.module.instructions ∧ p ∈ i.defined ∧
      w.env.nextCell.index ≤ p.cell.id.index ∧ p.cell.version = .numbered 0 ∧
      ((Pass.inlining.step w).2.module.instructions.countP fun j =>
        j.defined.any (·.cell.id == p.cell.id)) = 1 := by
  obtain ⟨⟨m, env⟩, hjoined, hinlined, i, hi, p, hp, hnew, hversion⟩ : ∃ t ∈ joined? takingFirst,
      (Pass.inlining.step ⟨t.1, t.2, {}, ∅⟩).1 = true ∧
      ∃ i ∈ (Pass.inlining.step ⟨t.1, t.2, {}, ∅⟩).2.module.instructions, ∃ p ∈ i.defined,
        t.2.nextCell.index ≤ p.cell.id.index ∧ p.cell.version = .numbered 0 := by
    decide +kernel
  have hreached : m.Reached env := (arises_of_joined? hjoined).reached
  have hlater := hreached.next (.step ⟨m, env, {}, ∅⟩ .inlining)
  exact ⟨⟨m, env, {}, ∅⟩, i, p, hjoined, hreached, hinlined, hi, hp, hnew, hversion,
    defined_once hlater hi hp hversion⟩

end Module

end Whittle.Ir
