import Mathlib.Tactic.Common
import Whittle.Ir.Module
import Whittle.Proofs.Lowering.Records

/-!
# Cells of a module

Cells are handed out by number.  Beside an environment stands the list of the cells that it has handed
out (`Environment.Logs`); it only ever gets longer (`Advance`).  A module is coherent when all places
in it are places of such cells and its functions return values of their own.
-/

namespace Whittle.Ir

/-! ## Places of cells -/

/-- A place of one of the given cells. -/
def Place.IsOf (cells : List Cell) (p : Place) : Prop := cells[p.cell.id.index]? = some p.cell

instance (cells : List Cell) (p : Place) : Decidable (p.IsOf cells) :=
  inferInstanceAs (Decidable (cells[p.cell.id.index]? = some p.cell))

theorem Place.IsOf.mono {cells cells' : List Cell} {p : Place} (h : p.IsOf cells)
    (hcells : cells <+: cells') : p.IsOf cells' := by
  obtain ⟨more, rfl⟩ := hcells
  have hlt := (List.getElem?_eq_some_iff.1 h).1
  rw [IsOf, List.getElem?_append_left hlt]
  exact h

/-- Places of one number are places of one cell. -/
theorem Place.IsOf.single {cells : List Cell} {p q : Place} (hp : p.IsOf cells) (hq : q.IsOf cells)
    (h : p.cell.id = q.cell.id) : p.cell = q.cell := by
  rw [IsOf] at hp hq
  rw [h, hq] at hp
  exact (Option.some.inj hp).symm

/-- All places of an instruction. -/
def Instr.places (i : Instr) : List Place := i.reads ++ i.defined

/-- The cells that an instruction defines, by number. -/
def Instr.writes (i : Instr) : List CellId := i.defined.map (·.cell.id)

theorem Instr.place_mem_places (i : Instr) : i.place ∈ i.places :=
  List.mem_append_right _ List.mem_cons_self

/-- The places of a block are good, and those that it returns are its function's own. -/
structure Block.Uses (good own : Place → Prop) (b : Block) : Prop where
  instructions : ∀ i ∈ b.instructions, ∀ p ∈ i.places, good p
  terminal : ∀ t, b.terminal = some t → ∀ p ∈ t.reads, good p
  returned : ∀ p, b.terminal = some (.ret (some p)) → own p

/-- The places of a function are good, and those that it returns are its own. -/
structure Function.Uses (good own : Place → Prop) (f : Function) : Prop where
  params : ∀ p ∈ f.params, good p
  header : ∀ i ∈ f.header, ∀ p ∈ i.places, good p
  blocks : ∀ id b, f.blocks.get? id = some b → b.Uses good own

section Uses

variable {good good' own own' : Place → Prop} {b : Block} {f : Function}

theorem Block.Uses.mono (h : b.Uses good own) (hgood : ∀ p, good p → good' p)
    (hown : ∀ p, own p → own' p) : b.Uses good' own' :=
  ⟨fun i hi p hp => hgood p (h.instructions i hi p hp), fun t ht p hp => hgood p (h.terminal t ht p hp),
    fun p hp => hown p (h.returned p hp)⟩

theorem Function.Uses.mono (h : f.Uses good own) (hgood : ∀ p, good p → good' p)
    (hown : ∀ p, own p → own' p) : f.Uses good' own' :=
  ⟨fun p hp => hgood p (h.params p hp), fun i hi p hp => hgood p (h.header i hi p hp),
    fun id b hb => (h.blocks id b hb).mono hgood hown⟩

/-- Other instructions in a block. -/
theorem Block.Uses.withInstructions (h : b.Uses good own) {is : List Instr}
    (his : ∀ i ∈ is, ∀ p ∈ i.places, good p) : ({ b with instructions := is } : Block).Uses good own :=
  ⟨his, h.terminal, h.returned⟩

theorem Function.Uses.setBlock (h : f.Uses good own) (id : BlockId) (hb : b.Uses good own) :
    (f.setBlock id b).Uses good own := by
  refine ⟨h.params, h.header, fun id' b' hb' => ?_⟩
  rw [Function.setBlock, Table.get?_insert] at hb'
  split at hb'
  · exact Option.some.inj hb' ▸ hb
  · exact h.blocks id' b' hb'

theorem Function.Uses.mapBlocks (h : f.Uses good own) {g : BlockId → Block → Block}
    (hg : ∀ id b, f.blocks.get? id = some b → (g id b).Uses good own) :
    (f.mapBlocks g).Uses good own := by
  refine ⟨h.params, h.header, fun id b hb => ?_⟩
  rw [Function.mapBlocks, Table.get?_map] at hb
  obtain ⟨b₀, hb₀, rfl⟩ := Option.map_eq_some_iff.1 hb
  exact hg id b₀ hb₀

end Uses

/-! Blocks with other reads. -/

section Reads

variable {good own : Place → Prop} {g : Place → Place} {i : Instr} {b : Block}

theorem Instr.places_mapReads (hg : ∀ p, good p → good (g p)) (hi : ∀ p ∈ i.places, good p) :
    ∀ p ∈ (i.mapReads g).places, good p := by
  intro p hp
  rcases List.mem_append.1 hp with hp | hp
  · rw [Instr.reads, Instr.mapReads, Op.reads_mapReads] at hp
    obtain ⟨q, hq, rfl⟩ := List.mem_map.1 hp
    exact hg q (hi q (List.mem_append_left _ hq))
  · refine hi p (List.mem_append_right _ ?_)
    have htarget : (i.op.mapReads g).target? = i.op.target? := by cases i.op <;> rfl
    simpa [Instr.defined, Instr.mapReads, htarget] using hp

theorem Terminal.reads_mapReads (g : Place → Place) (t : Terminal) :
    (t.mapReads g).reads = t.reads.map g := by
  cases t with
  | ret value => cases value <;> rfl
  | _ => rfl

theorem Block.Uses.mapReads (h : b.Uses good own) (hg : ∀ p, good p → good (g p))
    (hown : ∀ p, good p → own p → own (g p)) : (b.mapReads g).Uses good own := by
  refine ⟨fun i hi => ?_, fun t ht p hp => ?_, fun p hp => ?_⟩
  · obtain ⟨j, hj, rfl⟩ := List.mem_map.1 hi
    exact Instr.places_mapReads hg (h.instructions j hj)
  · obtain ⟨t', ht', rfl⟩ := Option.map_eq_some_iff.1 ht
    rw [Terminal.reads_mapReads] at hp
    obtain ⟨q, hq, rfl⟩ := List.mem_map.1 hp
    exact hg q (h.terminal t' ht' q hq)
  · obtain ⟨t, ht, hret⟩ := Option.map_eq_some_iff.1 hp
    cases t with
    | ret value =>
      simp only [Terminal.mapReads, Terminal.ret.injEq, Option.map_eq_some_iff] at hret
      obtain ⟨q, rfl, rfl⟩ := hret
      exact hown q (h.terminal _ ht q (List.mem_singleton_self q)) (h.returned q ht)
    | jump | branch => cases hret

end Reads

/-- All places of a function. -/
def Function.places (f : Function) : List Place :=
  f.params ++ f.instructions.flatMap (·.places) ++ f.terminals.flatMap (·.reads)

namespace Function

variable {good own : Place → Prop} {f : Function} {i : Instr} {p : Place}

theorem places_of_params (hp : p ∈ f.params) : p ∈ f.places := by
  simp [places, hp]

theorem places_of_instr (hi : i ∈ f.instructions) (hp : p ∈ i.places) : p ∈ f.places := by
  simp only [places, List.mem_append, List.mem_flatMap]
  exact .inl (.inr ⟨i, hi, hp⟩)

theorem places_of_terminal {t : Terminal} (ht : t ∈ f.terminals) (hp : p ∈ t.reads) :
    p ∈ f.places := by
  simp only [places, List.mem_append, List.mem_flatMap]
  exact .inr ⟨t, ht, hp⟩

theorem Uses.places (h : f.Uses good own) (hp : p ∈ f.places) : good p := by
  simp only [Function.places, instructions, terminals, List.flatMap_append, List.mem_append,
    List.mem_flatMap, List.mem_filterMap, Table.mem_values] at hp
  rcases hp with (hp | ⟨i, hi, hp⟩ | ⟨i, ⟨b, ⟨id, hb⟩, hi⟩, hp⟩) | ⟨t, ⟨b, ⟨id, hb⟩, ht⟩, hp⟩
  · exact h.params p hp
  · exact h.header i hi p hp
  · exact (h.blocks id b hb).instructions i hi p hp
  · exact (h.blocks id b hb).terminal t ht p hp

end Function

/-! ## Environments -/

/-- The cells that an environment has handed out, in order. -/
structure Environment.Logs (env : Environment) (cells : List Cell) : Prop where
  length : cells.length = env.nextCell.index
  declared : ∀ c ∈ cells, c.declaration.index < env.declarations.size
  /-- Only versions of variables are joined. -/
  numbered : ∀ c ∈ cells, env.isTemporary c.declaration = true → c.version.isNumbered = true
  recorded : ∀ d, ∀ r ∈ env.versionsOf d, r.place.IsOf cells ∧ r.place.declaration = d

/-- An environment that has come further than another one. -/
structure Advance (env : Environment) (cells : List Cell) (env' : Environment) (cells' : List Cell) :
    Prop where
  logs : env'.Logs cells'
  cells : cells <+: cells'
  size : env.declarations.size ≤ env'.declarations.size
  owner : ∀ d : DeclId, d.index < env.declarations.size → env'.ownerOf d = env.ownerOf d
  kind : ∀ d : DeclId, d.index < env.declarations.size → env'.kindOf d = env.kindOf d
  captured : ∀ d, env.captured.contains d = true → env'.captured.contains d = true
  recorded : ∀ d, ∀ r ∈ env.versionsOf d, ∃ r' ∈ env'.versionsOf d, r'.place = r.place
  nextBlock : env.nextBlock.index ≤ env'.nextBlock.index
  /-- Functions are bound to declarations that there are. -/
  bound : ∀ d, env'.functions.contains d = true →
    env.functions.contains d = true ∨ d.index < env'.declarations.size

namespace Environment

variable {env env' : Environment} {cells cells' : List Cell}

theorem ownerOf_declare (env : Environment) (name : Option String) (kind : DeclKind)
    (owner : FuncId) :
    (env.declare name kind owner).2.ownerOf ⟨env.declarations.size⟩ = some owner := by
  rw [ownerOf, declaration?_declare, if_pos rfl]
  rfl

theorem kindOf_declare (env : Environment) (name : Option String) (kind : DeclKind) (owner : FuncId)
    {d : DeclId} (hd : d.index < env.declarations.size) :
    (env.declare name kind owner).2.kindOf d = env.kindOf d := by
  rw [kindOf, declaration?_declare, if_neg (Nat.ne_of_lt hd), kindOf]

/-- What does not exist counts as a temporary. -/
theorem index_lt_of_named {d : DeclId} (h : env.isTemporary d = false) :
    d.index < env.declarations.size := by
  by_contra hnot
  have hnone : env.declaration? d = none := by simp [declaration?, Nat.le_of_not_lt hnot]
  rw [isTemporary, kindOf, hnone] at h
  cases h

theorem Logs.has (h : env.Logs cells) {p : Place} (hp : p.IsOf cells) :
    p.cell.id.index < env.nextCell.index ∧ p.declaration.index < env.declarations.size := by
  obtain ⟨hlt, heq⟩ := List.getElem?_eq_some_iff.1 hp
  exact ⟨h.length ▸ hlt, h.declared _ (heq ▸ List.getElem_mem hlt)⟩

theorem Logs.isNumbered (h : env.Logs cells) {p : Place} (hp : p.IsOf cells)
    (htemporary : env.isTemporary p.declaration = true) : p.cell.version.isNumbered = true := by
  obtain ⟨hlt, heq⟩ := List.getElem?_eq_some_iff.1 hp
  exact h.numbered _ (heq ▸ List.getElem_mem hlt) htemporary

end Environment

/-- A phi joins versions of one variable. -/
structure Phi.Fits (phi : Phi) (env : Environment) (cells : List Cell) : Prop where
  place : phi.place.IsOf cells
  joined : phi.place.cell.version.isNumbered = false
  named : env.isTemporary phi.declaration = false
  operands : ∀ b p, phi.operands.get? b = some p → p.IsOf cells ∧ p.declaration = phi.declaration

/-- All places of a function are places of the given cells, and it returns values of its own. -/
structure Function.Fits (f : Function) (env : Environment) (cells : List Cell) (owner : FuncId) :
    Prop where
  id : f.id = owner
  uses : f.Uses (·.IsOf cells) fun p => env.ownerOf p.declaration = some owner
  phis : ∀ phi ∈ f.phis, phi.Fits env cells

theorem Function.fits_start (env : Environment) (cells : List Cell) (id : FuncId)
    (name : Option String) (parent : Option FuncId) (kind : FunctionKind) (origin : Option Nat)
    (entry : BlockId) : (Function.start id name parent kind origin entry).Fits env cells id where
  id := rfl
  uses :=
    { params := by rintro p ⟨⟩
      header := by rintro i ⟨⟩
      blocks := by rintro id b ⟨⟩ }
  phis := by rintro phi ⟨⟩

/-- What is known about the flow has nothing to do with places. -/
theorem Function.Fits.recomputeFlow {f : Function} {env : Environment} {cells : List Cell}
    {owner : FuncId} (h : f.Fits env cells owner) : f.recomputeFlow.Fits env cells owner :=
  ⟨h.id, ⟨h.uses.params, h.uses.header, h.uses.blocks⟩, h.phis⟩

namespace Advance

variable {env env' env'' : Environment} {cells cells' cells'' : List Cell} {p : Place}

theorem refl (h : env.Logs cells) : Advance env cells env cells :=
  ⟨h, List.prefix_refl _, Nat.le_refl _, fun _ _ => rfl, fun _ _ => rfl, fun _ hd => hd,
    fun _ r hr => ⟨r, hr, rfl⟩, Nat.le_refl _, fun _ hd => .inl hd⟩

theorem trans (h : Advance env cells env' cells') (h' : Advance env' cells' env'' cells'') :
    Advance env cells env'' cells'' :=
  ⟨h'.logs, h.cells.trans h'.cells, h.size.trans h'.size,
    fun d hd => (h'.owner d (hd.trans_le h.size)).trans (h.owner d hd),
    fun d hd => (h'.kind d (hd.trans_le h.size)).trans (h.kind d hd),
    fun d hd => h'.captured d (h.captured d hd), fun d r hr => by
      obtain ⟨r', hr', hplace⟩ := h.recorded d r hr
      obtain ⟨r'', hr'', hplace'⟩ := h'.recorded d r' hr'
      exact ⟨r'', hr'', hplace'.trans hplace⟩,
    h.nextBlock.trans h'.nextBlock, fun d hd => (h'.bound d hd).elim
      (fun hd => (h.bound d hd).imp_right fun hlt => hlt.trans_le h'.size) .inr⟩

theorem temporary (h : Advance env cells env' cells') (d : DeclId)
    (hd : d.index < env.declarations.size) : env'.isTemporary d = env.isTemporary d := by
  rw [Environment.isTemporary, h.kind d hd, Environment.isTemporary]

theorem nextCell_le (h : Advance env cells env' cells') (hlogs : env.Logs cells) :
    env.nextCell.index ≤ env'.nextCell.index := by
  rw [← hlogs.length, ← h.logs.length]
  exact h.cells.length_le

theorem ownerOf (h : Advance env cells env' cells') {d : DeclId} {id : FuncId}
    (hd : env.ownerOf d = some id) : env'.ownerOf d = some id :=
  (h.owner d (Environment.index_lt_of_ownerOf hd)).trans hd

theorem named (h : Advance env cells env' cells') {d : DeclId} (hd : env.isTemporary d = false) :
    env'.isTemporary d = false :=
  (h.temporary d (Environment.index_lt_of_named hd)).trans hd

theorem phi (h : Advance env cells env' cells') {phi : Phi} (hphi : phi.Fits env cells) :
    phi.Fits env' cells' :=
  ⟨hphi.place.mono h.cells, hphi.joined, h.named hphi.named,
    fun b p hp => (hphi.operands b p hp).imp_left (·.mono h.cells)⟩

/-- A function that fits in still does later. -/
theorem fits (h : Advance env cells env' cells') {f : Function} {id : FuncId}
    (hf : f.Fits env cells id) : f.Fits env' cells' id :=
  ⟨hf.id, hf.uses.mono (fun _ hp => hp.mono h.cells) fun _ hp => h.ownerOf hp,
    fun phi hphi => h.phi (hf.phis phi hphi)⟩

/-- Counters and bound functions have nothing to do with cells, and captures only become more. -/
theorem of_same (h : env.Logs cells) (hcell : env'.nextCell = env.nextCell)
    (hdeclarations : env'.declarations = env.declarations) (hversions : env'.versions = env.versions)
    (hcaptured : ∀ d, env.captured.contains d = true → env'.captured.contains d = true)
    (hblock : env.nextBlock.index ≤ env'.nextBlock.index)
    (hbound : ∀ d, env'.functions.contains d = true →
      env.functions.contains d = true ∨ d.index < env'.declarations.size) :
    Advance env cells env' cells := by
  have hkind (d : DeclId) : env'.kindOf d = env.kindOf d := by
    rw [Environment.kindOf, Environment.declaration?, hdeclarations]
    rfl
  have hrecorded (d : DeclId) : env'.versionsOf d = env.versionsOf d := by
    rw [Environment.versionsOf, hversions]
    rfl
  refine ⟨⟨hcell ▸ h.length, hdeclarations ▸ h.declared, fun c hc => ?_, fun d r hr => h.recorded d r ?_⟩,
    List.prefix_refl _, hdeclarations ▸ Nat.le_refl _, fun d _ => ?_, fun d _ => hkind d, hcaptured,
    fun d r hr => ⟨r, hrecorded d ▸ hr, rfl⟩, hblock, hbound⟩
  · rw [Environment.isTemporary, hkind]
    exact h.numbered c hc
  · rwa [hrecorded] at hr
  · rw [Environment.ownerOf, Environment.declaration?, hdeclarations]
    rfl

theorem declare (h : env.Logs cells) (name : Option String) (kind : DeclKind) (owner : FuncId) :
    Advance env cells (env.declare name kind owner).2 cells := by
  have hgrows := Environment.grows_declare env name kind owner
  refine ⟨⟨h.length, fun c hc => (h.declared c hc).trans_le hgrows.size, fun c hc => ?_, h.recorded⟩,
    List.prefix_refl _, hgrows.size, fun d hd => (hgrows.known d hd).1,
    fun d hd => env.kindOf_declare name kind owner hd, hgrows.captured, fun _ r hr => ⟨r, hr, rfl⟩,
    Nat.le_refl _, fun _ hd => .inl hd⟩
  rw [(hgrows.known _ (h.declared c hc)).2]
  exact h.numbered c hc

/-- A cell is handed out. -/
theorem newCell (h : env.Logs cells) (env' : Environment) {c : Cell} (hid : c.id = env.nextCell)
    (hd : c.declaration.index < env.declarations.size)
    (hnumbered : env.isTemporary c.declaration = true → c.version.isNumbered = true)
    (hcell : env'.nextCell = env.nextCell.next) (hsize : env'.declarations.size = env.declarations.size)
    (howner : ∀ d, env'.ownerOf d = env.ownerOf d)
    (hkind : ∀ d, env'.kindOf d = env.kindOf d) (hblock : env'.nextBlock = env.nextBlock)
    (hversions : env'.versions = env.versions) (hcaptured : env'.captured = env.captured)
    (hfunctions : env'.functions = env.functions) :
    Advance env cells env' (cells ++ [c]) ∧
      ∀ p : Place, p.cell = c → p.IsOf (cells ++ [c]) := by
  have hcells : cells <+: cells ++ [c] := List.prefix_append _ _
  refine ⟨⟨⟨?_, fun c' hc' => ?_, fun c' hc' => ?_, fun d r hr => ?_⟩, hcells, hsize.ge,
    fun d _ => howner d, fun d _ => hkind d, fun d hd => hcaptured ▸ hd, fun d r hr => ⟨r, ?_, rfl⟩,
    hblock ▸ Nat.le_refl _, fun d hd => .inl (hfunctions ▸ hd)⟩, fun p hp => ?_⟩
  · rw [List.length_append, h.length, hcell]
    rfl
  · rw [hsize]
    obtain hc' | rfl := (List.mem_append.1 hc').imp_right List.mem_singleton.1
    · exact h.declared c' hc'
    · exact hd
  · rw [Environment.isTemporary, hkind]
    obtain hc' | rfl := (List.mem_append.1 hc').imp_right List.mem_singleton.1
    · exact h.numbered c' hc'
    · exact hnumbered
  · rw [Environment.versionsOf, hversions] at hr
    exact (h.recorded d r hr).imp_left (·.mono hcells)
  · rwa [Environment.versionsOf, hversions]
  · have hindex : c.id.index = cells.length := by rw [hid, h.length]
    rw [Place.IsOf, hp, hindex, List.getElem?_concat_length]

theorem newPlace (h : env.Logs cells) {d : DeclId} (hd : d.index < env.declarations.size) :
    ∃ cells', Advance env cells (env.newPlace d).2 cells' ∧ (env.newPlace d).1.IsOf cells' := by
  obtain ⟨hadvance, hof⟩ := newCell h (env.newPlace d).2 (c := (env.newPlace d).1.cell) rfl hd
    (fun _ => rfl) rfl (Environment.size_newPlace env d) (Environment.ownerOf_newPlace env d)
    (Environment.kindOf_newPlace env d) rfl rfl rfl rfl
  exact ⟨_, hadvance, hof _ rfl⟩

theorem newPhi (h : env.Logs cells) {d : DeclId} (hd : d.index < env.declarations.size)
    (hnamed : env.isTemporary d = false) :
    ∃ cells', Advance env cells (env.newPhi d).2.2 cells' ∧ (env.newPhi d).2.1.IsOf cells' := by
  have hnumbered (htemporary : env.isTemporary d = true) :
      (env.newPhi d).2.1.cell.version.isNumbered = true := by
    rw [hnamed] at htemporary
    cases htemporary
  obtain ⟨hadvance, hof⟩ := newCell h (env.newPhi d).2.2 (c := (env.newPhi d).2.1.cell) rfl hd
    hnumbered rfl rfl (fun _ => rfl) (fun _ => rfl) rfl rfl rfl rfl
  exact ⟨_, hadvance, hof _ rfl⟩

/-- A new temporary belongs to its function. -/
theorem newTemporary (h : env.Logs cells) (owner : FuncId) :
    ∃ cells', Advance env cells (env.newTemporary owner).2 cells' ∧
      (env.newTemporary owner).1.IsOf cells' ∧
      (env.newTemporary owner).2.ownerOf (env.newTemporary owner).1.declaration = some owner := by
  have hdeclare := declare h none .temporary owner
  have hnew : env.declarations.size < (env.declare none .temporary owner).2.declarations.size := by
    simp [Environment.declare]
  obtain ⟨cells', hadvance, hof⟩ := newPlace hdeclare.logs (d := ⟨env.declarations.size⟩) hnew
  refine ⟨cells', hdeclare.trans hadvance, hof, ?_⟩
  change ((env.declare none .temporary owner).2.newPlace _).2.ownerOf ⟨env.declarations.size⟩ = _
  rw [Environment.ownerOf_newPlace, Environment.ownerOf_declare]

theorem newInstrAt (h : env.Logs cells) (place : Place) (origin : Option Nat) (op : Op) :
    Advance env cells (env.newInstrAt place origin op).2 cells :=
  of_same h rfl rfl rfl (fun _ hd => hd) (Nat.le_refl _) fun _ hd => .inl hd

theorem newInstr (h : env.Logs cells) (owner : FuncId) (op : Op) :
    ∃ cells', Advance env cells (env.newInstr owner op).2 cells' ∧
      (env.newInstr owner op).1.place.IsOf cells' ∧
      (env.newInstr owner op).2.ownerOf (env.newInstr owner op).1.place.declaration = some owner := by
  obtain ⟨cells', hadvance, hof, howner⟩ := newTemporary h owner
  exact ⟨cells', hadvance.trans (newInstrAt hadvance.logs _ none op), hof, howner⟩

/-- A new instruction on known places. -/
theorem newInstr_places (h : env.Logs cells) (owner : FuncId) (op : Op)
    (hreads : ∀ p ∈ op.reads, p.IsOf cells) (htarget : ∀ p ∈ op.target?, p.IsOf cells) :
    ∃ cells', Advance env cells (env.newInstr owner op).2 cells' ∧
      ∀ p ∈ (env.newInstr owner op).1.places, p.IsOf cells' := by
  obtain ⟨cells', hadvance, hof, -⟩ := newInstr h owner op
  refine ⟨cells', hadvance, fun p hp => ?_⟩
  rcases List.mem_append.1 hp with hp | hp
  · exact (hreads p hp).mono hadvance.cells
  · rcases List.mem_cons.1 hp with rfl | hp
    · exact hof
    · exact (htarget p (Option.mem_toList.1 hp)).mono hadvance.cells

/-- A version is recorded. -/
theorem record (h : env.Logs cells) (hp : p.IsOf cells) (block : BlockId) :
    Advance env cells (env.record p.declaration block p) cells := by
  refine ⟨⟨h.length, h.declared, h.numbered, fun d r hr => ?_⟩, List.prefix_refl _, Nat.le_refl _,
    fun _ _ => rfl, fun _ _ => rfl, fun _ hd => hd,
    fun _ r hr => ⟨r, Environment.mem_versionsOf_record.2 (.inl hr), rfl⟩, Nat.le_refl _,
    fun _ hd => .inl hd⟩
  rcases Environment.mem_versionsOf_record.1 hr with hr | ⟨rfl, rfl⟩
  · exact h.recorded d r hr
  · exact ⟨hp, rfl⟩

end Advance

/-! ## Modules -/

/-- All functions of a module fit in. -/
def Module.AllUse (m : Module) (env : Environment) (cells : List Cell) : Prop :=
  ∀ id f, m.functions.get? id = some f → f.Fits env cells id

theorem Module.AllUse.setFunction {m : Module} {env : Environment} {cells : List Cell}
    (h : m.AllUse env cells) {f : Function} {id : FuncId} (hf : f.Fits env cells id) :
    (m.setFunction id f).AllUse env cells := by
  intro id' f' hf'
  rw [Module.setFunction, Table.get?_insert] at hf'
  split at hf'
  · next heq =>
    subst heq
    exact Option.some.inj hf' ▸ hf
  · exact h id' f' hf'

theorem Module.AllUse.advance {m : Module} {env env' : Environment} {cells cells' : List Cell}
    (h : m.AllUse env cells) (hadvance : Advance env cells env' cells') : m.AllUse env' cells' :=
  fun id f hf => hadvance.fits (h id f hf)

/-- All places of a module. -/
def Module.places (m : Module) : List Place := m.functions.values.flatMap (·.places)

theorem Module.places_of_instr {m : Module} {i : Instr} {p : Place} (hi : i ∈ m.instructions)
    (hp : p ∈ i.places) : p ∈ m.places := by
  obtain ⟨f, hf, hi⟩ := List.mem_flatMap.1 hi
  exact List.mem_flatMap.2 ⟨f, hf, Function.places_of_instr hi hp⟩

theorem Module.AllUse.isOf_places {m : Module} {env : Environment} {cells : List Cell}
    (h : m.AllUse env cells) {p : Place} (hp : p ∈ m.places) : p.IsOf cells := by
  obtain ⟨f, hf, hp⟩ := List.mem_flatMap.1 hp
  obtain ⟨id, hf⟩ := Table.mem_values.1 hf
  exact (h id f hf).uses.places hp

theorem Module.AllUse.isOf {m : Module} {env : Environment} {cells : List Cell}
    (h : m.AllUse env cells) {i : Instr} (hi : i ∈ m.instructions) {p : Place} (hp : p ∈ i.places) :
    p.IsOf cells :=
  h.isOf_places (m.places_of_instr hi hp)

/-- A module and its environment belong together. -/
def Module.Coherent (m : Module) (env : Environment) : Prop :=
  ∃ cells, env.Logs cells ∧ m.AllUse env cells

/-- Numbers tell the cells of a module apart, so that a table by number is a table by cell. -/
def Module.Discerns (m : Module) : Prop :=
  ∀ p ∈ m.places, ∀ q ∈ m.places, p.cell.id = q.cell.id → p.cell = q.cell

instance (m : Module) : Decidable m.Discerns :=
  inferInstanceAs (Decidable (∀ p ∈ m.places, ∀ q ∈ m.places, p.cell.id = q.cell.id → p.cell = q.cell))

theorem Module.Coherent.isNumbered {m : Module} {env : Environment} (h : m.Coherent env) {p : Place}
    (hp : p ∈ m.places) (htemporary : env.isTemporary p.declaration = true) :
    p.cell.version.isNumbered = true := by
  obtain ⟨cells, hlogs, hall⟩ := h
  exact hlogs.isNumbered (hall.isOf_places hp) htemporary

theorem Module.Coherent.discerns {m : Module} {env : Environment} (h : m.Coherent env) : m.Discerns := by
  obtain ⟨cells, -, hall⟩ := h
  exact fun p hp q hq => (hall.isOf_places hp).single (hall.isOf_places hq)

end Whittle.Ir
