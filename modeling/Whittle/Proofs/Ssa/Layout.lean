import Mathlib.Tactic.Common
import Whittle.Proofs.Ssa.Memory
import Whittle.Ssa.Copies

/-!
# Where phis go

Removing phis leaves the code of a block as it was, but for three things: reads are renamed, stores of
first versions stand behind the writes of these versions, and behind everything else come, phi by phi,
a store of a first version that the block does not write and the copy of an operand.  The copies keep
naming the operands they were made for, whatever is redirected later.
-/

namespace Whittle.Ir

open Whittle.Ir.Flow

/-! ## Renaming reads -/

@[simp] theorem Op.target?_mapReads (f : Place → Place) (op : Op) :
    (op.mapReads f).target? = op.target? := by
  cases op <;> rfl

@[simp] theorem Instr.defined_mapReads (f : Place → Place) (i : Instr) :
    (i.mapReads f).defined = i.defined := by
  simp [defined, mapReads]

theorem Instr.written?_congr {i j : Instr} (h : i.defined = j.defined) (d : DeclId) :
    i.written? d = j.written? d := by
  rw [written?, written?, h]

@[simp] theorem Terminal.successors_mapReads (f : Place → Place) (t : Terminal) :
    (t.mapReads f).successors = t.successors := by
  cases t <;> rfl

/-! ## Inserting behind an instruction -/

section

variable {p : Instr → Bool} {new : Instr} {is js : List Instr}

theorem insertBehind_of_none (h : ∀ i ∈ is, p i = false) : insertBehind p new is = is ++ [new] := by
  induction is with
  | nil => rfl
  | cons i is ih =>
    rw [insertBehind, h i List.mem_cons_self, ih fun j hj => h j (List.mem_cons_of_mem _ hj)]
    rfl

theorem insertBehind_append_of_none (h : ∀ i ∈ is, p i = false) :
    insertBehind p new (is ++ js) = is ++ insertBehind p new js := by
  induction is with
  | nil => rfl
  | cons i is ih =>
    rw [List.cons_append, insertBehind, h i List.mem_cons_self,
      ih fun j hj => h j (List.mem_cons_of_mem _ hj)]
    rfl

theorem insertBehind_append_of_mem (new : Instr) (js : List Instr) {i : Instr} (hi : i ∈ is)
    (h : p i = true) :
    ∃ front back, is = front ++ back ∧ (∃ j ∈ front, p j = true) ∧
      insertBehind p new (is ++ js) = front ++ new :: back ++ js := by
  induction is with
  | nil => cases hi
  | cons k is ih =>
    by_cases hk : p k = true
    · refine ⟨[k], is, rfl, ⟨k, List.mem_cons_self, hk⟩, ?_⟩
      rw [List.cons_append, insertBehind, if_pos hk]
      rfl
    · rcases List.mem_cons.1 hi with rfl | hi
      · exact absurd h hk
      · obtain ⟨front, back, rfl, ⟨j, hj, hpj⟩, hinsert⟩ := ih hi
        refine ⟨k :: front, back, rfl, ⟨j, List.mem_cons_of_mem _ hj, hpj⟩, ?_⟩
        rw [List.cons_append, insertBehind, if_neg hk, hinsert]
        rfl

end

namespace Function

/-! ## What stands in a block -/

/-- A store into a phi. -/
structure IsInitial (env : Environment) (phi : Phi) (i : Instr) : Prop where
  /-- It stores into the phi. -/
  op : ∃ value, i.op = .storeLocal phi.place value .reassign
  /-- Its own place is new. -/
  isFree : env.IsFree i.place

/-- The copy of an operand into a phi. -/
structure IsCopy (env : Environment) (phi : Phi) (operand : Place) (load copy statement : Instr) :
    Prop where
  /-- The operand is loaded. -/
  load_op : load.op = .loadLocal operand
  /-- What was loaded is copied. -/
  copy_op : copy.op = .copy phi.place load.place
  /-- Nobody reads the value of the copy. -/
  statement_op : statement.op = .expressionStatement copy.place
  /-- The places in between are new. -/
  load_isFree : env.IsFree load.place
  copy_isFree : env.IsFree copy.place
  statement_isFree : env.IsFree statement.place

section

variable (f : Function) (env : Environment)

/-- What stands behind the code of a block once the given phis are removed. -/
inductive Tail (b : BlockId) : List Phi → List Instr → Prop
  | nil : Tail b [] []
  | initial {done is phi i} : Tail b done is → phi ∈ (f.buildSsa env).1.phis → phi ∉ done →
      RecordedIn (env.versionsOf phi.declaration) b → IsInitial (f.buildSsa env).2 phi i →
      Tail b done (is ++ [i])
  | copy {done is phi operand load copy statement} : Tail b done is →
      phi ∈ (f.buildSsa env).1.phis → phi.operands.get? b = some operand →
      IsCopy (f.buildSsa env).2 phi operand load copy statement →
      Tail b (done ++ [phi]) (is ++ [load, copy, statement])
  | skip {done is phi} : Tail b done is → phi.operands.get? b = none → Tail b (done ++ [phi]) is

/-- The code of a block with reads renamed and stores into phis behind writes. -/
structure Body (original body : List Instr) : Prop where
  /-- The writes of variables are what they were. -/
  written : ∀ d : DeclId, d.index < (f.buildSsa env).2.declarations.size →
    body.filterMap (·.written? d) = original.filterMap (·.written? d)
  /-- Everything comes from the code or is a store into a phi behind a write of its variable. -/
  origin : ∀ pre i post, body = pre ++ i :: post → (∃ j ∈ original, i.defined = j.defined) ∨
    ∃ phi ∈ (f.buildSsa env).1.phis, IsInitial (f.buildSsa env).2 phi i ∧
      ∃ j ∈ pre, ∃ r ∈ env.versionsOf phi.declaration, r.place ∈ j.defined

/-- The code of a block once the given phis are removed. -/
def Laid (b : BlockId) (done : List Phi) (original final : List Instr) : Prop :=
  ∃ body tail, final = body ++ tail ∧ f.Body env original body ∧ f.Tail env b done tail

/-- A function once the given phis are removed. -/
structure LaidOut (done : List Phi) (g : Function) : Prop where
  entry : g.entry = f.entry
  header : g.header = f.header
  flow : g.flow = f.flow
  /-- No block is lost. -/
  contains : ∀ b, g.blocks.contains b = f.blocks.contains b
  /-- The code and the edges of each block. -/
  block : ∀ b original final, f.blocks.get? b = some original → g.blocks.get? b = some final →
    final.successors = original.successors ∧
      f.Laid env b done original.instructions final.instructions

end

variable {f : Function} {env : Environment} {b : BlockId} {done : List Phi}

theorem IsInitial.defined {env : Environment} {phi : Phi} {i : Instr} (h : IsInitial env phi i) :
    i.defined = [i.place, phi.place] := by
  obtain ⟨value, hop⟩ := h.op
  simp [Instr.defined, hop, Op.target?]

theorem IsInitial.mapReads {env : Environment} {phi : Phi} {i : Instr} (h : IsInitial env phi i)
    (g : Place → Place) : IsInitial env phi (i.mapReads g) := by
  obtain ⟨value, hop⟩ := h.op
  exact ⟨⟨g value, by simp [Instr.mapReads, hop, Op.mapReads]⟩, h.isFree⟩

theorem IsInitial.written? {phi : Phi} {i : Instr} (h : IsInitial (f.buildSsa env).2 phi i)
    (hphi : phi ∈ (f.buildSsa env).1.phis) {d : DeclId}
    (hd : d.index < (f.buildSsa env).2.declarations.size) : i.written? d = none := by
  obtain ⟨id, hversion⟩ := version_of_phi hphi
  rw [Instr.written?_eq_none, h.defined]
  intro p hp hdecl
  simp only [List.mem_cons, List.not_mem_nil, or_false] at hp
  rcases hp with rfl | rfl
  · exact absurd hdecl (h.isFree.declaration d hd)
  · rw [hversion]
    rfl

/-- The tail of a block defines new places and the cells of phis. -/
theorem Tail.defined_cases {is : List Instr} (h : f.Tail env b done is) {i : Instr} (hi : i ∈ is)
    {p : Place} (hp : p ∈ i.defined) : (f.buildSsa env).2.IsFree p ∨
      ∃ phi ∈ (f.buildSsa env).1.phis, p = phi.place ∧
        (RecordedIn (env.versionsOf phi.declaration) b ∨ phi.operands.get? b ≠ none) := by
  induction h with
  | nil => cases hi
  | initial _ hphi _ hrec hinit ih =>
    rcases List.mem_append.1 hi with hi | hi
    · exact ih hi
    · rw [List.mem_singleton.1 hi, hinit.defined] at hp
      simp only [List.mem_cons, List.not_mem_nil, or_false] at hp
      rcases hp with rfl | rfl
      · exact .inl hinit.isFree
      · exact .inr ⟨_, hphi, rfl, .inl hrec⟩
  | copy _ hphi hoperand hcopy ih =>
    rcases List.mem_append.1 hi with hi | hi
    · exact ih hi
    · simp only [List.mem_cons, List.not_mem_nil, or_false] at hi
      rcases hi with rfl | rfl | rfl
      · simp only [Instr.defined, hcopy.load_op, Op.target?, Option.toList_none, List.mem_cons,
          List.not_mem_nil, or_false] at hp
        exact .inl (hp ▸ hcopy.load_isFree)
      · simp only [Instr.defined, hcopy.copy_op, Op.target?, Option.toList_some, List.mem_cons,
          List.not_mem_nil, or_false] at hp
        rcases hp with rfl | rfl
        · exact .inl hcopy.copy_isFree
        · exact .inr ⟨_, hphi, rfl, .inr (by simp [hoperand])⟩
      · simp only [Instr.defined, hcopy.statement_op, Op.target?, Option.toList_none, List.mem_cons,
          List.not_mem_nil, or_false] at hp
        exact .inl (hp ▸ hcopy.statement_isFree)
  | skip _ _ ih => exact ih hi

/-! ## Storing first versions -/

/-- A store into a phi may be put behind a write of its variable. -/
theorem Body.insert {original front back : List Instr} (h : f.Body env original (front ++ back))
    {phi : Phi} (hphi : phi ∈ (f.buildSsa env).1.phis) {store : Instr}
    (hstore : IsInitial (f.buildSsa env).2 phi store) {j : Instr} (hj : j ∈ front)
    {r : VersionRecord} (hr : r ∈ env.versionsOf phi.declaration) (hrj : r.place ∈ j.defined) :
    f.Body env original (front ++ store :: back) := by
  refine ⟨?_, ?_⟩
  · intro d hd
    rw [← h.written d hd, List.filterMap_append, List.filterMap_append,
      List.filterMap_cons_none (hstore.written? hphi hd)]
  · intro pre i post hsplit
    rcases List.append_eq_append_iff.1 hsplit with ⟨mid, rfl, hmid⟩ | ⟨mid, rfl, hmid⟩
    · cases mid with
      | nil =>
        cases hmid
        exact .inr ⟨phi, hphi, hstore, j, by simpa using hj, r, hr, hrj⟩
      | cons x mid =>
        cases hmid
        rcases h.origin (front ++ mid) i post (by simp) with horigin |
          ⟨phi', hphi', hinit, j', hj', r', hr', hrj'⟩
        · exact .inl horigin
        · refine .inr ⟨phi', hphi', hinit, j', ?_, r', hr', hrj'⟩
          rcases List.mem_append.1 hj' with hj' | hj'
          · exact List.mem_append_left _ hj'
          · exact List.mem_append_right _ (List.mem_cons_of_mem _ hj')
    · cases mid with
      | nil =>
        cases hmid
        exact .inr ⟨phi, hphi, hstore, j, by simpa using hj, r, hr, hrj⟩
      | cons x mid =>
        cases hmid
        exact h.origin pre i (mid ++ back) (by simp)

theorem Laid.insert {original final : List Instr} (hkept : env.WellKept)
    (h : f.Laid env b done original final) {phi : Phi} (hphi : phi ∈ (f.buildSsa env).1.phis)
    (hdone : phi ∉ done) {store : Instr} (hstore : IsInitial (f.buildSsa env).2 phi store)
    {r : VersionRecord} (hr : r ∈ env.versionsOf phi.declaration) (hb : r.block = b) :
    f.Laid env b done original (insertBehind (·.defined.contains r.place) store final) := by
  obtain ⟨body, tail, rfl, hbody, htail⟩ := h
  by_cases hin : ∃ i ∈ body, i.defined.contains r.place = true
  · obtain ⟨i, hi, hri⟩ := hin
    obtain ⟨front, back, rfl, ⟨j, hj, hrj⟩, hinsert⟩ :=
      insertBehind_append_of_mem (p := (·.defined.contains r.place)) store tail hi hri
    rw [hinsert]
    exact ⟨_, _, rfl, hbody.insert hphi hstore hj hr (by simpa using hrj), htail⟩
  · have hnone : ∀ i ∈ body, i.defined.contains r.place = false := by simpa using hin
    have hnone' : ∀ i ∈ tail, i.defined.contains r.place = false := by
      intro i hi
      rw [List.contains_eq_mem, decide_eq_false_iff_not]
      intro hri
      have hmem : r ∈ (f.buildSsa env).2.versionsOf phi.declaration := by
        rw [versionsOf_buildSsa]
        exact List.mem_append_left _ hr
      rcases htail.defined_cases hi hri with hfree | ⟨phi', hphi', heq, -⟩
      · exact hfree.cell _ r hmem rfl
      · exact cell_ne_of_phi hkept hphi' hr (by rw [heq])
    rw [insertBehind_append_of_none hnone, insertBehind_of_none hnone']
    exact ⟨_, _, rfl, hbody, htail.initial hphi hdone ⟨r, hr, hb⟩ hstore⟩

/-- The first version recorded in the function was there before the joins. -/
theorem mem_versionsOf_of_firstVersion? {g : Function} (hcontains : ∀ b, g.blocks.contains b =
      f.blocks.contains b) {env' : Environment}
    (hversions : env'.versions = (f.buildSsa env).2.versions) {phi : Phi}
    (hphi : phi ∈ (f.buildSsa env).1.phis) {first : VersionRecord}
    (h : g.firstVersion? env' phi.declaration = some first) :
    first ∈ env.versionsOf phi.declaration := by
  obtain ⟨sites, hsites, -⟩ := map_block_recordsOf_buildSsa hphi
  obtain ⟨b, hb⟩ : ∃ b, sites.contains b = true := by
    obtain ⟨b, -, -, hb, -⟩ := KeySet.two_le_size_iff.1 (two_le_size_of_mem_meetings hsites)
    exact ⟨b, hb⟩
  obtain ⟨hblock, r, hr, rfl⟩ := (mem_meetings hsites b).1 hb
  have heq : env'.versionsOf phi.declaration =
      env.versionsOf phi.declaration ++ recordsOf (f.buildSsa env).1.phis phi.declaration := by
    rw [← versionsOf_buildSsa, Environment.versionsOf, Environment.versionsOf, hversions]
  rw [firstVersion?, heq, List.find?_append] at h
  have hsome : ((env.versionsOf phi.declaration).find? fun r => g.blocks.contains r.block).isSome :=
    List.find?_isSome.2 ⟨r, hr, by rw [hcontains]; exact hblock⟩
  obtain ⟨r', hr'⟩ := Option.isSome_iff_exists.1 hsome
  rw [hr', Option.some_or] at h
  cases h
  exact List.mem_of_find?_eq_some hr'

/-- What is kept of the environment while phis are removed. -/
structure Keeps (f : Function) (env env' : Environment) : Prop where
  versions : env'.versions = (f.buildSsa env).2.versions
  size : (f.buildSsa env).2.declarations.size ≤ env'.declarations.size
  wellKept : env'.WellKept

theorem Keeps.newInstr {env' : Environment} (h : f.Keeps env env') (owner : FuncId) (op : Op) :
    f.Keeps env (env'.newInstr owner op).2 ∧
      (f.buildSsa env).2.IsFree (env'.newInstr owner op).1.place :=
  ⟨⟨h.versions, h.size.trans (env'.size_le_newInstr owner op), h.wellKept.newInstr owner op⟩,
    (h.wellKept.isFree_newInstr owner op).of_versions h.versions.symm h.size⟩

theorem LaidOut.storeInitial (hkept : env.WellKept) {g : Function} (hg : f.LaidOut env done g)
    {env' : Environment} (henv : f.Keeps env env') {phi : Phi}
    (hphi : phi ∈ (f.buildSsa env).1.phis) (hdone : phi ∉ done) :
    f.LaidOut env done (g.storeInitial env' phi).1 ∧ f.Keeps env (g.storeInitial env' phi).2 := by
  cases hfirst : g.firstVersion? env' phi.declaration with
  | none =>
    simp only [Function.storeInitial, hfirst]
    exact ⟨hg, henv⟩
  | some first =>
    obtain ⟨henv', hfree⟩ := henv.newInstr g.id (.storeLocal phi.place first.place .reassign)
    simp only [Function.storeInitial, hfirst]
    refine ⟨⟨hg.entry, hg.header, hg.flow, fun b => ?_, fun b original final horiginal hfinal => ?_⟩,
      henv'⟩
    · rw [← hg.contains b]
      exact Table.contains_modify ..
    · rw [Table.get?_modify] at hfinal
      split at hfinal
      · rename_i hb
        obtain ⟨before, hbefore, rfl⟩ := Option.map_eq_some_iff.1 hfinal
        obtain ⟨hsuccessors, hlaid⟩ := hg.block b original before horiginal hbefore
        have hmem := mem_versionsOf_of_firstVersion? hg.contains henv.versions hphi hfirst
        exact ⟨hsuccessors, hlaid.insert hkept hphi hdone ⟨⟨first.place, rfl⟩, hfree⟩ hmem hb.symm⟩
      · exact hg.block b original final horiginal hfinal

/-! ## Renaming reads in a block -/

/-- Every instruction is left alone or has its reads renamed. -/
def IsRenaming (rename : Nat → Instr → Instr) : Prop :=
  ∀ k i, rename k i = i ∨ ∃ g, rename k i = i.mapReads g

theorem IsRenaming.defined {rename : Nat → Instr → Instr} (h : IsRenaming rename) (k : Nat)
    (i : Instr) : (rename k i).defined = i.defined := by
  rcases h k i with heq | ⟨g, heq⟩
  · rw [heq]
  · rw [heq, Instr.defined_mapReads]

theorem IsRenaming.shift {rename : Nat → Instr → Instr} (h : IsRenaming rename) (n : Nat) :
    IsRenaming fun k => rename (k + n) := fun k i => h (k + n) i

theorem IsRenaming.filterMap_written? {rename : Nat → Instr → Instr} (h : IsRenaming rename)
    (is : List Instr) (d : DeclId) :
    (is.mapIdx rename).filterMap (·.written? d) = is.filterMap (·.written? d) := by
  induction is generalizing rename with
  | nil => rfl
  | cons i is ih =>
    rw [List.mapIdx_cons, List.filterMap_cons, List.filterMap_cons, ih (h.shift 1),
      Instr.written?_congr (h.defined 0 i)]

theorem IsInitial.rename {env : Environment} {phi : Phi} {i : Instr} (h : IsInitial env phi i)
    {rename : Nat → Instr → Instr} (hrename : IsRenaming rename) (k : Nat) :
    IsInitial env phi (rename k i) := by
  rcases hrename k i with heq | ⟨g, heq⟩
  · rwa [heq]
  · rw [heq]
    exact h.mapReads g

theorem Body.mapIdx {original body : List Instr} (h : f.Body env original body)
    {rename : Nat → Instr → Instr} (hrename : IsRenaming rename) :
    f.Body env original (body.mapIdx rename) := by
  refine ⟨fun d hd => (hrename.filterMap_written? body d).trans (h.written d hd), ?_⟩
  intro pre i post hsplit
  obtain ⟨pre', rest, rfl, rfl, hrest⟩ := List.mapIdx_eq_append_iff.1 hsplit
  obtain ⟨i', post', rfl, rfl, -⟩ := List.mapIdx_eq_cons_iff.1 hrest
  rcases h.origin pre' i' post' rfl with ⟨j, hj, hdefined⟩ | ⟨phi, hphi, hinit, j, hj, r, hr, hrj⟩
  · exact .inl ⟨j, hj, (hrename.defined _ _).trans hdefined⟩
  · obtain ⟨k, hk, rfl⟩ := List.mem_iff_getElem.1 hj
    refine .inr ⟨phi, hphi, hinit.rename hrename _, rename k pre'[k], ?_, r, hr, ?_⟩
    · exact List.mem_mapIdx.2 ⟨k, hk, rfl⟩
    · rwa [hrename.defined]

/-- The tail of a block stays what it is as long as the copies in it are left alone. -/
theorem Tail.mapIdx {is : List Instr} (h : f.Tail env b done is) {rename : Nat → Instr → Instr}
    (hrename : IsRenaming rename)
    (hkeep : ∀ k i, (∀ p ∈ i.reads, (f.buildSsa env).2.IsFree p ∨
      ∃ phi ∈ (f.buildSsa env).1.phis, phi.operands.get? b = some p) → rename k i = i) :
    f.Tail env b done (is.mapIdx rename) := by
  induction h with
  | nil => exact .nil
  | initial _ hphi hdone hrec hinit ih =>
    rw [List.mapIdx_append]
    exact ih.initial hphi hdone hrec (hinit.rename hrename _)
  | @copy done is phi operand load copy statement _ hphi hoperand hcopy ih =>
    have hload (k : Nat) : rename k load = load := hkeep k load fun p hp => by
      simp only [Instr.reads, hcopy.load_op, Op.reads, List.mem_singleton] at hp
      exact .inr ⟨phi, hphi, hp ▸ hoperand⟩
    have hcopied (k : Nat) : rename k copy = copy := hkeep k copy fun p hp => by
      simp only [Instr.reads, hcopy.copy_op, Op.reads, List.mem_singleton] at hp
      exact .inl (hp ▸ hcopy.load_isFree)
    have hstatement (k : Nat) : rename k statement = statement := hkeep k statement fun p hp => by
      simp only [Instr.reads, hcopy.statement_op, Op.reads, List.mem_singleton] at hp
      exact .inl (hp ▸ hcopy.copy_isFree)
    rw [List.mapIdx_append]
    simp only [List.mapIdx_cons, List.mapIdx_nil, hload, hcopied, hstatement]
    exact ih.copy hphi hoperand hcopy
  | skip _ hoperand ih => exact ih.skip hoperand

/-! ## Redirecting reads -/

/-- What holds of a function whose variables are not joined yet. -/
structure Unjoined (f : Function) (env : Environment) : Prop where
  flow : f.flow = Flow.compute f.entry (edgesOf f.blocks)
  /-- Nothing leads back to the entry. -/
  entry : f.flow.predecessorsOf f.entry = []
  /-- No block leads to itself. -/
  loopless : ∀ b, b ∉ (edgesOf f.blocks).getD b []
  records : env.WellKept
  /-- The versions recorded in the blocks come from writes. -/
  written : ∀ d, ∀ r ∈ env.versionsOf d, f.blocks.contains r.block = true → r.IsWritten

theorem get?_operandPoints (g : Function) (env : Environment) (phi : Phi) (id : CellId) :
    (g.operandPoints env phi).get? id =
      if id ∈ phi.operands.values.map (·.cell.id) then
        ((env.versionsOf phi.declaration).find? (·.place.cell.id == id)).map fun r =>
          ⟨r.block, (g.blocks.get? r.block).bind fun block =>
            block.instructions.findIdx? fun i => i.defined.any (·.cell.id == id)⟩
      else none := by
  let point (id : CellId) : Option DefinitionPoint :=
    ((env.versionsOf phi.declaration).find? (·.place.cell.id == id)).map fun r =>
      ⟨r.block, (g.blocks.get? r.block).bind fun block =>
        block.instructions.findIdx? fun i => i.defined.any (·.cell.id == id)⟩
  have hpoints : g.operandPoints env phi = Table.ofList
      ((phi.operands.values.map (·.cell.id)).filterMap fun id => (point id).map (id, ·)) := by
    simp only [operandPoints, List.filterMap_map, Function.comp_def, point, Option.map_map]
  rw [hpoints]
  exact Table.get?_ofList_filterMap _ point id

theorem Unjoined.dominates_iff (hf : Unjoined f env) {a p : BlockId}
    (hp : Reachable f.entry (edgesOf f.blocks) p) (hout : (edgesOf f.blocks).contains p = true) :
    f.flow.dominates a p = true ↔ Dominates f.entry (edgesOf f.blocks) a p := by
  obtain ⟨before, hwalk⟩ := hp
  have hcontains := hwalk.contains hout _ hwalk.entry_mem
  rw [hf.flow]
  exact has_dominatorSets hcontains ⟨before, hwalk⟩

/-- The tail of a block defines no version that its code leaves. -/
theorem Tail.not_defines (hf : Unjoined f env) {is : List Instr} (h : f.Tail env b done is)
    (hb : f.blocks.contains b = true) {d : DeclId} {place : Place}
    (hleft : leftBy ((f.buildSsa env).2.versionsOf d) b = some place) :
    ∀ i ∈ is, ∀ p ∈ i.defined, p.cell.id ≠ place.cell.id := by
  intro i hi p hp heq
  have hrecord := mem_of_leftBy hleft
  rcases h.defined_cases hi hp with hfree | ⟨phi, hphi, rfl, hwhy⟩
  · exact hfree.cell d _ hrecord heq.symm
  · have hsame := (wellKept_buildSsa hf.records f).1.unique _ _ _ hrecord _
      (mem_versionsOf_of_phi hphi) heq.symm
    have hblock : phi.block = b := (congrArg VersionRecord.block hsame).symm
    have hplace : place = phi.place := congrArg VersionRecord.place hsame
    have hdecl : phi.declaration = d := by
      rw [← (wellKept_buildSsa hf.records f).1.declaration d _ hrecord, hplace]
      rfl
    rcases hwhy with ⟨r, hr, hrb⟩ | hoperand
    · -- a write of the block would be what it leaves
      have hwritten := hf.written _ r hr (hrb ▸ hb)
      obtain ⟨n, hn⟩ := isWritten_of_leftBy hleft
        (by rw [versionsOf_buildSsa]; exact List.mem_append_left _ (hdecl ▸ hr)) hrb hwritten
      obtain ⟨id, hid⟩ := version_of_phi hphi
      rw [hplace, hid] at hn
      cases hn
    · -- the block would be its own predecessor
      obtain ⟨operand, hget⟩ := Option.ne_none_iff_exists'.1 hoperand
      have hpred := mem_predecessorsOf_of_operand hphi hget
      exact hf.loopless b (hblock ▸ ((mem_predecessorsOf hf.flow).1 hpred).2)

theorem mem_versionsOf_of_operand (hf : Unjoined f env) {phi : Phi}
    (hphi : phi ∈ (f.buildSsa env).1.phis) {operand : Place} (h : operand ∈ phi.operands.values) :
    ∃ q, ⟨q, operand⟩ ∈ (f.buildSsa env).2.versionsOf phi.declaration := by
  obtain ⟨p, hget⟩ := Table.mem_values.1 h
  obtain ⟨q, -, hleft, -⟩ := exists_closest_of_operand hf.flow hphi hget
  exact ⟨q, mem_of_leftBy hleft⟩

/-- A definition in the region of a phi keeps the copies that read it: the version that reaches the end
of a block shadows every phi that dominates the block. -/
theorem shadows_of_operand (hf : Unjoined f env) {g : Function} {target phi : Phi}
    (htarget : target ∈ (f.buildSsa env).1.phis) (hphi : phi ∈ (f.buildSsa env).1.phis)
    (hdecl : target.declaration = phi.declaration) {operand : Place}
    (hoperand : phi.operands.get? b = some operand) (hdom : f.flow.dominates target.block b = true)
    {body tail : List Instr} {final : Block} (hget : g.blocks.get? b = some final)
    (hfinal : final.instructions = body ++ tail) (htail : f.Tail env b done tail) {k : Nat}
    (hk : body.length ≤ k) {q : BlockId}
    (hq : ⟨q, operand⟩ ∈ (f.buildSsa env).2.versionsOf phi.declaration) :
    DefinitionPoint.shadows ⟨q, (g.blocks.get? q).bind fun block => block.instructions.findIdx?
      fun i => i.defined.any (·.cell.id == operand.cell.id)⟩ f.flow target b k = true := by
  obtain ⟨hreach, hedge⟩ := (mem_predecessorsOf hf.flow).1 (mem_predecessorsOf_of_operand hphi hoperand)
  have ⟨before, hwalk⟩ := hreach
  have hblocks := contains_of_walk hwalk hedge
  have hb := hblocks b List.mem_cons_self
  obtain ⟨q', hqb, hleft, hclosest⟩ := exists_closest_of_operand hf.flow hphi hoperand
  obtain rfl : q' = q := congrArg VersionRecord.block
    ((wellKept_buildSsa hf.records f).1.unique _ _ _ (mem_of_leftBy hleft) _ hq rfl)
  have hrecorded : RecordedIn ((f.buildSsa env).2.versionsOf phi.declaration) target.block :=
    ⟨recordOf target, hdecl ▸ mem_versionsOf_of_phi htarget, rfl⟩
  have htq := hclosest _ ((hf.dominates_iff hreach hb).1 hdom) hrecorded
  have hqreach := hqb.reachable hreach
  have hqblock := hblocks q' (hqb before hwalk)
  rw [DefinitionPoint.shadows, (hf.dominates_iff hqreach hqblock).2 htq, Bool.true_and]
  by_cases hqb' : q' = b
  · subst hqb'
    rw [if_pos (beq_self_eq_true _), hget, Option.bind_some]
    cases hidx : final.instructions.findIdx? fun i => i.defined.any (·.cell.id == operand.cell.id) with
    | none => rfl
    | some j =>
      -- the tail defines no version that the block leaves, so the definition is in the body
      obtain ⟨hj, hdefines, -⟩ := List.findIdx?_eq_some_iff_getElem.1 hidx
      have hbody : j < body.length := by
        by_contra hnot
        have hmem : final.instructions[j] ∈ tail := by
          simp only [hfinal]
          rw [List.getElem_append_right (by omega)]
          exact List.getElem_mem _
        obtain ⟨p, hp, heq⟩ := List.any_eq_true.1 hdefines
        have hcontains : f.blocks.contains q' = true := by
          simpa [edgesOf, Table.contains_map] using hb
        exact htail.not_defines hf hcontains hleft _ hmem p hp (by simpa using heq)
      simp only [decide_eq_true_eq]
      omega
  · rw [if_neg (by simpa using hqb'), strictlyDominates, (hf.dominates_iff hreach hb).2 hqb]
    simpa using hqb'

/-- What the tail of a block reads is not redirected. -/
theorem not_isRedirected (hf : Unjoined f env) {g : Function} {env' : Environment}
    (hversions : env'.versions = (f.buildSsa env).2.versions) {target : Phi}
    (htarget : target ∈ (f.buildSsa env).1.phis) (hdom : f.flow.dominates target.block b = true)
    {body tail : List Instr} {final : Block} (hget : g.blocks.get? b = some final)
    (hfinal : final.instructions = body ++ tail) (htail : f.Tail env b done tail) {k : Nat}
    (hk : body.length ≤ k) {reads : List Place}
    (hreads : ∀ p ∈ reads, (f.buildSsa env).2.IsFree p ∨
      ∃ phi ∈ (f.buildSsa env).1.phis, phi.operands.get? b = some p) :
    isRedirected f.flow (g.operandPoints env' target) target
      (KeySet.ofList (target.operands.values.map (·.cell.id))) b k reads = false := by
  rw [isRedirected, List.any_eq_false]
  intro p hp
  rw [Bool.and_eq_true, not_and]
  intro hin
  simp only [KeySet.contains_ofList, decide_eq_true_eq] at hin
  obtain ⟨operand, hoperand, hcell⟩ := List.mem_map.1 hin
  obtain ⟨q, hq⟩ := mem_versionsOf_of_operand hf htarget hoperand
  have hkept := (wellKept_buildSsa hf.records f).1
  rcases hreads p hp with hfree | ⟨phi, hphi, hget'⟩
  · exact absurd hcell (hfree.cell _ _ hq)
  -- the phi that reads `p` and the one that would redirect it join the same variable
  obtain ⟨q', -, hleft, -⟩ := exists_closest_of_operand hf.flow hphi hget'
  have hsame := hkept.unique _ _ _ hq _ (mem_of_leftBy hleft) hcell
  obtain rfl : operand = p := congrArg VersionRecord.place hsame
  have hdecl : target.declaration = phi.declaration := by
    rw [← hkept.declaration _ _ hq, ← hkept.declaration _ _ (mem_of_leftBy hleft)]
  have hfind : (env'.versionsOf target.declaration).find? (·.place.cell.id == operand.cell.id) =
      some ⟨q, operand⟩ := by
    have heq : env'.versionsOf target.declaration =
        (f.buildSsa env).2.versionsOf target.declaration := by
      rw [Environment.versionsOf, hversions]
      rfl
    rw [heq]
    cases hfound : ((f.buildSsa env).2.versionsOf target.declaration).find?
        (·.place.cell.id == operand.cell.id) with
    | none => simpa using List.find?_eq_none.1 hfound _ hq
    | some r =>
      have hr := List.find?_some hfound
      exact congrArg some (hkept.unique _ _ _ (List.mem_of_find?_eq_some hfound) _ hq (by simpa using hr))
  rw [get?_operandPoints, if_pos hin, hfind, Option.map_some]
  simp only [shadows_of_operand hf htarget hphi hdecl hget' hdom hget hfinal htail hk (hdecl ▸ hq),
    Bool.not_true, Bool.false_eq_true, not_false_eq_true]

theorem LaidOut.redirectReads (hf : Unjoined f env) {g : Function} (hg : f.LaidOut env done g)
    {env' : Environment} (hversions : env'.versions = (f.buildSsa env).2.versions) {target : Phi}
    (htarget : target ∈ (f.buildSsa env).1.phis) :
    f.LaidOut env done (g.redirectReads env' target) := by
  refine ⟨hg.entry, hg.header, hg.flow, fun b => ?_, fun b original final horiginal hfinal => ?_⟩
  · rw [← hg.contains b]
    simp only [Function.redirectReads, mapBlocks, Table.contains_map]
  simp only [Function.redirectReads, mapBlocks, Table.get?_map] at hfinal
  obtain ⟨before, hbefore, rfl⟩ := Option.map_eq_some_iff.1 hfinal
  obtain ⟨hsuccessors, hlaid⟩ := hg.block b original before horiginal hbefore
  by_cases hdom : g.flow.dominates target.block b = true
  · simp only [if_pos hdom]
    refine ⟨?_, ?_⟩
    · rw [← hsuccessors, Block.successors, Block.successors]
      cases before.terminal with
      | none => rfl
      | some t =>
        simp only [Option.map_some]
        split
        · exact Terminal.successors_mapReads _ t
        · rfl
    · obtain ⟨body, tail, hsplit, hbody, htail⟩ := hlaid
      set operands := KeySet.ofList (target.operands.values.map (·.cell.id))
      let rename (k : Nat) (i : Instr) : Instr :=
        if isRedirected g.flow (g.operandPoints env' target) target operands b k i.reads then
          i.mapReads fun p => if operands.contains p.cell.id then target.place else p
        else i
      have hrename : IsRenaming rename := fun k i => by
        by_cases h : isRedirected g.flow (g.operandPoints env' target) target operands b k i.reads = true
        · exact .inr ⟨_, if_pos h⟩
        · exact .inl (if_neg h)
      change f.Laid env b done _ (before.instructions.mapIdx rename)
      rw [hsplit, List.mapIdx_append]
      refine ⟨_, _, rfl, hbody.mapIdx hrename, htail.mapIdx (hrename.shift _) fun k i hreads => ?_⟩
      rw [hg.flow] at hdom
      have hnot := not_isRedirected hf hversions htarget hdom hbefore hsplit htail
        (Nat.le_add_left body.length k) hreads
      simp only [rename, hg.flow, operands, hnot]
      rfl
  · simp only [if_neg hdom]
    exact ⟨hsuccessors, hlaid⟩

/-! ## Copying operands -/

/-- The block with instructions behind its own. -/
def Block.append (block : Block) (is : List Instr) : Block :=
  { block with instructions := block.instructions ++ is }

/-- Copies are inserted for all predecessors, one in each. -/
theorem exists_insertCopies (phi : Phi) {more : List (BlockId × Place)}
    (hnodup : (more.map (·.1)).Nodup) {g : Function}
    (hcontains : ∀ e ∈ more, g.blocks.contains e.1 = true) {env' : Environment}
    (henv : f.Keeps env env') :
    ∃ g' env'', insertCopies phi more g env' = .ok (g', env'') ∧ f.Keeps env env'' ∧
      (g'.entry = g.entry ∧ g'.header = g.header ∧ g'.flow = g.flow) ∧
      (∀ b, b ∉ more.map (·.1) → g'.blocks.get? b = g.blocks.get? b) ∧
      ∀ b operand, (b, operand) ∈ more → ∃ block load copy statement,
        g.blocks.get? b = some block ∧
        IsCopy (f.buildSsa env).2 phi operand load copy statement ∧
        g'.blocks.get? b = some (Block.append block [load, copy, statement]) := by
  induction more generalizing g env' with
  | nil => exact ⟨g, env', rfl, henv, ⟨rfl, rfl, rfl⟩, fun _ _ => rfl, by simp⟩
  | cons e more ih =>
    obtain ⟨p, operand⟩ := e
    obtain ⟨hfresh, hnodup⟩ := List.nodup_cons.1 hnodup
    obtain ⟨block, hblock⟩ := Table.contains_iff.1 (hcontains _ List.mem_cons_self)
    set load := (env'.newInstr g.id (.loadLocal operand)).1
    obtain ⟨henv₁, hload⟩ := henv.newInstr g.id (.loadLocal operand)
    set env₁ := (env'.newInstr g.id (.loadLocal operand)).2
    set copy := (env₁.newInstr g.id (.copy phi.place load.place)).1
    obtain ⟨henv₂, hcopy⟩ := henv₁.newInstr g.id (.copy phi.place load.place)
    set env₂ := (env₁.newInstr g.id (.copy phi.place load.place)).2
    set statement := (env₂.newInstr g.id (.expressionStatement copy.place)).1
    obtain ⟨henv₃, hstatement⟩ := henv₂.newInstr g.id (.expressionStatement copy.place)
    set env₃ := (env₂.newInstr g.id (.expressionStatement copy.place)).2
    have hunfold : insertCopies phi ((p, operand) :: more) g env' =
        insertCopies phi more (g.setBlock p (Block.append block [load, copy, statement])) env₃ := by
      rw [insertCopies]
      simp only [hblock]
      rfl
    have hget (b : BlockId) : (g.setBlock p (Block.append block [load, copy, statement])).blocks.get? b =
        if b = p then some (Block.append block [load, copy, statement]) else g.blocks.get? b :=
      Table.get?_insert ..
    have hcontains' : ∀ e ∈ more, (g.setBlock p
        (Block.append block [load, copy, statement])).blocks.contains e.1 = true := fun e he =>
      (Table.contains_insert ..).trans (by
        rw [hcontains e (List.mem_cons_of_mem _ he), Bool.or_true])
    obtain ⟨g', env'', hok, henv'', hframe, hothers, hcopies⟩ := ih hnodup hcontains' henv₃
    refine ⟨g', env'', hunfold.trans hok, henv'', hframe, fun b hb => ?_, fun b o hmem => ?_⟩
    · rw [List.map_cons, List.mem_cons, not_or] at hb
      rw [hothers b hb.2, hget, if_neg hb.1]
    · rcases List.mem_cons.1 hmem with heq | hmore
      · cases heq
        refine ⟨block, load, copy, statement, hblock, ?_, ?_⟩
        · exact ⟨rfl, rfl, rfl, hload, hcopy, hstatement⟩
        · rw [hothers p hfresh, hget, if_pos rfl]
      · obtain ⟨block', load', copy', statement', hblock', hcopy', hget'⟩ := hcopies b o hmore
        have hne : b ≠ p := by
          rintro rfl
          exact hfresh (List.mem_map.2 ⟨_, hmore, rfl⟩)
        rw [hget, if_neg hne] at hblock'
        exact ⟨block', load', copy', statement', hblock', hcopy', hget'⟩

/-! ## Removing phis -/

theorem Laid.skip {original final : List Instr} (h : f.Laid env b done original final) {phi : Phi}
    (hnone : phi.operands.get? b = none) : f.Laid env b (done ++ [phi]) original final := by
  obtain ⟨body, tail, hfinal, hbody, htail⟩ := h
  exact ⟨body, tail, hfinal, hbody, htail.skip hnone⟩

theorem Laid.copy {original final : List Instr} (h : f.Laid env b done original final) {phi : Phi}
    (hphi : phi ∈ (f.buildSsa env).1.phis) {operand : Place}
    (hoperand : phi.operands.get? b = some operand) {load copy statement : Instr}
    (hcopy : IsCopy (f.buildSsa env).2 phi operand load copy statement) :
    f.Laid env b (done ++ [phi]) original (final ++ [load, copy, statement]) := by
  obtain ⟨body, tail, rfl, hbody, htail⟩ := h
  exact ⟨body, tail ++ [load, copy, statement], List.append_assoc .., hbody,
    htail.copy hphi hoperand hcopy⟩

theorem contains_of_operand (hf : Unjoined f env) {phi : Phi}
    (hphi : phi ∈ (f.buildSsa env).1.phis) {p : BlockId} {operand : Place}
    (h : phi.operands.get? p = some operand) : f.blocks.contains p = true := by
  obtain ⟨⟨before, hwalk⟩, hedge⟩ :=
    (mem_predecessorsOf hf.flow).1 (mem_predecessorsOf_of_operand hphi h)
  simpa [edgesOf, Table.contains_map] using contains_of_walk hwalk hedge p List.mem_cons_self

theorem LaidOut.eliminatePhi (hf : Unjoined f env) {g : Function} (hg : f.LaidOut env done g)
    {env' : Environment} (henv : f.Keeps env env') {phi : Phi}
    (hphi : phi ∈ (f.buildSsa env).1.phis) (hdone : phi ∉ done) :
    ∃ g' env'', eliminatePhi phi g env' = .ok (g', env'') ∧ f.LaidOut env (done ++ [phi]) g' ∧
      f.Keeps env env'' := by
  obtain ⟨hg₁, henv₁⟩ := hg.storeInitial hf.records henv hphi hdone
  have hg₂ := hg₁.redirectReads hf henv₁.versions hphi
  obtain ⟨g', env'', hok, henv'', ⟨hentry, hheader, hflow⟩, hothers, hcopies⟩ :=
    exists_insertCopies phi phi.operands.keys_nodup
      (fun ⟨p, operand⟩ he => by
        rw [hg₂.contains]
        exact contains_of_operand hf hphi (Table.mem_entries.1 he)) henv₁
  have hkeys (b : BlockId) : b ∈ phi.operands.entries.map (·.1) ↔ phi.operands.get? b ≠ none := by
    change b ∈ phi.operands.keys ↔ _
    rw [Table.mem_keys, Table.contains, Option.isSome_iff_ne_none]
  refine ⟨g', env'', hok, ⟨hentry.trans hg₂.entry, hheader.trans hg₂.header, hflow.trans hg₂.flow,
    fun b => ?_, fun b original final horiginal hfinal => ?_⟩, henv''⟩
  · rw [← hg₂.contains, Table.contains, Table.contains]
    cases hoperand : phi.operands.get? b with
    | none =>
      rw [hothers b (by rw [hkeys]; simp [hoperand])]
    | some operand =>
      obtain ⟨block, _, _, _, hblock, -, hget⟩ := hcopies b operand (Table.mem_entries.2 hoperand)
      rw [hblock, hget]
      rfl
  · cases hoperand : phi.operands.get? b with
    | none =>
      rw [hothers b (by rw [hkeys]; simp [hoperand])] at hfinal
      obtain ⟨hsuccessors, hlaid⟩ := hg₂.block b original final horiginal hfinal
      exact ⟨hsuccessors, hlaid.skip hoperand⟩
    | some operand =>
      obtain ⟨block, load, copy, statement, hblock, hcopy, hget⟩ :=
        hcopies b operand (Table.mem_entries.2 hoperand)
      rw [hget] at hfinal
      cases hfinal
      obtain ⟨hsuccessors, hlaid⟩ := hg₂.block b original block horiginal hblock
      exact ⟨hsuccessors, hlaid.copy hphi hoperand hcopy⟩

theorem LaidOut.eliminatePhis (hf : Unjoined f env) {phis : List Phi}
    (hphis : ∀ phi ∈ phis, phi ∈ (f.buildSsa env).1.phis) (hnodup : phis.Nodup) {g : Function}
    (hg : f.LaidOut env done g) (hdone : ∀ phi ∈ phis, phi ∉ done) {env' : Environment}
    (henv : f.Keeps env env') :
    ∃ g' env'', eliminatePhis phis g env' = .ok (g', env'') ∧
      f.LaidOut env (done ++ phis.filter (1 < ·.operands.size)) g' ∧ f.Keeps env env'' := by
  induction phis generalizing g env' done with
  | nil => exact ⟨g, env', rfl, by simpa using hg, henv⟩
  | cons phi phis ih =>
    obtain ⟨hfresh, hnodup⟩ := List.nodup_cons.1 hnodup
    have hphis' : ∀ p ∈ phis, p ∈ (f.buildSsa env).1.phis := fun p hp =>
      hphis p (List.mem_cons_of_mem _ hp)
    by_cases hsize : phi.operands.size ≤ 1
    · obtain ⟨g', env'', hok, hg', henv'⟩ := ih hphis' hnodup hg
        (fun p hp => hdone p (List.mem_cons_of_mem _ hp)) henv
      refine ⟨g', env'', ?_, ?_, henv'⟩
      · rw [Function.eliminatePhis, if_pos hsize, hok]
      · rwa [List.filter_cons_of_neg (by simpa using hsize)]
    · obtain ⟨g₁, env₁, hok₁, hg₁, henv₁⟩ := hg.eliminatePhi hf henv
        (hphis phi List.mem_cons_self) (hdone phi List.mem_cons_self)
      obtain ⟨g', env'', hok, hg', henv'⟩ := ih hphis' hnodup hg₁ (fun p hp => by
        rw [List.mem_append, List.mem_singleton, not_or]
        refine ⟨hdone p (List.mem_cons_of_mem _ hp), ?_⟩
        rintro rfl
        exact hfresh hp) henv₁
      refine ⟨g', env'', ?_, ?_, henv'⟩
      · rw [Function.eliminatePhis, if_neg hsize, hok₁]
        exact hok
      · rw [List.filter_cons_of_pos (by simpa using hsize)]
        simpa using hg'

theorem laidOut_start (f : Function) (env : Environment) :
    f.LaidOut env [] { (f.buildSsa env).1 with phis := [] } := by
  refine ⟨rfl, rfl, rfl, fun _ => rfl, fun b original final horiginal hfinal => ?_⟩
  have heq : final = original := Option.some.inj (hfinal.symm.trans horiginal)
  subst heq
  refine ⟨rfl, final.instructions, [], (List.append_nil _).symm, ⟨fun _ _ => rfl, ?_⟩, .nil⟩
  intro pre i post hsplit
  exact .inl ⟨i, by simp [hsplit], rfl⟩

/-- The phis that are replaced by copies. -/
def kept (f : Function) (env : Environment) : List Phi :=
  (f.buildSsa env).1.orderedPhis.filter (1 < ·.operands.size)

theorem mem_kept {phi : Phi} :
    phi ∈ f.kept env ↔ phi ∈ (f.buildSsa env).1.phis ∧ 1 < phi.operands.size := by
  simp [kept, orderedPhis, List.mem_mergeSort]

/-- Removing the phis of a joined function succeeds and lays out its code. -/
theorem laidOut_eliminateSsa (hf : Unjoined f env) :
    ∃ g env', (f.buildSsa env).1.eliminateSsa (f.buildSsa env).2 = .ok (g, env') ∧
      f.LaidOut env (f.kept env) g ∧ f.Keeps env env' := by
  have hperm : (f.buildSsa env).1.orderedPhis.Perm (f.buildSsa env).1.phis := List.mergeSort_perm _ _
  exact (laidOut_start f env).eliminatePhis hf (fun phi hphi => hperm.subset hphi)
    (hperm.nodup_iff.2 (phis_nodup f env)) (by simp) ⟨rfl, Nat.le_refl _, (wellKept_buildSsa hf.records f).1⟩

end Function

end Whittle.Ir
