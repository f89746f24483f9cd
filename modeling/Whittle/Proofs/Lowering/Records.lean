import Mathlib.Tactic.Common
import Whittle.Proofs.Lowering.Steps
import Whittle.Proofs.Ssa.Memory

/-!
# Records while code is lowered

What a function does to the environment leaves the variables of other functions alone, unless they are
captured (`Environment.Grows`).  The records of a variable that only its function uses tell the truth
about the code: the version that a block writes last is the one that it records last (`Tells`).
-/

namespace Whittle.Ir

namespace Environment

variable {env env' env'' : Environment} {id : FuncId}

/-! ## Declarations -/

theorem declares_iff {d : DeclId} : env.declares d = true ↔ d.index < env.declarations.size := by
  simp [declares, declaration?]

@[simp] theorem declaration?_newPlace (env : Environment) (d x : DeclId) :
    (env.newPlace d).2.declaration? x = if d.index = x.index then
      (env.declaration? x).map fun e =>
        { e with nextVersion := ((env.declaration? d).map (·.nextVersion)).getD 0 + 1 }
    else env.declaration? x :=
  Array.getElem?_modify

@[simp] theorem ownerOf_newPlace (env : Environment) (d x : DeclId) :
    (env.newPlace d).2.ownerOf x = env.ownerOf x := by
  rw [ownerOf, ownerOf, declaration?_newPlace]
  split
  · rw [Option.map_map]
    rfl
  · rfl

@[simp] theorem kindOf_newPlace (env : Environment) (d x : DeclId) :
    (env.newPlace d).2.kindOf x = env.kindOf x := by
  rw [kindOf, kindOf, declaration?_newPlace]
  split
  · rw [Option.map_map]
    rfl
  · rfl

@[simp] theorem isTemporary_newPlace (env : Environment) (d x : DeclId) :
    (env.newPlace d).2.isTemporary x = env.isTemporary x := by
  rw [isTemporary, isTemporary, kindOf_newPlace]

@[simp] theorem size_newPlace (env : Environment) (d : DeclId) :
    (env.newPlace d).2.declarations.size = env.declarations.size :=
  Array.size_modify

theorem declaration?_declare (env : Environment) (name : Option String) (kind : DeclKind)
    (owner : FuncId) (x : DeclId) :
    (env.declare name kind owner).2.declaration? x =
      if x.index = env.declarations.size then some ⟨name, kind, owner, 0⟩ else env.declaration? x :=
  Array.getElem?_push

theorem isTemporary_declare (env : Environment) (name : Option String) (kind : DeclKind)
    (owner : FuncId) : (env.declare name kind owner).2.isTemporary ⟨env.declarations.size⟩ =
      (kind == .temporary) := by
  rw [isTemporary, kindOf, declaration?_declare, if_pos rfl]
  rfl

/-- A new temporary is one. -/
theorem isTemporary_newTemporary (env : Environment) (owner : FuncId) :
    (env.newTemporary owner).2.isTemporary (env.newTemporary owner).1.declaration = true := by
  change ((env.declare none .temporary owner).2.newPlace _).2.isTemporary _ = true
  rw [isTemporary_newPlace]
  exact isTemporary_declare env none .temporary owner

/-- A new instruction defines a temporary. -/
theorem isTemporary_newInstr (env : Environment) (owner : FuncId) (op : Op) :
    (env.newInstr owner op).2.isTemporary (env.newInstr owner op).1.place.declaration = true :=
  isTemporary_newTemporary env owner

theorem ownerOf_of_not_declared {d : DeclId} (h : env.declarations.size ≤ d.index) :
    env.ownerOf d = none := by
  simp [ownerOf, declaration?, h]

theorem index_lt_of_ownerOf {d : DeclId} (h : env.ownerOf d = some id) :
    d.index < env.declarations.size := by
  by_contra hnot
  rw [ownerOf_of_not_declared (Nat.le_of_not_lt hnot)] at h
  cases h

/-! ## What a function does to the environment -/

/-- What a function that is filled may do to the environment. -/
structure Grows (id : FuncId) (env env' : Environment) : Prop where
  size : env.declarations.size ≤ env'.declarations.size
  /-- What is known about declarations stays. -/
  known : ∀ d : DeclId, d.index < env.declarations.size →
    env'.ownerOf d = env.ownerOf d ∧ env'.isTemporary d = env.isTemporary d
  /-- New declarations belong to the function. -/
  fresh : ∀ d owner, env.declarations.size ≤ d.index → env'.ownerOf d = some owner → owner = id
  captured : ∀ d, env.captured.contains d = true → env'.captured.contains d = true
  /-- Versions are added to variables of the function or to captured ones. -/
  versions : ∀ d, env'.captured.contains d = false → env'.ownerOf d ≠ some id →
    env'.versionsOf d = env.versionsOf d
  nextFunc : env.nextFunc.index ≤ env'.nextFunc.index

theorem Grows.refl (id : FuncId) (env : Environment) : Grows id env env :=
  ⟨Nat.le_refl _, fun _ _ => ⟨rfl, rfl⟩,
    fun d owner hd howner => by simp [ownerOf_of_not_declared hd] at howner,
    fun _ h => h, fun _ _ _ => rfl, Nat.le_refl _⟩

theorem Grows.uncaptured (h : Grows id env env') {d : DeclId}
    (hd : env'.captured.contains d = false) : env.captured.contains d = false := by
  by_contra hnot
  rw [h.captured d (by simpa using hnot)] at hd
  cases hd

theorem Grows.trans (h : Grows id env env') (h' : Grows id env' env'') : Grows id env env'' := by
  refine ⟨h.size.trans h'.size, fun d hd => ?_, fun d owner hd howner => ?_,
    fun d hd => h'.captured d (h.captured d hd), fun d hd howner => ?_,
    h.nextFunc.trans h'.nextFunc⟩
  · obtain ⟨howner, htemporary⟩ := h.known d hd
    obtain ⟨howner', htemporary'⟩ := h'.known d (Nat.lt_of_lt_of_le hd h.size)
    exact ⟨howner'.trans howner, htemporary'.trans htemporary⟩
  · by_cases hd' : d.index < env'.declarations.size
    · rw [(h'.known d hd').1] at howner
      exact h.fresh d owner hd howner
    · exact h'.fresh d owner (Nat.le_of_not_lt hd') howner
  · rw [h'.versions d hd howner]
    refine h.versions d (h'.uncaptured hd) fun howner' => howner ?_
    rw [(h'.known d (index_lt_of_ownerOf howner')).1, howner']

/-- Counters, captures and bound functions say nothing about declarations and versions. -/
theorem Grows.of_same (hdeclarations : env'.declarations = env.declarations)
    (hversions : env'.versions = env.versions)
    (hcaptured : ∀ d, env.captured.contains d = true → env'.captured.contains d = true)
    (hfunc : env.nextFunc.index ≤ env'.nextFunc.index) : Grows id env env' := by
  have hknown (d : DeclId) : env'.declaration? d = env.declaration? d := by
    rw [declaration?, declaration?, hdeclarations]
  refine ⟨by rw [hdeclarations], fun d _ => ⟨?_, ?_⟩, fun d owner hd howner => ?_, hcaptured,
    fun d _ _ => ?_, hfunc⟩
  · rw [ownerOf, ownerOf, hknown]
  · rw [isTemporary, isTemporary, kindOf, kindOf, hknown]
  · rw [ownerOf, hknown, ← ownerOf, ownerOf_of_not_declared hd] at howner
    cases howner
  · rw [versionsOf, versionsOf, hversions]

theorem grows_declare (env : Environment) (name : Option String) (kind : DeclKind) (id : FuncId) :
    Grows id env (env.declare name kind id).2 := by
  have hsize : (env.declare name kind id).2.declarations.size = env.declarations.size + 1 :=
    Array.size_push ..
  refine ⟨by omega, fun d hd => ⟨?_, ?_⟩, fun d owner hd howner => ?_, fun _ h => h,
    fun _ _ _ => rfl, Nat.le_refl _⟩
  · rw [ownerOf, declaration?_declare, if_neg (by omega), ownerOf]
  · rw [isTemporary, kindOf, declaration?_declare, if_neg (by omega), isTemporary, kindOf]
  · rw [ownerOf, declaration?_declare] at howner
    split at howner
    · exact (Option.some.inj howner).symm
    · rw [← ownerOf, ownerOf_of_not_declared hd] at howner
      cases howner

theorem grows_newPlace (id : FuncId) (env : Environment) (d : DeclId) :
    Grows id env (env.newPlace d).2 := by
  refine ⟨by rw [size_newPlace], fun x _ => ⟨ownerOf_newPlace .., isTemporary_newPlace ..⟩,
    fun x owner hx howner => ?_, fun _ h => h, fun _ _ _ => rfl, Nat.le_refl _⟩
  rw [ownerOf_newPlace, ownerOf_of_not_declared hx] at howner
  cases howner

theorem grows_newTemporary (env : Environment) (id : FuncId) :
    Grows id env (env.newTemporary id).2 :=
  (grows_declare env none .temporary id).trans (grows_newPlace id _ _)

/-- A variable of the function that nothing else uses. -/
structure IsLocal (env : Environment) (id : FuncId) (d : DeclId) : Prop where
  owner : env.ownerOf d = some id
  named : env.isTemporary d = false
  uncaptured : env.captured.contains d = false

/-- What is local was so before, unless it is new. -/
theorem Grows.isLocal (h : Grows id env env') {other : FuncId} {d : DeclId}
    (hd : env'.IsLocal other d) (hknown : d.index < env.declarations.size) :
    env.IsLocal other d := by
  obtain ⟨howner, htemporary⟩ := h.known d hknown
  exact ⟨howner ▸ hd.owner, htemporary ▸ hd.named, h.uncaptured hd.uncaptured⟩

/-- A function adds no versions to the local variables of others. -/
theorem Grows.versions_of_ne (h : Grows id env env') {other : FuncId} (hne : other ≠ id) {d : DeclId}
    (hd : env'.IsLocal other d) : env'.versionsOf d = env.versionsOf d := by
  refine h.versions d hd.uncaptured ?_
  rw [hd.owner, ne_eq, Option.some.injEq]
  exact hne

/-! ## Records and blocks -/

/-- Versions come from writes; those of a variable that is not captured stand in blocks of its
function. -/
structure Recorded (env : Environment) (home : Table BlockId FuncId) : Prop where
  wellKept : env.WellKept
  written : ∀ d, ∀ r ∈ env.versionsOf d, r.IsWritten
  home : ∀ d, ∀ r ∈ env.versionsOf d, env.captured.contains d = false →
    ∃ id, home.get? r.block = some id ∧ env.ownerOf d = some id

theorem Recorded.grow {home home' : Table BlockId FuncId} (h : env.Recorded home)
    (hgrows : Grows id env env') (hversions : env'.versions = env.versions)
    (hcell : env.nextCell.index ≤ env'.nextCell.index)
    (hhome : ∀ b id, home.get? b = some id → home'.get? b = some id) : env'.Recorded home' := by
  have heq (d : DeclId) : env'.versionsOf d = env.versionsOf d := by
    rw [versionsOf, versionsOf, hversions]
  refine ⟨h.wellKept.grow hversions hcell hgrows.size, fun d r hr => ?_, fun d r hr hd => ?_⟩
  · rw [heq] at hr
    exact h.written d r hr
  · rw [heq] at hr
    obtain ⟨id, hid, howner⟩ := h.home d r hr (hgrows.uncaptured hd)
    refine ⟨id, hhome _ _ hid, ?_⟩
    rw [(hgrows.known d (index_lt_of_ownerOf howner)).1, howner]

end Environment

/-! ## Records and code -/

/-- The records of the local variables of a function tell the truth about its code.  The exception is
a variable whose next version was handed out but is not written yet. -/
structure Tells (env : Environment) (id : FuncId) (code : BlockId → List Instr)
    (but : Option (BlockId × DeclId)) : Prop where
  /-- The code defines versions of declarations. -/
  known : ∀ b, ∀ i ∈ code b, ∀ p ∈ i.defined,
    p.declaration.index < env.declarations.size ∧ p.cell.version.isNumbered = true
  /-- What is written is recorded. -/
  recorded : ∀ d, env.IsLocal id d → ∀ b, ∀ i ∈ code b, ∀ p ∈ i.defined, p.declaration = d →
    ⟨b, p⟩ ∈ env.versionsOf d
  /-- What a block writes last it records last. -/
  left : ∀ d, env.IsLocal id d → ∀ b, but ≠ some (b, d) → ∀ p, lastWritten? d (code b) = some p →
    leftBy (env.versionsOf d) b = some p

variable {env env' : Environment} {id owner : FuncId} {code code' : BlockId → List Instr}
  {but : Option (BlockId × DeclId)}

theorem exists_of_lastWritten? {d : DeclId} {is : List Instr} {p : Place}
    (h : lastWritten? d is = some p) : ∃ i ∈ is, p ∈ i.defined ∧ p.declaration = d := by
  obtain ⟨i, hi, hwritten⟩ := List.mem_filterMap.1 (List.mem_of_getLast? h)
  obtain ⟨hp, hdecl, -⟩ := Instr.written?_eq_some hwritten
  exact ⟨i, hi, hp, hdecl⟩

/-- As long as the versions of local variables stay, so does what they tell. -/
theorem Tells.grow (h : Tells env id code but) (hgrows : env.Grows owner env')
    (hversions : ∀ d, env'.IsLocal id d → env'.versionsOf d = env.versionsOf d) :
    Tells env' id code but := by
  refine ⟨fun b i hi p hp => ?_, fun d hd b i hi p hp hdecl => ?_, fun d hd b hb p hp => ?_⟩
  · obtain ⟨hlt, hnumbered⟩ := h.known b i hi p hp
    exact ⟨Nat.lt_of_lt_of_le hlt hgrows.size, hnumbered⟩
  · have hknown := hdecl ▸ (h.known b i hi p hp).1
    rw [hversions d hd]
    exact h.recorded d (hgrows.isLocal hd hknown) b i hi p hp hdecl
  · obtain ⟨i, hi, hpi, hdecl⟩ := exists_of_lastWritten? hp
    have hknown := hdecl ▸ (h.known b i hi p hpi).1
    rw [hversions d hd]
    exact h.left d (hgrows.isLocal hd hknown) b hb p hp

/-- A block leaves the version that it wrote last. -/
theorem leftBy_concat_self (records : List VersionRecord) {block : BlockId} {place : Place}
    (hwritten : place.cell.version.isNumbered = true) :
    leftBy (records ++ [⟨block, place⟩]) block = some place := by
  have hin : isWrittenIn block ⟨block, place⟩ = true := by
    rw [isWrittenIn_iff, VersionRecord.IsWritten]
    refine ⟨rfl, ?_⟩
    cases hversion : place.cell.version with
    | numbered n => exact ⟨n, rfl⟩
    | phi _ =>
      rw [hversion] at hwritten
      cases hwritten
  rw [leftBy_eq, List.filter_append, List.filter_cons_of_pos hin]
  simp

theorem leftBy_concat_of_ne {records : List VersionRecord} {block b : BlockId} {place : Place}
    (hne : b ≠ block) : leftBy (records ++ [⟨block, place⟩]) b = leftBy records b := by
  have hblock : ((⟨block, place⟩ : VersionRecord).block == b) = false := by simpa using hne.symm
  have hin : isWrittenIn b ⟨block, place⟩ = false := by rw [isWrittenIn, hblock, Bool.false_and]
  rw [leftBy_eq, leftBy_eq, List.filter_append, List.filter_append,
    List.filter_cons_of_neg (by rw [hin]; exact Bool.false_ne_true),
    List.filter_cons_of_neg (by rw [hblock]; exact Bool.false_ne_true)]
  simp

/-- A version is handed out in a block. -/
theorem Tells.version {block : BlockId} {d : DeclId} {place : Place} (h : Tells env id code none)
    (hgrows : env.Grows owner env')
    (hothers : ∀ x, env'.IsLocal id x → x ≠ d → env'.versionsOf x = env.versionsOf x)
    (hd : env'.versionsOf d = env.versionsOf d ++ [⟨block, place⟩]) :
    Tells env' id code (some (block, d)) := by
  refine ⟨fun b i hi p hp => ?_, fun x hx b i hi p hp hdecl => ?_, fun x hx b hb p hp => ?_⟩
  · obtain ⟨hlt, hnumbered⟩ := h.known b i hi p hp
    exact ⟨Nat.lt_of_lt_of_le hlt hgrows.size, hnumbered⟩
  · have hknown := hdecl ▸ (h.known b i hi p hp).1
    have hmem := h.recorded x (hgrows.isLocal hx hknown) b i hi p hp hdecl
    by_cases hxd : x = d
    · rw [hxd, hd]
      exact List.mem_append_left _ (hxd ▸ hmem)
    · rwa [hothers x hx hxd]
  · obtain ⟨i, hi, hpi, hdecl⟩ := exists_of_lastWritten? hp
    have hknown := hdecl ▸ (h.known b i hi p hpi).1
    have hleft := h.left x (hgrows.isLocal hx hknown) b (by simp) p hp
    by_cases hxd : x = d
    · subst hxd
      rw [hd, leftBy_concat_of_ne fun hbb => hb (by rw [hbb]), hleft]
    · rwa [hothers x hx hxd]

/-- The code with an instruction behind that of a block. -/
def extended (code : BlockId → List Instr) (block : BlockId) (i : Instr) : BlockId → List Instr :=
  fun b => if b = block then code b ++ [i] else code b

theorem mem_extended {block b : BlockId} {i j : Instr} :
    j ∈ extended code block i b ↔ j ∈ code b ∨ b = block ∧ j = i := by
  rw [extended]
  split
  · rename_i hb
    simp [hb]
  · rename_i hb
    simp [hb]

theorem lastWritten?_extended_of_none {block : BlockId} {i : Instr} {d : DeclId}
    (h : i.written? d = none) (b : BlockId) :
    lastWritten? d (extended code block i b) = lastWritten? d (code b) := by
  rw [extended]
  split
  · exact lastWritten?_concat_of_none h
  · rfl

theorem written?_of_isTemporary {i : Instr} {d : DeclId} (hd : env.isTemporary d = false)
    (h : ∀ p ∈ i.defined, p.declaration = d → env.isTemporary p.declaration = true) :
    i.written? d = none := by
  refine Instr.written?_eq_none.2 fun p hp hdecl => ?_
  have htemporary := h p hp hdecl
  rw [hdecl, hd] at htemporary
  cases htemporary

/-- An instruction is added that defines temporaries only. -/
theorem Tells.emit {block : BlockId} {i : Instr} (h : Tells env id code but)
    (hi : ∀ p ∈ i.defined, (p.declaration.index < env.declarations.size ∧
      p.cell.version.isNumbered = true) ∧ env.isTemporary p.declaration = true) :
    Tells env id (extended code block i) but := by
  refine ⟨fun b j hj p hp => ?_, fun d hd b j hj p hp hdecl => ?_, fun d hd b hb p hp => ?_⟩
  · rcases mem_extended.1 hj with hj | ⟨-, rfl⟩
    · exact h.known b j hj p hp
    · exact (hi p hp).1
  · rcases mem_extended.1 hj with hj | ⟨-, rfl⟩
    · exact h.recorded d hd b j hj p hp hdecl
    · have htemporary := (hi p hp).2
      rw [hdecl, hd.named] at htemporary
      cases htemporary
  · rw [lastWritten?_extended_of_none
      (written?_of_isTemporary hd.named fun p hp _ => (hi p hp).2)] at hp
    exact h.left d hd b hb p hp

/-- The version that is due is written. -/
theorem Tells.write {block : BlockId} {i : Instr} {d : DeclId} {place : Place}
    (h : Tells env id code (some (block, d))) (hplace : place ∈ i.defined)
    (hdecl : place.declaration = d) (hnumbered : place.cell.version.isNumbered = true)
    (hdeclared : d.index < env.declarations.size)
    (hleft : env.IsLocal id d → leftBy (env.versionsOf d) block = some place)
    (hi : ∀ p ∈ i.defined, p = place ∨ (p.declaration.index < env.declarations.size ∧
      p.cell.version.isNumbered = true) ∧ env.isTemporary p.declaration = true) :
    Tells env id (extended code block i) none := by
  have honly {x : DeclId} (hx : env.IsLocal id x) {p : Place} (hp : p ∈ i.defined)
      (hpx : p.declaration = x) : p = place := by
    rcases hi p hp with heq | ⟨-, htemporary⟩
    · exact heq
    · rw [hpx, hx.named] at htemporary
      cases htemporary
  refine ⟨fun b j hj p hp => ?_, fun x hx b j hj p hp hpx => ?_, fun x hx b _ p hp => ?_⟩
  · rcases mem_extended.1 hj with hj | ⟨-, rfl⟩
    · exact h.known b j hj p hp
    · rcases hi p hp with rfl | hknown
      · exact ⟨hdecl ▸ hdeclared, hnumbered⟩
      · exact hknown.1
  · rcases mem_extended.1 hj with hj | ⟨rfl, rfl⟩
    · exact h.recorded x hx b j hj p hp hpx
    · obtain rfl := honly hx hp hpx
      obtain rfl : d = x := hdecl.symm.trans hpx
      exact mem_of_leftBy (hleft hx)
  · by_cases hxd : x = d
    · subst hxd
      by_cases hb : b = block
      · subst hb
        cases hwritten : i.written? x with
        | none =>
          rw [Instr.written?_eq_none.1 hwritten place hplace hdecl] at hnumbered
          cases hnumbered
        | some q =>
          obtain ⟨hq, hqx, -⟩ := Instr.written?_eq_some hwritten
          rw [extended, if_pos rfl, lastWritten?_concat_of_some hwritten, Option.some.injEq] at hp
          rw [← hp, honly hx hq hqx]
          exact hleft hx
      · rw [extended, if_neg hb] at hp
        exact h.left x hx b (by simp [Ne.symm hb]) p hp
    · have hwritten : i.written? x = none := by
        refine Instr.written?_eq_none.2 fun q hq hqx => ?_
        rw [honly hx hq hqx, hdecl] at hqx
        exact absurd hqx.symm hxd
      rw [lastWritten?_extended_of_none hwritten] at hp
      exact h.left x hx b (by simp [Ne.symm hxd]) p hp

/-- The only version of a variable is written in the block that records it, or nowhere. -/
theorem Tells.drop {block : BlockId} {d : DeclId} {place : Place}
    (h : Tells env id code (some (block, d))) (honly : env.versionsOf d = [⟨block, place⟩])
    (hwritten : place.cell.version.isNumbered = true) : Tells env id code none := by
  refine ⟨h.known, h.recorded, fun x hx b _ p hp => ?_⟩
  by_cases hbut : some (block, d) = some (b, x)
  · cases hbut
    obtain ⟨i, hi, hpi, hdecl⟩ := exists_of_lastWritten? hp
    have hmem := h.recorded _ hx _ i hi p hpi hdecl
    rw [honly, List.mem_singleton] at hmem
    cases hmem
    rw [honly]
    exact leftBy_concat_self [] hwritten
  · exact h.left x hx b hbut p hp

theorem Tells.weaken (h : Tells env id code none) (but : Option (BlockId × DeclId)) :
    Tells env id code but :=
  ⟨h.known, h.recorded, fun d hd b _ p hp => h.left d hd b (by simp) p hp⟩

theorem Tells.congr (h : Tells env id code but) (heq : ∀ b, code' b = code b) :
    Tells env id code' but := by
  obtain rfl : code' = code := funext heq
  exact h

end Whittle.Ir
