import Mathlib.Data.List.Induction
import Mathlib.Tactic.Common
import Whittle.Proofs.Ssa.Layout

/-!
# Versions hold what was written last

On every walk through a function whose phis were removed, the cell of the version that reaches a point
holds what was last written to the variable (`LaidOut.memory_eq_latest`).  A block keeps this from one
instruction to the next: writes make it true, and everything else that touches cells of the variable
is a store into a phi that no walk has come to yet, or a copy of the version that leaves the block.
-/

namespace Whittle.Ir.Function

open Whittle.Ir.Flow

variable {f g : Function} {env : Environment} {d : DeclId} {b : BlockId} {done : List Phi}

/-- The records of a variable tell the truth about the code of a function. -/
structure Tracked (f : Function) (env : Environment) (d : DeclId) : Prop where
  declared : d.index < env.declarations.size
  /-- All versions come from writes. -/
  written : ∀ r ∈ env.versionsOf d, r.IsWritten
  /-- The code defines no other versions. -/
  numbered : ∀ b, ∀ i ∈ f.code b, ∀ p ∈ i.defined, p.declaration = d →
    p.cell.version.isNumbered = true
  /-- A block that writes the variable leaves what it writes last. -/
  left : ∀ b p, lastWritten? d (f.code b) = some p → leftBy (env.versionsOf d) b = some p

theorem isWritten_iff {r : VersionRecord} :
    r.IsWritten ↔ r.place.cell.version.isNumbered = true := by
  unfold VersionRecord.IsWritten Version.isNumbered
  cases r.place.cell.version <;> simp

theorem not_isWritten_of_phi {phi : Phi} (hphi : phi ∈ (f.buildSsa env).1.phis) :
    ¬ (recordOf phi).IsWritten := by
  obtain ⟨id, hid⟩ := version_of_phi hphi
  rintro ⟨n, hn⟩
  rw [recordOf, hid] at hn
  cases hn

/-! ## Versions and records -/

theorem joinIn?_eq_some {phi : Phi} (h : f.joinIn? d b = some phi) :
    phi ∈ f.phis ∧ phi.block = b ∧ phi.declaration = d := by
  have hp := List.find?_some h
  simp only [Bool.and_eq_true, beq_iff_eq] at hp
  exact ⟨List.mem_of_find?_eq_some h, hp.1, hp.2⟩

theorem not_recordedIn_of_joinIn? (ht : f.Tracked env d)
    (hnone : (f.buildSsa env).1.joinIn? d b = none)
    (hopen : ((f.buildSsa env).2.versionsOf d).any (isWrittenIn b) = false) :
    ¬ RecordedIn ((f.buildSsa env).2.versionsOf d) b := by
  rintro ⟨r, hr, rfl⟩
  have hnot := List.any_eq_false.1 hopen r hr
  rw [isWrittenIn_iff] at hnot
  rw [versionsOf_buildSsa] at hr
  rcases List.mem_append.1 hr with hr | hr
  · exact hnot ⟨rfl, ht.written r hr⟩
  · obtain ⟨phi, hphi, rfl, rfl⟩ := mem_recordsOf.1 hr
    simpa [recordOf] using List.find?_eq_none.1 hnone phi hphi

theorem leftBy_of_joinIn? (ht : f.Tracked env d) {phi : Phi}
    (hjoin : (f.buildSsa env).1.joinIn? d b = some phi)
    (hopen : ((f.buildSsa env).2.versionsOf d).any (isWrittenIn b) = false) :
    leftBy ((f.buildSsa env).2.versionsOf d) b = some phi.place := by
  obtain ⟨hphi, rfl, rfl⟩ := joinIn?_eq_some hjoin
  have hnone : ∀ r ∈ (f.buildSsa env).2.versionsOf phi.declaration, r.block = phi.block →
      ¬ r.IsWritten := fun r hr hb hw =>
    List.any_eq_false.1 hopen r hr (isWrittenIn_iff.2 ⟨hb, hw⟩)
  refine leftBy_of_join (mem_versionsOf_of_phi hphi) hnone fun r hr hb => ?_
  have hr' := hr
  rw [versionsOf_buildSsa] at hr'
  rcases List.mem_append.1 hr' with hr' | hr'
  · exact absurd (ht.written r hr') (hnone r hr hb)
  · obtain ⟨phi', hphi', hdecl, rfl⟩ := mem_recordsOf.1 hr'
    rw [phi_eq_of_block hphi' hphi hdecl hb]

theorem isNumbered_of_lastWritten? {is : List Instr} {p : Place} (h : lastWritten? d is = some p) :
    p.declaration = d ∧ p.cell.version.isNumbered = true := by
  obtain ⟨i, -, hi⟩ := List.mem_filterMap.1 (List.mem_of_getLast? h)
  exact (Instr.written?_eq_some hi).2

/-- The version that leaves a walk is the one that its last recording block leaves. -/
theorem leaving_spec (ht : f.Tracked env d) {walk : List BlockId} {c : Cell}
    (h : (f.buildSsa env).1.leaving (f.buildSsa env).2 d walk = some c) :
    ∃ later q rest place, walk = later ++ q :: rest ∧
      RecordedIn ((f.buildSsa env).2.versionsOf d) q ∧
      (∀ x ∈ later, ¬ RecordedIn ((f.buildSsa env).2.versionsOf d) x) ∧
      leftBy ((f.buildSsa env).2.versionsOf d) q = some place ∧ place.cell = c := by
  induction walk generalizing c with
  | nil => cases h
  | cons b before ih =>
    rw [leaving, reaching] at h
    cases hlast : lastWritten? d ((f.buildSsa env).1.code b) with
    | some p =>
      rw [hlast, Option.map_some, Option.some_or, Option.some.injEq] at h
      obtain ⟨-, hnumbered⟩ := isNumbered_of_lastWritten? hlast
      have hleft : leftBy ((f.buildSsa env).2.versionsOf d) b = some p := by
        rw [versionsOf_buildSsa]
        refine leftBy_append_of_written (fun r hr => ?_) (ht.left b p hlast)
          (isWritten_iff (r := ⟨b, p⟩) |>.2 hnumbered)
        obtain ⟨phi, hphi, -, rfl⟩ := mem_recordsOf.1 hr
        exact not_isWritten_of_phi hphi
      exact ⟨[], b, before, p, rfl, ⟨_, mem_of_leftBy hleft, rfl⟩, by simp, hleft, h⟩
    | none =>
      rw [hlast, Option.map_none, Option.none_or, Option.ite_none_left_eq_some] at h
      obtain ⟨hopens, h⟩ := h
      have hopen : ((f.buildSsa env).2.versionsOf d).any (isWrittenIn b) = false := by
        simpa [opensScope, hlast] using hopens
      rw [afterJoin] at h
      cases hjoin : (f.buildSsa env).1.joinIn? d b with
      | none =>
        rw [hjoin, Option.elim_none] at h
        obtain ⟨later, q, rest, place, rfl, hq, hlater, hleft, hcell⟩ := ih h
        refine ⟨b :: later, q, rest, place, rfl, hq, fun x hx => ?_, hleft, hcell⟩
        rcases List.mem_cons.1 hx with rfl | hx
        · exact not_recordedIn_of_joinIn? ht hjoin hopen
        · exact hlater x hx
      | some phi =>
        rw [hjoin, Option.elim_some, Option.ite_none_right_eq_some] at h
        obtain ⟨-, h⟩ := h
        obtain ⟨c', -, rfl⟩ := Option.map_eq_some_iff.1 h
        have hleft := leftBy_of_joinIn? ht hjoin hopen
        exact ⟨[], b, before, phi.place, rfl, ⟨_, mem_of_leftBy hleft, rfl⟩, by simp, hleft, rfl⟩

/-- A phi takes from the end of a walk the version that leaves it. -/
theorem operand_of_leaving (hf : Unjoined f env) (ht : f.Tracked env d) {p : BlockId}
    {before : List BlockId} (hwalk : Walk f.entry (edgesOf f.blocks) (p :: before)) {c : Cell}
    (hleaving : (f.buildSsa env).1.leaving (f.buildSsa env).2 d (p :: before) = some c) {phi : Phi}
    (hphi : phi ∈ (f.buildSsa env).1.phis) (hdecl : phi.declaration = d)
    (hp : p ∈ f.flow.predecessorsOf phi.block) :
    ∃ operand, phi.operands.get? p = some operand ∧ operand.cell = c := by
  subst hdecl
  obtain ⟨later, q, rest, place, hsplit, hq, hlater, hleft, hcell⟩ := leaving_spec ht hleaving
  exact ⟨place, (get?_operands_of_last hf.flow hf.entry hphi hp hwalk hsplit hq hlater).trans hleft,
    hcell⟩

/-! ## The code of a block -/

theorem edgesOf_eq (hg : f.LaidOut env done g) : edgesOf g.blocks = edgesOf f.blocks := by
  refine Table.ext_get? fun b => ?_
  rw [edgesOf, edgesOf, Table.get?_map, Table.get?_map]
  have hcontains := hg.contains b
  rw [Table.contains, Table.contains] at hcontains
  cases horiginal : f.blocks.get? b with
  | none =>
    rw [horiginal, Option.isSome_none, Option.isSome_eq_false_iff, Option.isNone_iff_eq_none]
      at hcontains
    rw [hcontains]
  | some original =>
    rw [horiginal, Option.isSome_some, Option.isSome_iff_exists] at hcontains
    obtain ⟨final, hfinal⟩ := hcontains
    rw [hfinal, Option.map_some, Option.map_some, (hg.block b original final horiginal hfinal).1]

theorem Body.header {original body : List Instr} (h : f.Body env original body)
    (header : List Instr) : f.Body env (header ++ original) (header ++ body) := by
  refine ⟨fun d hd => ?_, fun pre i post hsplit => ?_⟩
  · rw [List.filterMap_append, List.filterMap_append, h.written d hd]
  · rcases List.append_eq_append_iff.1 hsplit with ⟨mid, rfl, hmid⟩ | ⟨mid, rfl, hmid⟩
    · rcases h.origin mid i post hmid with ⟨j, hj, hdefined⟩ | ⟨phi, hphi, hinit, j, hj, hr⟩
      · exact .inl ⟨j, List.mem_append_right _ hj, hdefined⟩
      · exact .inr ⟨phi, hphi, hinit, j, List.mem_append_right _ hj, hr⟩
    · cases mid with
      | nil =>
        rcases h.origin [] i post (by simpa using hmid.symm) with ⟨j, hj, hdefined⟩ |
          ⟨_, _, _, j, hj, _⟩
        · exact .inl ⟨j, List.mem_append_right _ hj, hdefined⟩
        · cases hj
      | cons k mid =>
        cases hmid
        exact .inl ⟨i, by simp, rfl⟩

theorem tail_nil (hnone : ∀ phi ∈ done, phi.operands.get? b = none) : f.Tail env b done [] := by
  induction done using List.reverseRecOn with
  | nil => exact .nil
  | append_singleton done phi ih =>
    exact (ih fun p hp => hnone p (List.mem_append_left _ hp)).skip (hnone phi (by simp))

/-- What is executed in a block, with the parameters before the entry. -/
theorem LaidOut.code (hf : Unjoined f env) (hg : f.LaidOut env (f.kept env) g) (b : BlockId) :
    f.Laid env b (f.kept env) (f.code b) (g.code b) := by
  rw [Function.code, Function.code, hg.entry, hg.header]
  cases horiginal : f.blocks.get? b with
  | none =>
    have hg' : g.blocks.get? b = none := by
      have hcontains := hg.contains b
      rw [Table.contains, Table.contains, horiginal] at hcontains
      simpa using hcontains
    refine ⟨_, [], by rw [hg']; simp, ⟨fun _ _ => rfl, fun pre i post hsplit => ?_⟩, ?_⟩
    · exact .inl ⟨i, hsplit ▸ by simp, rfl⟩
    · refine tail_nil fun phi hphi => ?_
      by_contra hoperand
      obtain ⟨operand, hget⟩ := Option.ne_none_iff_exists'.1 hoperand
      have hcontains := contains_of_operand hf (mem_kept.1 hphi).1 hget
      rw [Table.contains, horiginal] at hcontains
      cases hcontains
  | some original =>
    have hcontains := hg.contains b
    rw [Table.contains, Table.contains, horiginal, Option.isSome_some, Option.isSome_iff_exists]
      at hcontains
    obtain ⟨final, hfinal⟩ := hcontains
    obtain ⟨-, body, tail, hsplit, hbody, htail⟩ := hg.block b original final horiginal hfinal
    refine ⟨_, tail, ?_, hbody.header _, htail⟩
    rw [hfinal, Option.map_some, Option.getD_some, hsplit, List.append_assoc]

/-! ## From one instruction to the next -/

variable {α : Type} {eval : Instr → Memory α → α} {r : Run α} {before : List BlockId} {c : Cell}

theorem Tracked.declared_buildSsa (hf : Unjoined f env) (ht : f.Tracked env d) :
    d.index < (f.buildSsa env).2.declarations.size := by
  rw [(wellKept_buildSsa hf.records f).2]
  exact ht.declared

theorem declaration_of_leaving (hf : Unjoined f env) (ht : f.Tracked env d) {walk : List BlockId}
    (h : (f.buildSsa env).1.leaving (f.buildSsa env).2 d walk = some c) : c.declaration = d := by
  obtain ⟨-, q, -, place, -, -, -, hleft, rfl⟩ := leaving_spec ht h
  exact (wellKept_buildSsa hf.records f).1.declaration d _ (mem_of_leftBy hleft)

theorem declaration_of_reaching (hf : Unjoined f env) (ht : f.Tracked env d) {is : List Instr}
    (h : (f.buildSsa env).1.reaching (f.buildSsa env).2 d b
      ((f.buildSsa env).1.leaving (f.buildSsa env).2 d before) is = some c) :
    c.declaration = d := by
  rw [reaching] at h
  cases hlast : lastWritten? d is with
  | some p =>
    rw [hlast, Option.map_some, Option.some_or, Option.some.injEq] at h
    exact h ▸ (isNumbered_of_lastWritten? hlast).1
  | none =>
    rw [hlast, Option.map_none, Option.none_or, Option.ite_none_left_eq_some, afterJoin] at h
    cases hjoin : (f.buildSsa env).1.joinIn? d b with
    | none =>
      rw [hjoin, Option.elim_none] at h
      exact declaration_of_leaving hf ht h.2
    | some phi =>
      rw [hjoin, Option.elim_some, Option.ite_none_right_eq_some] at h
      obtain ⟨-, -, h⟩ := h
      obtain ⟨-, -, rfl⟩ := Option.map_eq_some_iff.1 h
      exact (joinIn?_eq_some hjoin).2.2

/-- In the code of a block, only writes define cells of the variable that have been in use. -/
theorem Body.not_defined (hf : Unjoined f env) (ht : f.Tracked env d) {body pre post : List Instr} {i : Instr}
    (hbody : f.Body env (f.code b) body) (hsplit : body = pre ++ i :: post)
    (hwritten : i.written? d = none) {p : Place} (hp : p ∈ i.defined) (hdecl : p.declaration = d) :
    (lastWritten? d pre).isSome = true ∧ p.cell.version.isNumbered = false := by
  have hnumbered := Instr.written?_eq_none.1 hwritten p hp hdecl
  refine ⟨?_, hnumbered⟩
  rcases hbody.origin pre i post hsplit with ⟨j, hj, hdefined⟩ |
    ⟨phi, hphi, hinit, j, hj, r, hr, hrj⟩
  · rw [hdefined] at hp
    rw [ht.numbered b j hj p hp hdecl] at hnumbered
    cases hnumbered
  · rw [hinit.defined] at hp
    simp only [List.mem_cons, List.not_mem_nil, or_false] at hp
    rcases hp with rfl | rfl
    · exact absurd hdecl (hinit.isFree.declaration d (ht.declared_buildSsa hf))
    · subst hdecl
      have hne : j.written? phi.declaration ≠ none := fun hnone => by
        have hfalse := Instr.written?_eq_none.1 hnone _ hrj (hf.records.declaration _ r hr)
        rw [isWritten_iff.1 (ht.written r hr)] at hfalse
        cases hfalse
      obtain ⟨q, hq⟩ := Option.ne_none_iff_exists'.1 hne
      rw [lastWritten?, List.getLast?_isSome]
      exact List.ne_nil_of_mem (List.mem_filterMap.2 ⟨j, hj, hq⟩)

/-- The code of a block keeps what the version that reaches each point holds. -/
theorem Body.memory_eq_latest (hf : Unjoined f env) (ht : f.Tracked env d) {body pre post : List Instr}
    (hbody : f.Body env (f.code b) body) (hsplit : body = pre ++ post)
    (hstart : ∀ c, (f.buildSsa env).1.reaching (f.buildSsa env).2 d b
      ((f.buildSsa env).1.leaving (f.buildSsa env).2 d before) [] = some c →
        r.memory c = r.latest d)
    (hreaching : (f.buildSsa env).1.reaching (f.buildSsa env).2 d b
      ((f.buildSsa env).1.leaving (f.buildSsa env).2 d before) pre = some c) :
    (pre.foldl (Run.step eval) r).memory c = (pre.foldl (Run.step eval) r).latest d := by
  induction pre using List.reverseRecOn generalizing post with
  | nil => exact hstart c hreaching
  | append_singleton pre i ih =>
    rw [List.append_assoc, List.singleton_append] at hsplit
    rw [List.foldl_concat]
    cases hwritten : i.written? d with
    | some p =>
      rw [reaching, lastWritten?_concat_of_some hwritten, Option.map_some, Option.some_or,
        Option.some.injEq] at hreaching
      rw [Run.latest_step_of_written hwritten, hreaching]
    | none =>
      have hdecl := declaration_of_reaching hf ht hreaching
      rw [reaching, lastWritten?_concat_of_none hwritten] at hreaching
      rw [Run.latest_step_of_not_written hwritten, Run.memory_step_of_not_defined, ih hsplit hreaching]
      rintro p hp rfl
      obtain ⟨hsome, hnumbered⟩ := hbody.not_defined hf ht hsplit hwritten hp hdecl
      obtain ⟨q, hq⟩ := Option.isSome_iff_exists.1 hsome
      rw [hq, Option.map_some, Option.some_or, Option.some.injEq] at hreaching
      rw [← hreaching, (isNumbered_of_lastWritten? hq).2] at hnumbered
      cases hnumbered

/-! ## Behind the code of a block -/

/-- What defines only new places changes nothing about variables. -/
theorem step_of_isFree (eval : Instr → Memory α → α) (r : Run α) {i : Instr}
    (hd : d.index < env.declarations.size) (hfree : ∀ p ∈ i.defined, env.IsFree p) :
    i.written? d = none ∧
      ∀ record ∈ env.versionsOf d, (r.step eval i).memory record.place.cell =
        r.memory record.place.cell := by
  refine ⟨Instr.written?_eq_none.2 fun p hp hdecl => ?_, fun record hrecord => ?_⟩
  · exact absurd hdecl ((hfree p hp).declaration d hd)
  · refine Run.memory_step_of_not_defined fun p hp heq => ?_
    exact (hfree p hp).cell d record hrecord (congrArg Cell.id heq.symm)

/-- What holds at the end of a block that the version `c` leaves, once phis have their copies. -/
structure Holds (f : Function) (env : Environment) (d : DeclId) (b : BlockId) (c : Cell)
    (done : List Phi) (r : Run α) : Prop where
  /-- The version holds what was written last. -/
  version : r.memory c = r.latest d
  /-- The phis that take their operand from here do so too. -/
  copied : ∀ phi ∈ done, phi ∈ (f.buildSsa env).1.phis → phi.declaration = d →
    phi.operands.get? b ≠ none → r.memory phi.place.cell = r.latest d

theorem Holds.step_of_isFree {i : Instr} (h : f.Holds env d b c done r)
    (eval : Instr → Memory α → α) (hf : Unjoined f env) (ht : f.Tracked env d)
    (hc : ∃ record ∈ (f.buildSsa env).2.versionsOf d, record.place.cell = c)
    (hfree : ∀ p ∈ i.defined, (f.buildSsa env).2.IsFree p) :
    f.Holds env d b c done (r.step eval i) := by
  obtain ⟨hwritten, hmemory⟩ := Function.step_of_isFree eval r (ht.declared_buildSsa hf) hfree
  refine ⟨?_, fun phi hphi hmem hdecl hoperand => ?_⟩
  · obtain ⟨record, hrecord, rfl⟩ := hc
    rw [hmemory record hrecord, Run.latest_step_of_not_written hwritten, h.version]
  · rw [Run.latest_step_of_not_written hwritten, ← h.copied phi hphi hmem hdecl hoperand]
    exact hmemory (recordOf phi) (hdecl ▸ mem_versionsOf_of_phi hmem)

/-- A store into a phi that has no copies yet. -/
theorem Holds.step_of_isInitial {i : Instr} {phi : Phi} (h : f.Holds env d b c done r)
    (eval : Instr → Memory α → α) (hf : Unjoined f env) (ht : f.Tracked env d)
    (hc : ∃ record ∈ (f.buildSsa env).2.versionsOf d, record.place.cell = c)
    (hphi : phi ∈ (f.buildSsa env).1.phis) (hdone : phi ∉ done) (hne : phi.place.cell ≠ c)
    (hinit : IsInitial (f.buildSsa env).2 phi i) : f.Holds env d b c done (r.step eval i) := by
  have hkeep (record : VersionRecord) (hrecord : record ∈ (f.buildSsa env).2.versionsOf d)
      (hcell : phi.place.cell ≠ record.place.cell) :
      (r.step eval i).memory record.place.cell = r.memory record.place.cell := by
    refine Run.memory_step_of_not_defined fun p hp heq => ?_
    rw [hinit.defined] at hp
    simp only [List.mem_cons, List.not_mem_nil, or_false] at hp
    rcases hp with rfl | rfl
    · exact hinit.isFree.cell d record hrecord (congrArg Cell.id heq.symm)
    · exact hcell heq
  have hwritten := hinit.written? hphi (ht.declared_buildSsa hf)
  refine ⟨?_, fun phi' hphi' hmem hdecl hoperand => ?_⟩
  · obtain ⟨record, hrecord, rfl⟩ := hc
    rw [hkeep record hrecord hne, Run.latest_step_of_not_written hwritten, h.version]
  · rw [Run.latest_step_of_not_written hwritten, ← h.copied phi' hphi' hmem hdecl hoperand]
    refine hkeep (recordOf phi') (hdecl ▸ mem_versionsOf_of_phi hmem) fun hcell => ?_
    rw [phi_eq_of_cell hphi hmem (congrArg Cell.id hcell)] at hdone
    exact hdone hphi'

/-- The copy of the version that leaves the block. -/
theorem Holds.step_of_copy {phi : Phi} {copy : Instr} {value : Place} (h : f.Holds env d b c done r)
    (eval : Instr → Memory α → α) (hf : Unjoined f env) (ht : f.Tracked env d)
    (hc : ∃ record ∈ (f.buildSsa env).2.versionsOf d, record.place.cell = c)
    (hcdecl : c.declaration = d) (hphi : phi ∈ (f.buildSsa env).1.phis)
    (hop : copy.op = .copy phi.place value) (hfree : (f.buildSsa env).2.IsFree copy.place)
    (hvalue : phi.declaration = d → r.memory value.cell = r.latest d) :
    f.Holds env d b c (done ++ [phi]) (r.step eval copy) := by
  have hdefined : copy.defined = [copy.place, phi.place] := by
    simp [Instr.defined, hop, Op.target?]
  have hwritten : copy.written? d = none := by
    obtain ⟨id, hversion⟩ := version_of_phi hphi
    refine Instr.written?_eq_none.2 fun p hp hdecl => ?_
    rw [hdefined] at hp
    simp only [List.mem_cons, List.not_mem_nil, or_false] at hp
    rcases hp with rfl | rfl
    · exact absurd hdecl (hfree.declaration d (ht.declared_buildSsa hf))
    · rw [hversion]
      rfl
  -- the copy writes nothing else than what was written last
  have hkeep (record : VersionRecord) (hrecord : record ∈ (f.buildSsa env).2.versionsOf d)
      (hdecl : record.place.declaration = d)
      (hvalue' : record.place.cell = phi.place.cell ∨ r.memory record.place.cell = r.latest d) :
      (r.step eval copy).memory record.place.cell = (r.step eval copy).latest d := by
    rw [Run.latest_step_of_not_written hwritten]
    by_cases hcell : record.place.cell = phi.place.cell
    · rw [hcell, Run.memory_step_of_defined (by simp [hdefined]), Instr.result, hop]
      refine hvalue ?_
      rw [Phi.declaration, Place.declaration, ← hcell]
      exact hdecl
    · rw [Run.memory_step_of_not_defined, hvalue'.resolve_left hcell]
      intro p hp heq
      rw [hdefined] at hp
      simp only [List.mem_cons, List.not_mem_nil, or_false] at hp
      rcases hp with rfl | rfl
      · exact hfree.cell d record hrecord (congrArg Cell.id heq.symm)
      · exact hcell heq.symm
  refine ⟨?_, fun phi' hphi' hmem hdecl hoperand => ?_⟩
  · obtain ⟨record, hrecord, rfl⟩ := hc
    exact hkeep record hrecord hcdecl (.inr h.version)
  · refine hkeep (recordOf phi') (hdecl ▸ mem_versionsOf_of_phi hmem) hdecl ?_
    rcases List.mem_append.1 hphi' with hphi' | hphi'
    · exact .inr (h.copied phi' hphi' hmem hdecl hoperand)
    · rw [List.mem_singleton.1 hphi']
      exact .inl rfl

/-- A block with versions of its own leaves none that comes from elsewhere. -/
theorem isNumbered_of_leaving (ht : f.Tracked env d)
    (hleaving : (f.buildSsa env).1.leaving (f.buildSsa env).2 d (b :: before) = some c)
    (hrecorded : RecordedIn (env.versionsOf d) b) : c.version.isNumbered = true := by
  rw [leaving, reaching] at hleaving
  cases hlast : lastWritten? d ((f.buildSsa env).1.code b) with
  | some p =>
    rw [hlast, Option.map_some, Option.some_or, Option.some.injEq] at hleaving
    exact hleaving ▸ (isNumbered_of_lastWritten? hlast).2
  | none =>
    obtain ⟨record, hrecord, hb⟩ := hrecorded
    have hopens : (f.buildSsa env).1.opensScope (f.buildSsa env).2 d b = true := by
      rw [opensScope, hlast, Option.isNone_none, Bool.and_true, List.any_eq_true]
      refine ⟨record, ?_, isWrittenIn_iff.2 ⟨hb, ht.written record hrecord⟩⟩
      rw [versionsOf_buildSsa]
      exact List.mem_append_left _ hrecord
    rw [hlast, Option.map_none, Option.none_or, if_pos hopens] at hleaving
    cases hleaving

/-- The tail of a block writes no variable. -/
theorem Tail.written? (hf : Unjoined f env) (ht : f.Tracked env d) {is : List Instr}
    (h : f.Tail env b done is) : ∀ i ∈ is, i.written? d = none := by
  intro i hi
  refine Instr.written?_eq_none.2 fun p hp hdecl => ?_
  rcases h.defined_cases hi hp with hfree | ⟨phi, hphi, rfl, -⟩
  · exact absurd hdecl (hfree.declaration d (ht.declared_buildSsa hf))
  · obtain ⟨id, hversion⟩ := version_of_phi hphi
    rw [hversion]
    rfl

/-- The tail of a block keeps what the version that leaves it holds, and gives it to the phis that take
their operand from here. -/
theorem Tail.holds (hf : Unjoined f env) (ht : f.Tracked env d) {is : List Instr}
    (h : f.Tail env b done is) (hwalk : Walk f.entry (edgesOf f.blocks) (b :: before))
    (hleaving : (f.buildSsa env).1.leaving (f.buildSsa env).2 d (b :: before) = some c)
    (hstart : r.memory c = r.latest d) :
    f.Holds env d b c done (is.foldl (Run.step eval) r) ∧ ∀ pre, pre <+: is →
      (pre.foldl (Run.step eval) r).memory c = (pre.foldl (Run.step eval) r).latest d := by
  have hc : ∃ record ∈ (f.buildSsa env).2.versionsOf d, record.place.cell = c := by
    obtain ⟨-, q, -, place, -, -, -, hleft, hcell⟩ := leaving_spec ht hleaving
    exact ⟨_, mem_of_leftBy hleft, hcell⟩
  have hcdecl := declaration_of_leaving hf ht hleaving
  have hadd {is : List Instr} {i : Instr}
      (hpre : ∀ pre, pre <+: is →
        (pre.foldl (Run.step eval) r).memory c = (pre.foldl (Run.step eval) r).latest d)
      (hlast : ((is ++ [i]).foldl (Run.step eval) r).memory c =
        ((is ++ [i]).foldl (Run.step eval) r).latest d) (pre : List Instr)
      (hfront : pre <+: is ++ [i]) :
      (pre.foldl (Run.step eval) r).memory c = (pre.foldl (Run.step eval) r).latest d := by
    rcases List.prefix_concat_iff.1 hfront with rfl | hfront
    · exact hlast
    · exact hpre pre hfront
  induction h with
  | nil =>
    refine ⟨⟨hstart, by simp⟩, fun pre hfront => ?_⟩
    rw [List.prefix_nil.1 hfront]
    exact hstart
  | @initial done is phi i _ hphi hdone hrec hinit ih =>
    obtain ⟨hholds, hpre⟩ := ih
    have hne : phi.place.cell ≠ c := by
      rintro rfl
      have hnumbered := isNumbered_of_leaving ht hleaving (hcdecl ▸ hrec)
      obtain ⟨id, hversion⟩ := version_of_phi hphi
      rw [hversion] at hnumbered
      cases hnumbered
    have hstep := hholds.step_of_isInitial eval hf ht hc hphi hdone hne hinit
    rw [← List.foldl_concat (Run.step eval) _ _ is] at hstep
    exact ⟨hstep, hadd hpre hstep.version⟩
  | @copy done is phi operand load copy statement _ hphi hoperand hcopy ih =>
    obtain ⟨hholds, hpre⟩ := ih
    have hload : load.defined = [load.place] := by simp [Instr.defined, hcopy.load_op, Op.target?]
    have hstatement : statement.defined = [statement.place] := by
      simp [Instr.defined, hcopy.statement_op, Op.target?]
    have hstep₁ : f.Holds env d b c done ((is.foldl (Run.step eval) r).step eval load) :=
      hholds.step_of_isFree eval hf ht hc (by simpa [hload] using hcopy.load_isFree)
    have hvalue (hdecl : phi.declaration = d) :
        ((is.foldl (Run.step eval) r).step eval load).memory load.place.cell =
          ((is.foldl (Run.step eval) r).step eval load).latest d := by
      obtain ⟨place, hplace, hcell⟩ := operand_of_leaving hf ht hwalk hleaving hphi hdecl
        (mem_predecessorsOf_of_operand hphi hoperand)
      rw [hoperand, Option.some.injEq] at hplace
      have hwritten := (Function.step_of_isFree eval (is.foldl (Run.step eval) r) (i := load)
        (ht.declared_buildSsa hf) (by simpa [hload] using hcopy.load_isFree)).1
      rw [Run.memory_step_of_defined (by simp [hload]), Run.latest_step_of_not_written hwritten,
        ← hholds.version, ← hcell, ← hplace, Instr.result, hcopy.load_op]
      rfl
    have hstep₂ := hstep₁.step_of_copy eval hf ht hc hcdecl hphi hcopy.copy_op hcopy.copy_isFree hvalue
    have hstep₃ := hstep₂.step_of_isFree (i := statement) eval hf ht hc
      (by simpa [hstatement] using hcopy.statement_isFree)
    rw [← List.foldl_concat (Run.step eval) _ _ is] at hstep₁ hstep₂ hstep₃
    rw [← List.foldl_concat (Run.step eval) _ _ (is ++ [load])] at hstep₂ hstep₃
    rw [← List.foldl_concat (Run.step eval) _ _ (is ++ [load] ++ [copy])] at hstep₃
    have hsplit : is ++ [load, copy, statement] = is ++ [load] ++ [copy] ++ [statement] := by simp
    rw [hsplit]
    exact ⟨hstep₃, hadd (hadd (hadd hpre hstep₁.version) hstep₂.version) hstep₃.version⟩
  | skip _ hoperand ih =>
    obtain ⟨hholds, hpre⟩ := ih
    refine ⟨⟨hholds.version, fun phi hphi hmem hdecl hget => ?_⟩, hpre⟩
    rcases List.mem_append.1 hphi with hphi | hphi
    · exact hholds.copied phi hphi hmem hdecl hget
    · exact absurd (List.mem_singleton.1 hphi ▸ hoperand) hget

/-! ## Along walks -/

theorem Body.lastWritten? (hf : Unjoined f env) (ht : f.Tracked env d)
    {original body : List Instr} (h : f.Body env original body) :
    lastWritten? d body = lastWritten? d original := by
  rw [Ir.lastWritten?, Ir.lastWritten?, h.written d (ht.declared_buildSsa hf)]

/-- At the end of a block everything is ready for the next one. -/
theorem Laid.holds (hf : Unjoined f env) (ht : f.Tracked env d) {final : List Instr}
    (h : f.Laid env b done (f.code b) final) (hwalk : Walk f.entry (edgesOf f.blocks) (b :: before))
    (hstart : ∀ c, (f.buildSsa env).1.reaching (f.buildSsa env).2 d b
      ((f.buildSsa env).1.leaving (f.buildSsa env).2 d before) [] = some c →
        r.memory c = r.latest d)
    (hleaving : (f.buildSsa env).1.leaving (f.buildSsa env).2 d (b :: before) = some c) :
    f.Holds env d b c done (final.foldl (Run.step eval) r) := by
  obtain ⟨body, tail, rfl, hbody, htail⟩ := h
  have hreaching := hleaving
  rw [leaving, reaching] at hreaching
  change ((lastWritten? d (f.code b)).map _).or _ = _ at hreaching
  rw [← hbody.lastWritten? hf ht] at hreaching
  rw [List.foldl_append]
  exact (htail.holds hf ht hwalk hleaving
    (hbody.memory_eq_latest hf ht (List.append_nil body).symm hstart hreaching)).1

/-- When a walk comes to a block, the version after its join holds what was written last. -/
theorem LaidOut.memory_arriving (hf : Unjoined f env) (ht : f.Tracked env d)
    (hg : f.LaidOut env (f.kept env) g) (eval : List BlockId → Instr → Memory α → α)
    (start : Memory α) {walk : List BlockId} (hwalk : Walk f.entry (edgesOf f.blocks) walk) :
    ∀ b before, walk = b :: before → ∀ c, (f.buildSsa env).1.reaching (f.buildSsa env).2 d b
      ((f.buildSsa env).1.leaving (f.buildSsa env).2 d before) [] = some c →
        (g.runAlong eval start before).memory c = (g.runAlong eval start before).latest d := by
  induction hwalk with
  | start =>
    rintro b before heq c hreaching
    cases heq
    rw [leaving, reaching, afterJoin] at hreaching
    cases hjoin : (f.buildSsa env).1.joinIn? d f.entry <;> simp [hjoin, Ir.lastWritten?] at hreaching
  | @step block next before hwalk hnext ih =>
    rintro b before' heq c hreaching
    cases heq
    obtain ⟨-, hjoin⟩ : _ ∧ (f.buildSsa env).1.afterJoin d next
        ((f.buildSsa env).1.leaving (f.buildSsa env).2 d (block :: before)) = some c := by
      simpa [reaching, Ir.lastWritten?] using hreaching
    rw [afterJoin] at hjoin
    rw [runAlong]
    cases hphi : (f.buildSsa env).1.joinIn? d next with
    | none =>
      rw [hphi, Option.elim_none] at hjoin
      exact ((hg.code hf block).holds hf ht hwalk (ih block before rfl) hjoin).version
    | some phi =>
      rw [hphi, Option.elim_some, Option.ite_none_right_eq_some] at hjoin
      obtain ⟨hsize, hjoin⟩ := hjoin
      obtain ⟨c', hleaving, rfl⟩ := Option.map_eq_some_iff.1 hjoin
      obtain ⟨hmem, rfl, hdecl⟩ := joinIn?_eq_some hphi
      have hpred : block ∈ f.flow.predecessorsOf phi.block :=
        (mem_predecessorsOf hf.flow).2 ⟨⟨before, hwalk⟩, hnext⟩
      obtain ⟨operand, hoperand, -⟩ := operand_of_leaving hf ht hwalk hleaving hmem hdecl hpred
      exact ((hg.code hf block).holds hf ht hwalk (ih block before rfl) hleaving).copied phi
        (mem_kept.2 ⟨hmem, hsize⟩) hmem hdecl (by simp [hoperand])

/-- On every walk, the cell of the version that reaches a point holds what was last written to the
variable. -/
theorem LaidOut.memory_eq_latest (hf : Unjoined f env) (ht : f.Tracked env d)
    (hg : f.LaidOut env (f.kept env) g) (eval : List BlockId → Instr → Memory α → α)
    (start : Memory α) (hwalk : Walk g.entry (edgesOf g.blocks) (b :: before))
    {pre post : List Instr} (hcode : g.code b = pre ++ post)
    (hreaching : (f.buildSsa env).1.reaching (f.buildSsa env).2 d b
      ((f.buildSsa env).1.leaving (f.buildSsa env).2 d before) pre = some c) :
    (pre.foldl (Run.step (eval (b :: before))) (g.runAlong eval start before)).memory c =
      (pre.foldl (Run.step (eval (b :: before))) (g.runAlong eval start before)).latest d := by
  rw [hg.entry, edgesOf_eq hg] at hwalk
  have hstart := hg.memory_arriving hf ht eval start hwalk b before rfl
  obtain ⟨body, tail, hsplit, hbody, htail⟩ := hg.code hf b
  rw [hcode] at hsplit
  rcases List.append_eq_append_iff.1 hsplit with ⟨rest, hrest, -⟩ | ⟨done, rfl, htail'⟩
  · exact hbody.memory_eq_latest hf ht hrest hstart hreaching
  · have hnone : lastWritten? d done = none := by
      rw [Ir.lastWritten?, List.filterMap_eq_nil_iff.2, List.getLast?_nil]
      exact fun i hi => htail.written? hf ht i (htail' ▸ List.mem_append_left _ hi)
    rw [reaching, lastWritten?_append, hnone, Option.none_or] at hreaching
    have hleaving : (f.buildSsa env).1.leaving (f.buildSsa env).2 d (b :: before) = some c := by
      rw [leaving, reaching]
      change ((Ir.lastWritten? d (f.code b)).map _).or _ = _
      rw [← hbody.lastWritten? hf ht]
      exact hreaching
    rw [List.foldl_append]
    exact (htail.holds hf ht hwalk hleaving
      (hbody.memory_eq_latest hf ht (List.append_nil body).symm hstart hreaching)).2 done
        ⟨post, htail'.symm⟩

end Whittle.Ir.Function
