import Mathlib.Tactic.Common
import Whittle.Proofs.Inline.Targets
import Whittle.Proofs.Optimize.Temporaries

/-!
# Where calls come from

Once a call is replaced, every call of the caller is one that it had before or the copy of one of the
callee's, and it calls nothing that the former did not call (`Splice.directCall_replaced`).  That needs
calls whose callee is not itself the result of a call: a result is read somewhere else from then on, so a
call of it may turn into a call of a known function.
-/

namespace Whittle.Ir

/-- No call of a function calls what another call of it has returned. -/
def Function.Uncurried (f : Function) : Prop :=
  ∀ i ∈ f.instructions, ∀ p ∈ i.op.callee?, ∀ j ∈ f.instructions, j.op.callee?.isSome →
    j.place.cell.id ≠ p.cell.id

instance (f : Function) : Decidable f.Uncurried :=
  inferInstanceAs (Decidable (∀ i ∈ f.instructions, ∀ p ∈ i.op.callee?, ∀ j ∈ f.instructions,
    j.op.callee?.isSome → j.place.cell.id ≠ p.cell.id))

/-- No function of a module calls what a call of it has returned. -/
def Module.Uncurried (m : Module) : Prop := ∀ f ∈ m.functions.values, f.Uncurried

instance (m : Module) : Decidable m.Uncurried :=
  inferInstanceAs (Decidable (∀ f ∈ m.functions.values, f.Uncurried))

/-! ## Calls and loads -/

/-- Calls, and the loads that tell what they call. -/
def Op.Directs (op : Op) : Prop := (∃ p, op = .loadLocal p) ∨ op.callee?.isSome

namespace Op

variable {g : Place → Place} {op : Op} {q : Place}

theorem callee?_mapReads (g : Place → Place) (op : Op) : (op.mapReads g).callee? = op.callee?.map g := by
  cases op <;> rfl

theorem mem_reads_of_callee? (h : op.callee? = some q) : q ∈ op.reads := by
  obtain ⟨arguments, rfl⟩ := callee?_eq_some.1 h
  exact List.mem_cons_self

theorem exists_of_mapReads_eq_load (h : op.mapReads g = .loadLocal q) :
    ∃ p, op = .loadLocal p ∧ g p = q := by
  cases op <;> simp_all [mapReads]

theorem Directs.of_callee? (h : op.callee? = some q) : op.Directs := .inr (h ▸ rfl)

theorem Directs.isUnnamed (h : op.Directs) : op.isUnnamed = true := by
  rcases h with ⟨p, rfl⟩ | h
  · rfl
  · cases op <;> simp_all [callee?, Op.isUnnamed]

theorem Directs.of_mapReads (h : (op.mapReads g).Directs) : op.Directs := by
  rcases h with ⟨q, hq⟩ | h
  · obtain ⟨p, rfl, -⟩ := exists_of_mapReads_eq_load hq
    exact .inl ⟨p, rfl⟩
  · rw [callee?_mapReads, Option.isSome_map] at h
    exact .inr h

/-- Calls and loads write no variable. -/
theorem Directs.mapPlaces_eq (h : (op.mapPlaces g).Directs) : op.mapPlaces g = op.mapReads g := by
  cases op with
  | storeLocal | copy => simp [Directs, mapPlaces, mapReads, Copying.onTarget, callee?] at h
  | _ => rfl

end Op

/-! ## Records -/

/-- Only what is defined is recorded, and temporaries are not. -/
theorem versionsOf_recordDefined {env : Environment} {is : List Instr} {d : DeclId}
    (h : ∀ i ∈ is, ∀ p ∈ i.defined, p.declaration = d → env.isTemporary d = true) (block : BlockId) :
    (recordDefined block is env).versionsOf d = env.versionsOf d := by
  have hall : ∀ p ∈ is.flatMap (·.defined), p.declaration = d → env.isTemporary d = true := by
    intro p hp
    obtain ⟨i, hi, hp⟩ := List.mem_flatMap.1 hp
    exact h i hi p hp
  rw [recordDefined]
  generalize is.flatMap (·.defined) = ps at hall
  clear h
  induction ps generalizing env with
  | nil => rfl
  | cons p ps ih =>
    obtain ⟨hp, hps⟩ := List.forall_mem_cons.1 hall
    rw [List.foldl_cons]
    split
    · exact ih hps
    · next hnamed =>
      have hne : d ≠ p.declaration := fun heq => hnamed (heq ▸ hp heq.symm)
      refine Eq.trans (ih hps) ?_
      rw [Environment.versionsOf_record, if_neg hne]

theorem functions_recordDefined (block : BlockId) (is : List Instr) (env : Environment) :
    (recordDefined block is env).functions = env.functions := by
  rw [recordDefined]
  generalize is.flatMap (·.defined) = ps
  induction ps generalizing env with
  | nil => rfl
  | cons p ps ih =>
    rw [List.foldl_cons, ih]
    split <;> rfl

/-- What an expansion ends with gives the call a value. -/
theorem Inlining.eq_of_mem_closing {inl : Inlining} {call j : Instr} (h : j ∈ inl.closing call) :
    j = { call with op := .literal .undefined } := by
  rw [closing] at h
  cases hreturned : returned? inl.body with
  | some _ => simp [hreturned] at h
  | none => simpa [hreturned] using h

namespace Splice

variable {m : Module} {env : Environment} {start : List Cell} (s : Splice m env start)

theorem functions_after : s.after.functions = env.functions := by
  rw [after, functions_recordDefined, s.expands.goes.functions]

/-- What stands in the place of a call defines temporaries, counterparts and the value of the call. -/
theorem defined_code {i : Instr} (hi : i ∈ s.code) {p : Place} (hp : p ∈ i.defined) :
    s.copying.env.isTemporary p.declaration = true ∨ (∃ id, s.copying.places.get? id = some p) ∨
      p = s.call.place := by
  rcases List.mem_append.1 hi with hi | hi
  · have hp : p ∈ s.main.flatMap (·.defined) := List.mem_flatMap.2 ⟨i, hi, hp⟩
    rcases List.mem_append.1 (s.defined_main.mem_iff.1 hp) with hp | hp
    · exact .inl (s.expands.goes.fresh.reserved_known p hp).2
    · exact .inr (.inl (s.exists_of_copied hp))
  · obtain rfl := Inlining.eq_of_mem_closing hi
    exact .inr (.inr (by simpa [Instr.defined, Op.target?] using hp))

/-- Nothing is recorded for declarations that there were before. -/
theorem versionsOf_after (horder : s.caller.InOrder env) {d : DeclId}
    (hd : d.index < env.declarations.size) : s.after.versionsOf d = env.versionsOf d := by
  have hcopied : s.copying.env.versionsOf d = env.versionsOf d := by
    rw [Environment.versionsOf, Environment.versionsOf, s.expands.goes.versions]
  rw [after, versionsOf_recordDefined, hcopied]
  intro i hi p hp heq
  rcases s.defined_code hi hp with htemporary | ⟨id, hid⟩ | rfl
  · exact heq ▸ htemporary
  · have hle := s.expands.goes.fresh.undeclared id p hid
    rw [heq] at hle
    exact absurd hd (Nat.not_lt.2 hle)
  · rw [s.expands.goes.env.temporary d hd, ← heq]
    exact s.isTemporary_call horder

/-! ## Origins -/

/-- What becomes of the reads of the caller. -/
def redirected : Place → Place := redirect s.call.place s.result

/-- An instruction of the caller stays; what it reads is redirected, unless it stands in the header. -/
structure Keeps (i j : Instr) : Prop where
  mem : i ∈ s.caller.instructions
  place : j.place = i.place
  op : j.op = i.op ∨ j.op = i.op.mapReads s.redirected

/-- An instruction of the callee is copied. -/
structure Copies (i j : Instr) : Prop where
  mem : i ∈ s.original
  place : j.place = s.copying.place i.place
  op : j.op = (i.op.mapReads s.copying.place).mapReads s.redirected

/-- The calls and loads of an expansion are copies. -/
theorem exists_copied {j : Instr} (hj : j ∈ s.code) (hop : j.op.Directs) :
    ∃ i ∈ s.original, s.copying.IsCopy i j := by
  have hcopied {is js : List Instr} (hcopies : List.Forall₂ s.copying.IsCopy is js) (hj : j ∈ js) :
      ∃ i ∈ is, s.copying.IsCopy i j := by
    induction hcopies with
    | nil => cases hj
    | cons hij _ ih =>
      obtain rfl | hj := List.mem_cons.1 hj
      · exact ⟨_, List.mem_cons_self, hij⟩
      · obtain ⟨i, hi, hcopy⟩ := ih hj
        exact ⟨i, List.mem_cons_of_mem _ hi, hcopy⟩
  have hnot {op : Op} (heq : j.op = op) : op.Directs := heq ▸ hop
  simp only [code, List.cons_append, List.append_assoc, List.nil_append, List.mem_cons,
    List.mem_append] at hj
  rcases hj with rfl | hj | rfl | rfl | hj | hj
  · exact absurd (hnot s.expands.array_op) (by simp [Op.Directs, Op.callee?])
  · obtain ⟨i, hi, hcopy⟩ := hcopied s.expands.header hj
    exact ⟨i, List.mem_append_left _ hi, hcopy⟩
  · exact absurd (hnot s.expands.pattern_op) (by simp [Op.Directs, Op.callee?])
  · exact absurd (hnot s.expands.bind_op) (by simp [Op.Directs, Op.callee?])
  · obtain ⟨i, hi, hcopy⟩ := hcopied s.expands.body hj
    exact ⟨i, List.mem_append_right _ hi, hcopy⟩
  · have hliteral : j.op = .literal .undefined := by rw [Inlining.eq_of_mem_closing hj]
    exact absurd (hnot hliteral) (by simp [Op.Directs, Op.callee?])

/-- The calls and loads in a block of the new caller. -/
theorem traced_block {b : Block} (hb : b ∈ s.replaced.blocks.values) {j : Instr}
    (hj : j ∈ b.instructions) (hop : j.op.Directs) :
    (∃ i, s.Keeps i j ∧ ∃ b ∈ s.caller.blocks.values, i ∈ b.instructions) ∨ ∃ i, s.Copies i j := by
  obtain ⟨id, hb⟩ := Table.mem_values.1 hb
  rw [replaced, Function.mapBlocks, Table.get?_map] at hb
  obtain ⟨b, hspliced, rfl⟩ := Option.map_eq_some_iff.1 hb
  obtain ⟨i, hi, rfl⟩ := List.mem_map.1 hj
  have hkept {id : BlockId} {b : Block} (hb : s.caller.blocks.get? id = some b)
      (hi : i ∈ b.instructions) : ∃ i', s.Keeps i' (i.mapReads s.redirected) ∧
        ∃ b ∈ s.caller.blocks.values, i' ∈ b.instructions := by
    have hmem : b ∈ s.caller.blocks.values := Table.mem_values.2 ⟨id, hb⟩
    exact ⟨i, ⟨List.mem_append_right _ (List.mem_flatMap.2 ⟨b, hmem, hi⟩), rfl, .inr rfl⟩, b, hmem, hi⟩
  rw [spliced, Function.get?_setBlock] at hspliced
  split at hspliced
  · obtain rfl := Option.some.inj hspliced
    rcases List.mem_append.1 hi with hi | hi
    · rcases List.mem_append.1 hi with hi | hi
      · exact .inl (hkept s.block_mem (List.mem_of_mem_take hi))
      · obtain ⟨i₀, hi₀, hcopy⟩ := s.exists_copied hi hop.of_mapReads
        have hplaces : i.op = i₀.op.mapReads s.copying.place := by
          rw [hcopy.op, Op.Directs.mapPlaces_eq (hcopy.op ▸ hop.of_mapReads)]
        exact .inr ⟨i₀, hi₀, hcopy.place, by rw [← hplaces]; rfl⟩
    · exact .inl (hkept s.block_mem (List.mem_of_mem_drop hi))
  · exact .inl (hkept hspliced hi)

/-- The calls and loads of the new caller. -/
theorem traced {j : Instr} (hj : j ∈ s.replaced.instructions) (hop : j.op.Directs) :
    (∃ i, s.Keeps i j) ∨ ∃ i, s.Copies i j := by
  rcases List.mem_append.1 hj with hj | hj
  · exact .inl ⟨j, List.mem_append_left _ hj, rfl, .inl rfl⟩
  · obtain ⟨b, hb, hj⟩ := List.mem_flatMap.1 hj
    exact (s.traced_block hb hj hop).imp_left fun ⟨i, hkeeps, _⟩ => ⟨i, hkeeps⟩

/-! ## Places -/

theorem isOf_caller (hall : m.AllUse env start) {i : Instr} (hi : i ∈ s.caller.instructions)
    {p : Place} (hp : p ∈ i.places) : p.IsOf start :=
  (hall _ _ s.caller_mem).uses.places (Function.places_of_instr hi hp)

theorem isOf_call (hall : m.AllUse env start) : s.call.place.IsOf start :=
  ((hall _ _ s.caller_mem).uses.blocks _ _ s.block_mem).instructions _ s.call_mem_block _
    s.call.place_mem_places

theorem Keeps.lt_nextCell {s : Splice m env start} {i j : Instr} (h : s.Keeps i j)
    (hall : m.AllUse env start) : j.place.cell.id.index < env.nextCell.index := by
  rw [h.place]
  exact (s.copyable.logs.has (s.isOf_caller hall h.mem i.place_mem_places)).1

theorem get?_original {i : Instr} (hi : i ∈ s.original) :
    s.copying.places.get? i.place.cell.id = some (s.copying.place i.place) :=
  s.owned_original (List.mem_flatMap.2 ⟨i, hi, List.mem_cons_self⟩)

theorem Copies.nextCell_le {s : Splice m env start} {i j : Instr} (h : s.Copies i j) :
    env.nextCell.index ≤ j.place.cell.id.index := by
  rw [h.place]
  exact s.expands.goes.fresh.new _ _ (s.get?_original h.mem)

/-- The counterpart of a place that the callee owns. -/
theorem get?_own {i : Instr} (hi : i ∈ s.original) {p : Place} (hp : p ∈ i.places)
    (howner : env.ownerOf p.declaration = some s.callee.id) :
    s.copying.places.get? p.cell.id = some (s.copying.place p) := by
  refine (s.expands.covers i hi p hp).get?_places ?_
  rw [s.expands.goes.env.owner _ (s.copyable.logs.has (s.isOf_original hi hp)).2, howner,
    s.expands.callee]

theorem place_of_not_own {i : Instr} (hi : i ∈ s.original) {p : Place} (hp : p ∈ i.places)
    (howner : env.ownerOf p.declaration ≠ some s.callee.id) : s.copying.place p = p := by
  refine Copying.place_of_foreign ?_
  rwa [s.expands.goes.env.owner _ (s.copyable.logs.has (s.isOf_original hi hp)).2, s.expands.callee]

theorem redirected_of_ne {p : Place} (h : p.cell.id ≠ s.call.place.cell.id) : s.redirected p = p :=
  redirect_of_ne _ h

/-- New places are not redirected. -/
theorem redirected_of_new (hall : m.AllUse env start) {p : Place}
    (h : env.nextCell.index ≤ p.cell.id.index) : s.redirected p = p := by
  refine s.redirected_of_ne fun heq => ?_
  have hlt := (s.copyable.logs.has (s.isOf_call hall)).1
  rw [← heq] at hlt
  exact absurd hlt (Nat.not_lt.2 h)

/-- Reads are redirected only to places of new declarations. -/
theorem redirected_of_declared {p : Place}
    (h : (s.redirected p).declaration.index < env.declarations.size) : s.redirected p = p := by
  refine redirect_cases (P := fun q => q.declaration.index < env.declarations.size → q = p)
    (fun _ => rfl) (fun q hq hlt => ?_) h
  obtain ⟨p, hp, rfl⟩ := Option.map_eq_some_iff.1 hq
  have howner : s.copying.env.ownerOf p.declaration = some s.copying.callee := by
    rw [s.expands.goes.env.owner _ (s.copyable.declared (s.copyable.mem_of_returned hp)),
      s.expands.callee]
    exact s.copyable.returned p hp
  have hle := s.expands.goes.fresh.undeclared _ _ ((s.expands.covers_returned p hp).get?_places howner)
  exact absurd hlt (Nat.not_lt.2 hle)

/-- Counterparts of places that the callee owns are of new declarations. -/
theorem place_of_declared {i : Instr} (hi : i ∈ s.original) {p : Place} (hp : p ∈ i.places)
    (h : (s.copying.place p).declaration.index < env.declarations.size) : s.copying.place p = p := by
  refine s.place_of_not_own hi hp fun howner => ?_
  have hle := s.expands.goes.fresh.undeclared _ _ (s.get?_own hi hp howner)
  exact absurd h (Nat.not_lt.2 hle)

/-! ## What calls read -/

/-- Calls of the callee stand in its blocks. -/
theorem mem_code_of_call {i : Instr} (hi : i ∈ s.original) {p : Place} (hop : i.op.callee? = some p) :
    i ∈ s.toInlining.code := by
  rcases List.mem_append.1 hi with hi | hi
  · obtain ⟨name, hbinding⟩ := s.copyable.bindings i hi
    rw [hbinding] at hop
    cases hop
  · exact hi

/-- A temporary that the callee's body reads is its own. -/
theorem owner_of_temporary (hcallee : s.callee.InOrder env) {i : Instr} (hi : i ∈ s.toInlining.code)
    {p : Place} (hp : p ∈ i.reads) (htemporary : env.isTemporary p.declaration = true) :
    env.ownerOf p.declaration = some s.callee.id := by
  obtain ⟨b, hb, hib⟩ := List.mem_flatMap.1 hi
  obtain ⟨id, hb⟩ := Table.mem_values.1 (s.copyable.body b hb)
  obtain ⟨before, after, hsplit⟩ := List.append_of_mem hib
  have horder := hcallee.blocks id b hb
  rw [Block.InOrder, hsplit] at horder
  obtain ⟨j, hj, hwrites⟩ : ∃ j ∈ before, p.cell.id ∈ j.writes := by
    simpa using horder.ready.reads p hp htemporary
  obtain ⟨q, hq, hid⟩ := List.mem_map.1 hwrites
  have hmem (j : Instr) (hj : j ∈ b.instructions) : j ∈ s.callee.instructions :=
    List.mem_append_right _ (List.mem_flatMap.2 ⟨b, Table.mem_values.2 ⟨id, hb⟩, hj⟩)
  have hj : j ∈ s.callee.instructions := hmem j (by rw [hsplit]; exact List.mem_append_left _ hj)
  have hplaces {j : Instr} (hj : j ∈ s.callee.instructions) {q : Place} (hq : q ∈ j.places) :
      q.IsOf start := s.copyable.known q (Function.places_of_instr hj hq)
  have hcell : q.cell = p.cell := (hplaces hj (List.mem_append_right _ hq)).single
    (hplaces (hmem i hib) (List.mem_append_left _ hp)) hid
  have howner := s.copyable.owned j hj q hq
  rwa [Place.declaration, hcell] at howner

theorem mem_instructions {i : Instr} (hi : i ∈ s.caller.instructions) : i ∈ m.instructions :=
  List.mem_flatMap.2 ⟨s.caller, Table.mem_values.2 ⟨_, s.caller_mem⟩, hi⟩

/-- What computes a value into an old cell was there before. -/
theorem keeps_of_place {p : Place} (hp : p.cell.id.index < env.nextCell.index) {j : Instr}
    (hj : j ∈ s.replaced.instructions) (hop : j.op.Directs) (hid : j.place.cell.id = p.cell.id) :
    ∃ i, s.Keeps i j := by
  rcases s.traced hj hop with hkeeps | ⟨i, hcopies⟩
  · exact hkeeps
  · have hle := hcopies.nextCell_le
    rw [hid] at hle
    exact absurd hp (Nat.not_lt.2 hle)

/-- What computes the callee of a copied call is the copy of what computes the callee of that call. -/
theorem copies_of_place (hall : m.AllUse env start) (horder : m.InOrder env) {i : Instr}
    (hi : i ∈ s.original) {p : Place} (hcall : i.op.callee? = some p) {j : Instr}
    (hj : j ∈ s.replaced.instructions) (hop : j.op.Directs)
    (hid : j.place.cell.id = (s.redirected (s.copying.place p)).cell.id) :
    ∃ i', s.Copies i' j ∧ i'.place.cell.id = p.cell.id := by
  have hread : p ∈ i.reads := Op.mem_reads_of_callee? hcall
  have hplaces : p ∈ i.places := List.mem_append_left _ hread
  by_cases howner : env.ownerOf p.declaration = some s.callee.id
  · have hget := s.get?_own hi hplaces howner
    have hnew := s.expands.goes.fresh.new _ _ hget
    rw [s.redirected_of_new hall hnew] at hid
    rcases s.traced hj hop with ⟨i', hkeeps⟩ | ⟨i', hcopies⟩
    · have hlt := hkeeps.lt_nextCell hall
      rw [hid] at hlt
      exact absurd hlt (Nat.not_lt.2 hnew)
    · refine ⟨i', hcopies, ?_⟩
      rw [hcopies.place] at hid
      exact s.expands.goes.fresh.injective _ _ _ _ (s.get?_original hcopies.mem) hget hid
  · -- what another function owns is no temporary, and only temporaries are computed or redirected
    exfalso
    have hof : p.IsOf start := s.isOf_original hi hplaces
    have hnamed {q : Place} (hq : q.IsOf start) (htemporary : env.isTemporary q.declaration = true) :
        q.cell.id ≠ p.cell.id := by
      intro heq
      have hcell := hq.single hof heq
      rw [Place.declaration, hcell] at htemporary
      exact howner (s.owner_of_temporary (horder _ _ s.callee_mem) (s.mem_code_of_call hi hcall) hread
        htemporary)
    have hne := hnamed (s.isOf_call hall) (s.isTemporary_call (horder _ _ s.caller_mem))
    rw [s.place_of_not_own hi hplaces howner, s.redirected_of_ne hne.symm] at hid
    obtain ⟨i', hkeeps⟩ := s.keeps_of_place (s.copyable.logs.has hof).1 hj hop hid
    rw [hkeeps.place] at hid
    have hunnamed : i'.op.isUnnamed = true := by
      rcases hkeeps.op with hsame | hreads
      · exact hsame ▸ hop.isUnnamed
      · exact Op.Directs.isUnnamed (Op.Directs.of_mapReads (hreads ▸ hop))
    exact hnamed (s.isOf_caller hall hkeeps.mem i'.place_mem_places)
      (horder.isTemporary_place (s.mem_instructions hkeeps.mem) hunnamed) hid

/-- A call that stays keeps its callee. -/
theorem kept_callee (huncurried : s.caller.Uncurried) {i j : Instr} (h : s.Keeps i j) {q : Place}
    (hop : j.op.callee? = some q) : i.op.callee? = some q := by
  rcases h.op with hsame | hreads
  · rwa [← hsame]
  · rw [hreads, Op.callee?_mapReads] at hop
    obtain ⟨p, hp, rfl⟩ := Option.map_eq_some_iff.1 hop
    have hmem : s.call ∈ s.caller.instructions := List.mem_append_right _
      (List.mem_flatMap.2 ⟨s.block, Table.mem_values.2 ⟨_, s.block_mem⟩, s.call_mem_block⟩)
    have hne := huncurried i h.mem p hp s.call hmem (by rw [s.call_op]; rfl)
    rw [hp, s.redirected_of_ne hne.symm]

/-- A copied call calls the counterpart of what its original calls. -/
theorem copied_callee {i j : Instr} (h : s.Copies i j) {q : Place} (hop : j.op.callee? = some q) :
    ∃ p, i.op.callee? = some p ∧ s.redirected (s.copying.place p) = q := by
  rw [h.op, Op.callee?_mapReads, Op.callee?_mapReads, Option.map_map] at hop
  exact Option.map_eq_some_iff.1 hop

/-! ## Direct calls -/

/-- The direct calls of a function that stays as it was. -/
theorem directCall_of_after (hall : m.AllUse env start) (horder : m.InOrder env) {id : FuncId}
    {f : Function} (hf : m.functions.get? id = some f) {call : Instr} {g : FuncId}
    (h : f.DirectCall s.after call g) : f.DirectCall env call g := by
  obtain ⟨hblock, p, hop, load, hload, source, hsource, hid, hg, hlength⟩ := h
  have hof : source.IsOf start := (hall id f hf).uses.places
    (Function.places_of_instr hload (List.mem_append_left _ (by simp [Instr.reads, hsource, Op.reads])))
  rw [s.functions_after] at hg
  rw [s.versionsOf_after (horder _ _ s.caller_mem) (s.copyable.logs.has hof).2] at hlength
  exact ⟨hblock, p, hop, load, hload, source, hsource, hid, hg, hlength⟩

section Calls

variable (horder : m.InOrder env)
  (hbound : ∀ d, env.functions.contains d = true → d.index < env.declarations.size)

include horder hbound

/-- What an old place of the new caller designates, it did before. -/
theorem designates_of_keeps {p : Place} (hp : p.cell.id.index < env.nextCell.index) {g : FuncId}
    (h : s.replaced.Designates s.after p g) : s.caller.Designates env p g := by
  obtain ⟨load, hload, source, hsource, hid, hg, hlength⟩ := h
  rw [s.functions_after] at hg
  have hdeclared := hbound _ (Table.contains_iff.2 ⟨g, hg⟩)
  rw [s.versionsOf_after (horder _ _ s.caller_mem) hdeclared] at hlength
  obtain ⟨i, hkeeps⟩ := s.keeps_of_place hp hload (.inl ⟨source, hsource⟩) hid
  refine ⟨i, hkeeps.mem, source, ?_, hkeeps.place ▸ hid, hg, hlength⟩
  rcases hkeeps.op with hsame | hreads
  · rw [← hsame, hsource]
  · obtain ⟨q, hq, rfl⟩ := Op.exists_of_mapReads_eq_load (hreads ▸ hsource)
    rw [hq, s.redirected_of_declared hdeclared]

/-- What the callee of a copied call designates, the callee of that call does. -/
theorem designates_of_copies (hall : m.AllUse env start) {i : Instr} (hi : i ∈ s.original) {p : Place}
    (hcall : i.op.callee? = some p) {g : FuncId}
    (h : s.replaced.Designates s.after (s.redirected (s.copying.place p)) g) :
    s.callee.Designates env p g := by
  obtain ⟨load, hload, source, hsource, hid, hg, hlength⟩ := h
  rw [s.functions_after] at hg
  have hdeclared := hbound _ (Table.contains_iff.2 ⟨g, hg⟩)
  rw [s.versionsOf_after (horder _ _ s.caller_mem) hdeclared] at hlength
  obtain ⟨i', hcopies, hid'⟩ := s.copies_of_place hall horder hi hcall hload (.inl ⟨source, hsource⟩) hid
  refine ⟨i', s.mem_callee hcopies.mem, source, ?_, hid', hg, hlength⟩
  obtain ⟨q', hq', rfl⟩ := Op.exists_of_mapReads_eq_load (hcopies.op ▸ hsource)
  obtain ⟨q, hq, rfl⟩ := Op.exists_of_mapReads_eq_load hq'
  have hsame := s.redirected_of_declared hdeclared
  rw [hsame] at hdeclared ⊢
  have hplaces : q ∈ i'.places := List.mem_append_left _ (by simp [Instr.reads, hq, Op.reads])
  rw [hq, s.place_of_declared hcopies.mem hplaces hdeclared]

/-- A direct call of the new caller was one before, or it is the copy of a direct call of the callee. -/
theorem directCall_replaced (hall : m.AllUse env start) (huncurried : s.caller.Uncurried) {call : Instr}
    {g : FuncId} (h : s.replaced.DirectCall s.after call g) :
    (call.place.cell.id.index < env.nextCell.index ∧
        ∃ i, i.place = call.place ∧ s.caller.DirectCall env i g) ∨
      (env.nextCell.index ≤ call.place.cell.id.index ∧ ∃ i, s.callee.DirectCall env i g) := by
  obtain ⟨⟨b, hb, hmem⟩, q, hop, hdesignates⟩ := h
  rcases s.traced_block hb hmem (.of_callee? hop) with ⟨i, hkeeps, hblock⟩ | ⟨i, hcopies⟩
  · have hi := s.kept_callee huncurried hkeeps hop
    have hof : q.IsOf start :=
      s.isOf_caller hall hkeeps.mem (List.mem_append_left _ (Op.mem_reads_of_callee? hi))
    exact .inl ⟨hkeeps.lt_nextCell hall, i, hkeeps.place.symm, hblock, q, hi,
      s.designates_of_keeps horder hbound (s.copyable.logs.has hof).1 hdesignates⟩
  · obtain ⟨p, hi, rfl⟩ := s.copied_callee hcopies hop
    obtain ⟨b, hb, hib⟩ := List.mem_flatMap.1 (s.mem_code_of_call hcopies.mem hi)
    exact .inr ⟨hcopies.nextCell_le, i, ⟨b, s.copyable.body b hb, hib⟩, p, hi,
      s.designates_of_copies horder hbound hall hcopies.mem hi hdesignates⟩

end Calls

/-- Inlining makes no call of what a call has returned. -/
theorem uncurried_replaced (hall : m.AllUse env start) (horder : m.InOrder env)
    (hcaller : s.caller.Uncurried) (hcallee : s.callee.Uncurried) : s.replaced.Uncurried := by
  intro i hi q hop j hj hcall hid
  obtain ⟨q', hop'⟩ := Option.isSome_iff_exists.1 hcall
  rcases s.traced hi (.of_callee? hop) with ⟨i₀, hkeeps⟩ | ⟨i₀, hcopies⟩
  · have hi₀ := s.kept_callee hcaller hkeeps hop
    have hof : q.IsOf start :=
      s.isOf_caller hall hkeeps.mem (List.mem_append_left _ (Op.mem_reads_of_callee? hi₀))
    obtain ⟨j₀, hkeeps'⟩ := s.keeps_of_place (s.copyable.logs.has hof).1 hj (.of_callee? hop') hid
    have hj₀ := s.kept_callee hcaller hkeeps' hop'
    exact hcaller i₀ hkeeps.mem q hi₀ j₀ hkeeps'.mem (hj₀ ▸ rfl) (hkeeps'.place ▸ hid)
  · obtain ⟨p, hi₀, rfl⟩ := s.copied_callee hcopies hop
    obtain ⟨j₀, hcopies', hid'⟩ :=
      s.copies_of_place hall horder hcopies.mem hi₀ hj (.of_callee? hop') hid
    obtain ⟨p', hj₀, -⟩ := s.copied_callee hcopies' hop'
    exact hcallee i₀ (s.mem_callee hcopies.mem) p hi₀ j₀ (s.mem_callee hcopies'.mem) (hj₀ ▸ rfl) hid'

end Splice

end Whittle.Ir
