import Mathlib.Tactic.Common
import Whittle.Proofs.Inline.Expansion

/-!
# Expansions and calls

The expansion of a call does what the call does: it leaves the same world and the same values in all
cells that there were before, except that the result stands in a place of its own.
-/

namespace Whittle.Ir

variable {V W : Type}

/-- Whether a cell belongs to a function. -/
def Environment.owns (env : Environment) (id : FuncId) (c : Cell) : Bool :=
  env.ownerOf c.declaration == some id

theorem Environment.owns_iff {env : Environment} {id : FuncId} {c : Cell} :
    env.owns id c = true ↔ env.ownerOf c.declaration = some id :=
  beq_iff_eq

/-- Whether a cell exists: its number was handed out, and so was its declaration. -/
structure Environment.Has (env : Environment) (c : Cell) : Prop where
  id : c.id.index < env.nextCell.index
  declaration : c.declaration.index < env.declarations.size

/-- The machine shares only cells that exist, and none of a function's own. -/
structure Machine.Shares (M : Machine V W) (env : Environment) (callee : FuncId) : Prop where
  known : ∀ c, M.isShared c = true → env.Has c
  foreign : ∀ c, M.isShared c = true → env.owns callee c = false

/-- New cells are not shared. -/
theorem Machine.Shares.new {M : Machine V W} {env : Environment} {callee : FuncId}
    (h : M.Shares env callee) {c : Cell} (hc : env.nextCell.index ≤ c.id.index) :
    M.isShared c = false := by
  by_contra hshared
  have hlt := (h.known c (by simpa using hshared)).id
  omega

/-- Cells that do not exist yet are undefined, and waiting patterns bind cells that exist.  Those that do
not stand in the callee's own cells bind none of these. -/
structure Moment.Ready (M : Machine V W) (env : Environment) (callee : FuncId) (σ : Moment V W) :
    Prop where
  undefined : ∀ c : Cell, env.nextCell.index ≤ c.id.index → σ.values c = M.undefined
  unbound : ∀ c : Cell, env.nextCell.index ≤ c.id.index → σ.binders c = M.noBinder
  names : ∀ c, ∀ n ∈ (σ.binders c).names,
    env.Has n ∧ (env.owns callee c = false → env.owns callee n = false)

/-! ## Headers of plain names -/

section Bindings

variable {M : Machine V W} {is : List Instr}

theorem step_binding {i : Instr} {name : String} (h : i.op = .binding name) (σ : Moment V W) :
    M.step σ i = σ.withBinder i.place.cell ⟨M.pattern (.binding name) [] [], [i.place.cell]⟩ := by
  unfold Machine.step
  rw [h]
  rfl

/-- Plain names neither change values nor do anything that can be seen. -/
theorem run_bindings_frame (h : ∀ i ∈ is, ∃ name, i.op = .binding name) (σ : Moment V W) :
    (M.run σ is).values = σ.values ∧ (M.run σ is).world = σ.world := by
  induction is generalizing σ with
  | nil => exact ⟨rfl, rfl⟩
  | cons i is ih =>
    obtain ⟨name, hname⟩ := h i List.mem_cons_self
    change (M.run (M.step σ i) is).values = _ ∧ (M.run (M.step σ i) is).world = _
    rw [step_binding hname]
    exact ih (fun j hj => h j (List.mem_cons_of_mem _ hj)) _

/-- A plain name is a pattern that binds its own cell. -/
theorem run_bindings (h : ∀ i ∈ is, ∃ name, i.op = .binding name) (σ : Moment V W) {c : Cell}
    (hc : (∃ i ∈ is, i.place.cell = c) ∨
      ∃ name, σ.binders c = ⟨M.pattern (.binding name) [] [], [c]⟩) :
    ∃ name, (M.run σ is).binders c = ⟨M.pattern (.binding name) [] [], [c]⟩ := by
  induction is generalizing σ with
  | nil => exact hc.resolve_left (by simp)
  | cons i is ih =>
    obtain ⟨name, hname⟩ := h i List.mem_cons_self
    refine ih (fun j hj => h j (List.mem_cons_of_mem _ hj)) (M.step σ i) ?_
    rw [step_binding hname]
    by_cases hic : c = i.place.cell
    · exact .inr ⟨name, by simp [Moment.withBinder, hic]⟩
    · refine hc.imp ?_ ?_
      · rintro ⟨j, hj, hjc⟩
        exact ⟨j, (List.mem_cons.1 hj).resolve_left fun hji => hic (hji ▸ hjc.symm), hjc⟩
      · rintro ⟨name', hname'⟩
        exact ⟨name', by simpa [Moment.withBinder, hic] using hname'⟩

end Bindings

/-- What holds of everything that comes from a list holds of the list that comes from it. -/
theorem forall_of_forall₂ {α β : Type} {R : α → β → Prop} {as : List α} {bs : List β} {Q : β → Prop}
    (h : List.Forall₂ R as bs) (hQ : ∀ a ∈ as, ∀ b, R a b → Q b) : ∀ b ∈ bs, Q b := by
  induction h with
  | nil => simp
  | cons hab _ ih =>
    refine List.forall_mem_cons.2 ⟨hQ _ List.mem_cons_self _ hab, ih fun a ha => ?_⟩
    exact hQ a (List.mem_cons_of_mem _ ha)

/-! ## The expansion beside the call -/

namespace Inlining

/-- A place that the copied part of the callee mentions. -/
def Mentions (inl : Inlining) (p : Place) : Prop :=
  (∃ i ∈ inl.callee.header ++ inl.code, p ∈ i.places) ∨ returned? inl.body = some p

/-- The cells that the callee may touch: those of others, and of its own those that it mentions. -/
def reach (inl : Inlining) (env : Environment) : Set Cell :=
  { k | env.Has k ∧ (env.owns inl.callee.id k = true → ∃ p, inl.Mentions p ∧ p.cell = k) }

variable {inl : Inlining} {env : Environment} {start cells : List Cell} {arguments : List Place}
  {c : Copying} {array : Instr} {header : List Instr} {pattern bind : Instr} {body : List Instr}
  {M : Machine V W} {σ : Moment V W}

namespace Copyable

theorem mem_places (h : inl.Copyable env start) {p : Place} (hp : inl.Mentions p) :
    p ∈ inl.callee.places := by
  rcases hp with ⟨i, hi, hp⟩ | hp
  · refine Function.places_of_instr ?_ hp
    exact (List.mem_append.1 hi).elim mem_of_header h.mem_of_code
  · exact h.mem_of_returned hp

theorem mem_reach (h : inl.Copyable env start) {p : Place} (hp : inl.Mentions p) :
    p.cell ∈ inl.reach env :=
  ⟨⟨(h.logs.has (h.known p (h.mem_places hp))).1, h.declared (h.mem_places hp)⟩, fun _ => ⟨p, hp, rfl⟩⟩

theorem within (h : inl.Copyable env start) {i : Instr} (hi : i ∈ inl.callee.header ++ inl.code) :
    i.Within (inl.reach env) (inl.reach env) := by
  have hmem (p : Place) (hp : p ∈ i.places) : p.cell ∈ inl.reach env := h.mem_reach (.inl ⟨i, hi, hp⟩)
  refine ⟨fun p hp => hmem p ?_, fun p hp => hmem p ?_, fun p hp => hmem p ?_⟩
  · exact List.mem_append_left _ hp
  · exact List.mem_append_right _ hp
  · exact List.mem_append_left _ (Op.targets_subset_reads hp)

theorem param_mem_reach (h : inl.Copyable env start) {p : Place} (hp : p ∈ inl.callee.params) :
    p.cell ∈ inl.reach env := by
  obtain ⟨i, hi, hcell⟩ := h.params p hp
  rw [← hcell]
  exact (h.within (List.mem_append_left _ hi)).defined _ List.mem_cons_self

end Copyable

namespace Expands

theorem cell_of_foreign
    (h : inl.Expands env start cells arguments c array header pattern bind body) {k : Cell}
    (hk : env.Has k) (hown : env.owns inl.callee.id k = false) : c.cell k = k := by
  refine Copying.cell_of_foreign ?_
  rw [h.goes.env.owner _ hk.declaration, h.callee]
  simpa [Environment.owns] using hown

theorem cell_of_own (h : inl.Expands env start cells arguments c array header pattern bind body)
    {k : Cell} (hk : k ∈ inl.reach env) (hown : env.owns inl.callee.id k = true) :
    ∃ q, c.places.get? k.id = some q ∧ c.cell k = q.cell := by
  obtain ⟨p, hp, hcell⟩ := hk.2 hown
  have hcovers : c.Covers p := hp.elim (fun ⟨i, hi, hp⟩ => h.covers i hi p hp) (h.covers_returned p)
  refine hcovers.cell hcell ?_
  rw [h.goes.env.owner _ hk.1.declaration, h.callee]
  exact Environment.owns_iff.1 hown

/-- Counterparts of the callee's own cells are new. -/
theorem nextCell_le (h : inl.Expands env start cells arguments c array header pattern bind body)
    {k : Cell} (hk : k ∈ inl.reach env) (hown : env.owns inl.callee.id k = true) :
    env.nextCell.index ≤ (c.cell k).id.index := by
  obtain ⟨q, hq, hcell⟩ := h.cell_of_own hk hown
  rw [hcell]
  exact h.goes.fresh.new _ q hq

theorem injOn (hcopy : inl.Copyable env start)
    (h : inl.Expands env start cells arguments c array header pattern bind body) :
    Set.InjOn c.cell (inl.reach env) := by
  intro k hk k' hk' heq
  -- a counterpart is new, and a cell of another function was there before
  have hmixed {k k' : Cell} (hk : k ∈ inl.reach env) (hk' : k' ∈ inl.reach env)
      (hown : env.owns inl.callee.id k = true) (hforeign : env.owns inl.callee.id k' = false) :
      c.cell k ≠ c.cell k' := by
    intro heq
    have hnew := h.nextCell_le hk hown
    rw [heq, h.cell_of_foreign hk'.1 hforeign] at hnew
    exact absurd hk'.1.id (Nat.not_lt.2 hnew)
  cases hown : env.owns inl.callee.id k <;> cases hown' : env.owns inl.callee.id k'
  · rwa [h.cell_of_foreign hk.1 hown, h.cell_of_foreign hk'.1 hown'] at heq
  · exact absurd heq.symm (hmixed hk' hk hown' hown)
  · exact absurd heq (hmixed hk hk' hown hown')
  · obtain ⟨q, hq, hcell⟩ := h.cell_of_own hk hown
    obtain ⟨q', hq', hcell'⟩ := h.cell_of_own hk' hown'
    have hid := h.goes.fresh.injective _ q _ q' hq hq' (by rw [← hcell, ← hcell', heq])
    obtain ⟨p, hp, rfl⟩ := hk.2 hown
    obtain ⟨p', hp', rfl⟩ := hk'.2 hown'
    exact (hcopy.known p (hcopy.mem_places hp)).single (hcopy.known p' (hcopy.mem_places hp')) hid

theorem isRenaming (hcopy : inl.Copyable env start)
    (h : inl.Expands env start cells arguments c array header pattern bind body)
    (hM : M.Shares env inl.callee.id) : Renaming M c.cell (inl.reach env) := by
  refine ⟨h.injOn hcopy, fun k hk hshared => ?_, fun k hk hshared => ?_⟩
  · cases hown : env.owns inl.callee.id k with
    | true => exact hM.new (h.nextCell_le hk hown)
    | false => rwa [h.cell_of_foreign hk.1 hown]
  · exact h.cell_of_foreign hk.1 (hM.foreign k hshared)

/-- The places between the copies are not counterparts of anything. -/
theorem cell_ne (h : inl.Expands env start cells arguments c array header pattern bind body)
    {i : Instr} (hi : i ∈ [array, pattern, bind]) {k : Cell} (hk : k ∈ inl.reach env) :
    c.cell k ≠ i.place.cell := by
  intro heq
  cases hown : env.owns inl.callee.id k with
  | true =>
    obtain ⟨q, hq, hcell⟩ := h.cell_of_own hk hown
    refine h.goes.fresh.apart i.place ?_ _ q hq (by rw [← hcell, heq])
    simp only [List.mem_cons, List.not_mem_nil, or_false] at hi ⊢
    rcases hi with rfl | rfl | rfl <;> simp
  | false =>
    have hnew := h.new i hi
    rw [← heq, h.cell_of_foreign hk.1 hown] at hnew
    exact absurd hk.1.id (Nat.not_lt.2 hnew)

/-! The parts of the expansion beside the parts of the call. -/

/-- The values of the arguments, spreads expanded, and the world after that. -/
abbrev given (M : Machine V W) (arguments : List Place) (σ : Moment V W) : List V × W :=
  M.expand (arguments.map fun p => M.read σ p.cell) σ.world

theorem step_array (h : inl.Expands env start cells arguments c array header pattern bind body)
    (hM : M.Shares env inl.callee.id) (σ : Moment V W) :
    M.step σ array = { σ with
      values := fun k => if k = array.place.cell then
        M.array (given M arguments σ).1 (given M arguments σ).2 else σ.values k
      world := (given M arguments σ).2 } := by
  have hshared : M.isShared array.place.cell = false := hM.new (h.new array (by simp))
  simp [Machine.step, h.array_op, Op.manner, Machine.operands, Op.operands, Op.reads, Machine.write,
    Instr.defined, Op.target?, Machine.setAll, Machine.set, hshared]

/-- The array of the arguments is made, and a function begins. -/
theorem mirrors_enter (h : inl.Expands env start cells arguments c array header pattern bind body)
    (hM : M.Shares env inl.callee.id) (hσ : σ.Ready M env inl.callee.id) :
    Mirrors M c.cell (inl.reach env) (inl.reach env) (M.step σ array)
      (M.enter (env.owns inl.callee.id) { σ with world := (given M arguments σ).2 }) := by
  rw [h.step_array hM]
  -- the callee's own cells start undefined, and so do their counterparts, which nothing has written
  refine ⟨rfl, fun k hk _ => ?_, fun k hk => ?_, fun k hk n hn => ?_⟩
  · have hne := h.cell_ne (i := array) (by simp) hk
    cases hown : env.owns inl.callee.id k with
    | true => simp [Machine.enter, hne, hown, hσ.undefined _ (h.nextCell_le hk hown)]
    | false =>
      rw [h.cell_of_foreign hk.1 hown] at hne ⊢
      simp [Machine.enter, hne, hown]
  · cases hown : env.owns inl.callee.id k with
    | true =>
      simp [Machine.enter, hown, hσ.unbound _ (h.nextCell_le hk hown), Machine.noBinder, Binder.map]
    | false =>
      have hnames : (σ.binders k).names.map c.cell = (σ.binders k).names :=
        (List.map_congr_left fun n hn =>
          h.cell_of_foreign (hσ.names k n hn).1 ((hσ.names k n hn).2 hown)).trans (List.map_id _)
      simp [Machine.enter, hown, h.cell_of_foreign hk.1 hown, Binder.map, hnames]
  · cases hown : env.owns inl.callee.id k with
    | true => simp [Machine.enter, hown, Machine.noBinder] at hn
    | false =>
      simp only [Machine.enter, hown, Bool.false_eq_true, if_false] at hn
      obtain ⟨hn, hforeign⟩ := hσ.names k n hn
      exact ⟨hn, by simp [hforeign hown]⟩

theorem header_bindings (hcopy : inl.Copyable env start)
    (h : inl.Expands env start cells arguments c array header pattern bind body) :
    ∀ j ∈ header, ∃ name, j.op = .binding name := by
  refine forall_of_forall₂ h.header fun i hi j hij => ?_
  obtain ⟨name, hname⟩ := hcopy.bindings i hi
  exact ⟨name, by rw [hij.op, hname]; rfl⟩

/-- The pattern of the parameters is an array of plain names. -/
theorem binder_pattern (h : inl.Expands env start cells arguments c array header pattern bind body)
    {τ : Moment V W} (hτ : ∀ p ∈ inl.callee.params, ∃ name,
      τ.binders (c.cell p.cell) = ⟨M.pattern (.binding name) [] [], [c.cell p.cell]⟩) :
    ∃ names : List String, names.length = inl.callee.params.length ∧
      M.binder τ pattern = ⟨M.arrayOf names, inl.callee.params.map fun p => c.cell p.cell⟩ := by
  choose! name hname using hτ
  have htargets : pattern.op.targets = inl.callee.params.map c.place := by
    rw [h.pattern_op, Op.targets, List.flatMap_map, List.map_eq_flatMap]
    rfl
  have hpart (p : Place) (hp : p ∈ inl.callee.params) : τ.binders (c.place p).cell =
      ⟨M.pattern (.binding (name p)) [] [], [c.cell p.cell]⟩ := by
    rw [c.cell_place]
    exact hname p hp
  refine ⟨inl.callee.params.map name, by simp, ?_⟩
  rw [Machine.binder, htargets, List.map_map, List.flatMap_map]
  congr 1
  · have hshapes : (inl.callee.params.map ((fun p => (τ.binders p.cell).shape) ∘ c.place)) =
        (inl.callee.params.map name).map fun name => M.pattern (.binding name) [] [] := by
      rw [List.map_map]
      exact List.map_congr_left fun p hp => congrArg Binder.shape (hpart p hp)
    rw [hshapes, Machine.arrayOf, h.pattern_op]
    simp [Op.skeleton, Op.mapPlaces, Op.mapReads, Copying.onTarget, Machine.operands, Op.operands,
      h.pattern_op, Function.comp_def]
  · rw [List.flatMap_def, List.map_congr_left fun p hp => congrArg Binder.names (hpart p hp)]
    rw [← List.flatMap_def, List.map_eq_flatMap]

/-- The array is taken apart, and the parameters are bound by position. -/
theorem mirrors_bind (hcopy : inl.Copyable env start)
    (h : inl.Expands env start cells arguments c array header pattern bind body)
    (hM : M.Shares env inl.callee.id) (hpositional : M.IsPositional) {τ₁ τ₂ : Moment V W}
    {vs : List V} (hτ : Mirrors M c.cell (inl.reach env) (inl.reach env) τ₁ τ₂)
    (harray : τ₁.values array.place.cell = M.array vs τ₁.world)
    (hparams : ∀ p ∈ inl.callee.params, ∃ name,
      τ₂.binders p.cell = ⟨M.pattern (.binding name) [] [], [p.cell]⟩) :
    Mirrors M c.cell (inl.reach env) (inl.reach env) (M.step (M.step τ₁ pattern) bind)
      (M.setAll τ₂ ((inl.callee.params.map (·.cell)).zip
        (List.takeD inl.callee.params.length vs M.undefined))) := by
  have hcopied : ∀ p ∈ inl.callee.params, ∃ name,
      τ₁.binders (c.cell p.cell) = ⟨M.pattern (.binding name) [] [], [c.cell p.cell]⟩ := by
    intro p hp
    obtain ⟨name, hname⟩ := hparams p hp
    refine ⟨name, ?_⟩
    rw [hτ.binders _ (hcopy.param_mem_reach hp), hname]
    rfl
  -- the pattern is made of the copied names, so that it binds the counterparts of the parameters
  obtain ⟨names, hlength, hbinder⟩ := h.binder_pattern (M := M) hcopied
  have hpattern : M.step τ₁ pattern = τ₁.withBinder pattern.place.cell
      ⟨M.arrayOf names, inl.callee.params.map fun p => c.cell p.cell⟩ := by
    rw [← hbinder]
    simp [Machine.step, h.pattern_op, Op.manner]
  have hown : M.isShared array.place.cell = false := hM.new (h.new array (by simp))
  have hown' : M.isShared bind.place.cell = false := hM.new (h.new bind (by simp))
  rw [hpattern]
  have hstep : M.step (τ₁.withBinder pattern.place.cell
        ⟨M.arrayOf names, inl.callee.params.map fun p => c.cell p.cell⟩) bind =
      M.set (M.setAll (τ₁.withBinder pattern.place.cell
          ⟨M.arrayOf names, inl.callee.params.map fun p => c.cell p.cell⟩)
        ((inl.callee.params.map fun p => c.cell p.cell).zip
          (List.takeD inl.callee.params.length vs M.undefined))) bind.place.cell
        (M.array vs τ₁.world) := by
    have hbound := hpositional names vs τ₁.world
    rw [hlength] at hbound
    simp [Machine.step, h.bind_op, Op.manner, Moment.withBinder, Machine.read, hown, harray, hbound,
      Machine.write, Instr.defined, Op.target?, Machine.setAll]
  rw [hstep]
  have hzip : ((inl.callee.params.map fun p => c.cell p.cell).zip
        (List.takeD inl.callee.params.length vs M.undefined)) =
      ((inl.callee.params.map (·.cell)).zip
        (List.takeD inl.callee.params.length vs M.undefined)).map fun e => (c.cell e.1, e.2) := by
    simp only [List.zip_map_left, List.map_map]
    rfl
  rw [hzip]
  refine Mirrors.set_left (Mirrors.setAll (h.isRenaming hcopy hM) ?_ fun e he => ?_) ?_ hown' _
  · exact hτ.withBinder_left subset_rfl (fun k hk => h.cell_ne (by simp) hk) _
  · obtain ⟨p, hp, hcell⟩ := List.mem_map.1 (List.of_mem_zip he).1
    exact hcell ▸ hcopy.param_mem_reach hp
  · exact fun k hk => h.cell_ne (by simp) hk

/-- The copies of the callee's code mirror it. -/
theorem mirrors_inside (hcopy : inl.Copyable env start)
    (h : inl.Expands env start cells arguments c array header pattern bind body)
    (hM : M.Shares env inl.callee.id) (hpositional : M.IsPositional)
    (hσ : σ.Ready M env inl.callee.id) :
    Mirrors M c.cell (inl.reach env) (inl.reach env)
      (M.run σ (array :: header ++ [pattern, bind] ++ body))
      (M.inside (env.owns inl.callee.id) inl.callee inl.body (given M arguments σ).1
        { σ with world := (given M arguments σ).2 }) := by
  have hρ := h.isRenaming hcopy hM
  have hcopies {is js : List Instr} (hcopies : List.Forall₂ c.IsCopy is js) :
      List.Forall₂ (Instr.Renames c.cell) is js :=
    hcopies.imp fun _ _ hij => hij.renames
  have hheader := (h.mirrors_enter hM hσ).run hρ subset_rfl (hcopies h.header) fun i hi =>
    hcopy.within (List.mem_append_left _ hi)
  obtain ⟨hvalues, hworld⟩ := run_bindings_frame (M := M) (h.header_bindings hcopy) (M.step σ array)
  have harray : (M.run (M.step σ array) header).values array.place.cell =
      M.array (given M arguments σ).1 (M.run (M.step σ array) header).world := by
    rw [hvalues, hworld, h.step_array hM]
    simp
  have hbind := h.mirrors_bind hcopy hM hpositional hheader harray fun p hp =>
    run_bindings hcopy.bindings _ (.inl (hcopy.params p hp))
  have hbody := hbind.run hρ subset_rfl (hcopies h.body) fun i hi =>
    hcopy.within (List.mem_append_right _ hi)
  have hrun : M.run σ (array :: header ++ [pattern, bind] ++ body) =
      M.run (M.step (M.step (M.run (M.step σ array) header) pattern) bind) body := by
    simp [Machine.run]
  rw [hrun]
  exact hbody

/-! What the expansion and the call leave alone. -/

/-- What the expansion reads is new, or another function's. -/
theorem new_or_foreign (h : inl.Expands env start cells arguments c array header pattern bind body)
    {k : Cell} (hk : k ∈ inl.reach env) :
    env.nextCell.index ≤ (c.cell k).id.index ∨ env.owns inl.callee.id (c.cell k) = false := by
  cases hown : env.owns inl.callee.id k with
  | true => exact .inl (h.nextCell_le hk hown)
  | false =>
    rw [h.cell_of_foreign hk.1 hown]
    exact .inr hown

theorem confined (hcopy : inl.Copyable env start)
    (h : inl.Expands env start cells arguments c array header pattern bind body)
    (hσ : σ.Ready M env inl.callee.id) :
    Confined { k | env.nextCell.index ≤ k.id.index }
      { k | env.nextCell.index ≤ k.id.index ∨ env.owns inl.callee.id k = false } σ
      (M.run σ (array :: header ++ [pattern, bind] ++ body)) := by
  have hcopied {is js : List Instr} (his : ∀ i ∈ is, i ∈ inl.callee.header ++ inl.code)
      (hcopies : List.Forall₂ c.IsCopy is js) :
      ∀ j ∈ js, ∀ p ∈ j.defined, env.nextCell.index ≤ p.cell.id.index := by
    refine forall_of_forall₂ hcopies fun i hi j hij p hp => ?_
    obtain ⟨q, hq, rfl⟩ := List.mem_map.1 (Instr.defined_mapPlaces hij.op hij.place ▸ hp)
    rw [c.cell_place]
    have hin : i ∈ inl.callee.instructions :=
      (List.mem_append.1 (his i hi)).elim Copyable.mem_of_header hcopy.mem_of_code
    exact h.nextCell_le ((hcopy.within (his i hi)).defined q hq)
      (Environment.owns_iff.2 (hcopy.owned i hin q hq))
  have hnames (k : Cell) (hk : env.nextCell.index ≤ k.id.index ∨ env.owns inl.callee.id k = false) :
      ∀ n ∈ (σ.binders k).names, env.nextCell.index ≤ n.id.index ∨ env.owns inl.callee.id n = false := by
    intro n hn
    rcases hk with hk | hk
    · rw [hσ.unbound k hk] at hn
      cases hn
    · exact .inr ((hσ.names k n hn).2 hk)
  have hstart : Confined { k | env.nextCell.index ≤ k.id.index }
      { k | env.nextCell.index ≤ k.id.index ∨ env.owns inl.callee.id k = false } σ σ :=
    ⟨hnames, fun _ _ => rfl, fun _ _ => rfl⟩
  refine hstart.run (fun k hk => .inl hk) (fun j hj p hp => ?_) fun j hj p hp => ?_
  · have hnew (hj : j ∈ [array, pattern, bind]) : env.nextCell.index ≤ p.cell.id.index := by
      have hop : j.op.target? = none := by
        simp only [List.mem_cons, List.not_mem_nil, or_false] at hj
        rcases hj with rfl | rfl | rfl
        · rw [h.array_op]; rfl
        · rw [h.pattern_op]; rfl
        · rw [h.bind_op]; rfl
      obtain rfl : p = j.place := by simpa [Instr.defined, hop] using hp
      exact h.new j hj
    simp only [List.cons_append, List.mem_cons, List.mem_append, List.not_mem_nil, or_false] at hj
    rcases hj with rfl | (hj | rfl | rfl) | hj
    · exact hnew (by simp)
    · exact hcopied (fun i hi => List.mem_append_left _ hi) h.header j hj p hp
    · exact hnew (by simp)
    · exact hnew (by simp)
    · exact hcopied (fun i hi => List.mem_append_right _ hi) h.body j hj p hp
  · have htargets {is js : List Instr} (his : ∀ i ∈ is, i ∈ inl.callee.header ++ inl.code)
        (hcopies : List.Forall₂ c.IsCopy is js) : ∀ j ∈ js, ∀ p ∈ j.op.targets,
          env.nextCell.index ≤ p.cell.id.index ∨ env.owns inl.callee.id p.cell = false := by
      refine forall_of_forall₂ hcopies fun i hi j hij p hp => ?_
      rw [hij.op, Op.targets_mapPlaces] at hp
      obtain ⟨q, hq, rfl⟩ := List.mem_map.1 hp
      rw [c.cell_place]
      exact h.new_or_foreign ((hcopy.within (his i hi)).targets q hq)
    simp only [List.cons_append, List.mem_cons, List.mem_append, List.not_mem_nil, or_false] at hj
    rcases hj with rfl | (hj | rfl | rfl) | hj
    · rw [h.array_op] at hp
      cases hp
    · exact htargets (fun i hi => List.mem_append_left _ hi) h.header j hj p hp
    · rw [h.pattern_op] at hp
      obtain ⟨q, hq, rfl⟩ : ∃ q ∈ inl.callee.params, c.place q = p := by simpa [Op.targets] using hp
      rw [c.cell_place]
      exact h.new_or_foreign (hcopy.param_mem_reach hq)
    · rw [h.bind_op] at hp
      obtain rfl : p = pattern.place := by simpa [Op.targets] using hp
      exact .inl (h.new pattern (by simp))
    · exact htargets (fun i hi => List.mem_append_right _ hi) h.body j hj p hp

end Expands

/-- A call leaves the patterns of others alone. -/
theorem binders_inside (hcopy : inl.Copyable env start) (vs : List V) (σ : Moment V W) {k : Cell}
    (hk : env.owns inl.callee.id k = false) :
    (M.inside (env.owns inl.callee.id) inl.callee inl.body vs σ).binders k = σ.binders k := by
  have hstart : Confined { k | env.owns inl.callee.id k = true } Set.univ
      (M.enter (env.owns inl.callee.id) σ) (M.enter (env.owns inl.callee.id) σ) :=
    ⟨fun _ _ _ _ => trivial, fun _ _ => rfl, fun _ _ => rfl⟩
  have hdefined {i : Instr} (hi : i ∈ inl.callee.instructions) (p : Place) (hp : p ∈ i.defined) :
      env.owns inl.callee.id p.cell = true :=
    Environment.owns_iff.2 (hcopy.owned i hi p hp)
  have hheader : Confined { k | env.owns inl.callee.id k = true } Set.univ _
      (M.run (M.enter (env.owns inl.callee.id) σ) inl.callee.header) :=
    hstart.run (Set.subset_univ _) (fun i hi => hdefined (Copyable.mem_of_header hi))
      fun _ _ _ _ => trivial
  have hbody := (hheader.setAll (M := M) ((inl.callee.params.map (·.cell)).zip
    (List.takeD inl.callee.params.length vs M.undefined)) fun _ _ => trivial).run
      (M := M) (Set.subset_univ _) (fun i hi => hdefined (hcopy.mem_of_code hi)) fun _ _ _ _ => trivial
  refine (hbody.binders k (by simp [hk])).trans ?_
  simp [Machine.enter, hk]

theorem binders_leave (hcopy : inl.Copyable env start) (vs : List V) (w : W) (σ : Moment V W) (k : Cell) :
    (σ.leave (env.owns inl.callee.id) (M.inside (env.owns inl.callee.id) inl.callee inl.body vs
      { σ with world := w })).binders k = σ.binders k := by
  cases hown : env.owns inl.callee.id k with
  | true => simp [Moment.leave, hown]
  | false =>
    simp only [Moment.leave, hown, Bool.false_eq_true, if_false]
    exact binders_inside hcopy _ _ hown

/-- All cells that there were before are the same after the expansion and after the call. -/
theorem mirrors_leave (hcopy : inl.Copyable env start)
    (h : inl.Expands env start cells arguments c array header pattern bind body)
    (hM : M.Shares env inl.callee.id) (hpositional : M.IsPositional)
    (hσ : σ.Ready M env inl.callee.id) :
    Mirrors M id { k | env.Has k } { k | env.Has k }
      (M.run σ (array :: header ++ [pattern, bind] ++ body))
      (σ.leave (env.owns inl.callee.id)
        (M.inside (env.owns inl.callee.id) inl.callee inl.body (Expands.given M arguments σ).1
          { σ with world := (Expands.given M arguments σ).2 })) := by
  have hmirrors := h.mirrors_inside hcopy hM hpositional hσ
  have hconfined := h.confined hcopy hσ (M := M)
  refine ⟨hmirrors.world, fun k hk hshared => ?_, fun k hk => ?_, fun k hk n hn => ?_⟩
  · -- the expansion leaves the callee's own cells alone, and the call takes its changes to them back
    cases hown : env.owns inl.callee.id k with
    | true =>
      simp only [Moment.leave, hown, if_true]
      exact hconfined.values k (by simp [hown, Nat.not_le.2 hk.id])
    | false =>
      have hvalue := hmirrors.values k ⟨hk, by simp [hown]⟩ hshared
      rw [h.cell_of_foreign hk hown] at hvalue
      simpa [Moment.leave, hown] using hvalue
  · rw [binders_leave hcopy, Binder.map, List.map_id]
    exact hconfined.binders k (by simp [Nat.not_le.2 hk.id])
  · rw [binders_leave hcopy] at hn
    exact (hσ.names k n hn).1

end Inlining

end Whittle.Ir
