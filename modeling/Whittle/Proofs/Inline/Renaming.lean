import Mathlib.Data.Set.Function
import Mathlib.Tactic.Common
import Whittle.Proofs.Inline.Machine

/-!
# Renamed cells

Execution does not depend on which cells code uses, as long as different ones stay different and the
shared ones stay what they are.  Code whose cells are renamed goes through the same worlds and puts the
same values into the renamed cells (`Mirrors.run`), and code that keeps to certain cells leaves the
others alone (`Confined.run`).
-/

namespace Whittle.Ir

/-! ## Operations with other places -/

namespace PatternProperty

theorem target_mapReads (g : Place → Place) (p : PatternProperty) :
    (p.mapReads g).target = g p.target := by
  cases p <;> rfl

theorem operands_mapReads (g : Place → Place) (p : PatternProperty) :
    (p.mapReads g).operands = p.operands.map g := by
  cases p with
  | keyValue key value => exact Key.reads_mapReads g key
  | rest place => rfl

theorem target_mem_reads (p : PatternProperty) : p.target ∈ p.reads := by
  cases p <;> simp [target, reads]

theorem operands_subset_reads (p : PatternProperty) : p.operands ⊆ p.reads := by
  cases p <;> simp [operands, reads]

end PatternProperty

namespace Op

variable (g : Place → Place) (op : Op)

theorem manner_mapPlaces : (op.mapPlaces g).manner = op.manner.map g := by
  cases op <;> rfl

theorem target?_mapPlaces : (op.mapPlaces g).target? = op.target?.map g := by
  cases op <;> rfl

theorem reads_mapPlaces : (op.mapPlaces g).reads = op.reads.map g := by
  rw [← reads_mapReads]
  cases op <;> rfl

theorem targets_mapPlaces : (op.mapPlaces g).targets = op.targets.map g := by
  cases op with
  | arrayPattern elements =>
    change (elements.map (Option.map g)).flatMap Option.toList = _
    rw [List.flatMap_map, targets, List.map_flatMap]
    exact congrArg (elements.flatMap ·) (funext fun e => by cases e <;> rfl)
  | objectPattern properties =>
    change (properties.map (PatternProperty.mapReads g)).map (·.target) = _
    simp [targets, PatternProperty.target_mapReads]
  | _ => rfl

theorem operands_mapPlaces : (op.mapPlaces g).operands = op.operands.map g := by
  have hreads := reads_mapReads g op
  cases op with
  | objectPattern properties =>
    change (properties.map (PatternProperty.mapReads g)).flatMap (·.operands) = _
    rw [List.flatMap_map, operands, List.map_flatMap]
    exact congrArg (properties.flatMap ·) (funext (PatternProperty.operands_mapReads g))
  | arrayPattern | rest | defaultPattern | destructure | storeLocal | copy => rfl
  | _ => exact hreads

theorem skeleton_mapPlaces : (op.mapPlaces g).skeleton = op.skeleton := by
  have hkey (key : Key) : (key.mapReads g).mapReads (fun _ => default) =
      key.mapReads fun _ => default := by
    cases key <;> rfl
  cases op with
  | arrayPattern elements =>
    change arrayPattern ((elements.map (Option.map g)).map _) = arrayPattern (elements.map _)
    rw [List.map_map]
    exact congrArg (fun f => arrayPattern (elements.map f)) (funext fun e => by cases e <;> rfl)
  | objectPattern properties =>
    change objectPattern ((properties.map _).map _) = objectPattern (properties.map _)
    rw [List.map_map]
    refine congrArg (fun f => objectPattern (properties.map f)) (funext fun p => ?_)
    cases p <;> simp [PatternProperty.mapReads, hkey]
  | object properties =>
    change object ((properties.map _).map _) = object (properties.map _)
    rw [List.map_map]
    refine congrArg (fun f => object (properties.map f)) (funext fun p => ?_)
    cases p <;> simp [Property.mapReads, hkey]
  | call | construct | array | importDeclaration | exportNames | unsupported =>
    simp [skeleton, mapPlaces, Copying.onTarget, mapReads, Function.comp_def]
  | _ => rfl

variable {g op}

theorem targets_subset_reads : op.targets ⊆ op.reads := by
  cases op with
  | objectPattern properties =>
    intro p hp
    obtain ⟨property, hproperty, rfl⟩ := List.mem_map.1 hp
    exact List.mem_flatMap.2 ⟨property, hproperty, property.target_mem_reads⟩
  | _ => simp [targets, reads]

theorem operands_subset_reads : op.operands ⊆ op.reads := by
  cases op with
  | objectPattern properties =>
    intro p hp
    obtain ⟨property, hproperty, hp⟩ := List.mem_flatMap.1 hp
    exact List.mem_flatMap.2 ⟨property, hproperty, property.operands_subset_reads hp⟩
  | _ => simp [operands, reads]

theorem mem_reads_of_move {value : Place} (h : op.manner = .move value) : value ∈ op.reads := by
  cases op <;> simp_all [manner, reads]

theorem mem_of_destructure {pattern value : Place} (h : op.manner = .destructure pattern value) :
    pattern ∈ op.targets ∧ value ∈ op.reads := by
  cases op <;> simp_all [manner, targets, reads]

end Op

/-- What an instruction defines with its places replaced. -/
theorem Instr.defined_mapPlaces {g : Place → Place} {i j : Instr} (hop : j.op = i.op.mapPlaces g)
    (hplace : j.place = g i.place) : j.defined = i.defined.map g := by
  rw [defined, hop, hplace, Op.target?_mapPlaces, defined, List.map_cons]
  cases i.op.target? <;> rfl

/-! ## Mirrored execution -/

variable {V W : Type}

/-- A renaming that leaves shared cells alone and keeps the cells in `D` apart. -/
structure Renaming (M : Machine V W) (ρ : Cell → Cell) (D : Set Cell) : Prop where
  injOn : Set.InjOn ρ D
  own : ∀ c ∈ D, M.isShared c = false → M.isShared (ρ c) = false
  shared : ∀ c ∈ D, M.isShared c = true → ρ c = c

/-- An instruction whose cells are those of another, renamed. -/
structure Instr.Renames (ρ : Cell → Cell) (i j : Instr) : Prop where
  copy : ∃ g : Place → Place,
    (∀ p, (g p).cell = ρ p.cell) ∧ j.op = i.op.mapPlaces g ∧ j.place = g i.place

/-- An instruction that reads cells in `D`, and defines and takes for patterns cells in `P`. -/
structure Instr.Within (D P : Set Cell) (i : Instr) : Prop where
  reads : ∀ p ∈ i.reads, p.cell ∈ D
  defined : ∀ p ∈ i.defined, p.cell ∈ P
  targets : ∀ p ∈ i.op.targets, p.cell ∈ P

/-- Two moments that are the same up to a renaming: the cells in `D` hold the same values, those in
`P` the same patterns. -/
structure Mirrors (M : Machine V W) (ρ : Cell → Cell) (D P : Set Cell) (σ₁ σ₂ : Moment V W) :
    Prop where
  world : σ₁.world = σ₂.world
  values : ∀ c ∈ D, M.isShared c = false → σ₁.values (ρ c) = σ₂.values c
  binders : ∀ c ∈ P, σ₁.binders (ρ c) = (σ₂.binders c).map ρ
  names : ∀ c ∈ P, ∀ n ∈ (σ₂.binders c).names, n ∈ D

namespace Mirrors

variable {M : Machine V W} {ρ : Cell → Cell} {D P : Set Cell} {σ₁ σ₂ : Moment V W}

theorem withWorld (h : Mirrors M ρ D P σ₁ σ₂) (w : W) :
    Mirrors M ρ D P { σ₁ with world := w } { σ₂ with world := w } :=
  ⟨rfl, h.values, h.binders, h.names⟩

theorem read (hρ : Renaming M ρ D) (h : Mirrors M ρ D P σ₁ σ₂) {c : Cell} (hc : c ∈ D) :
    M.read σ₁ (ρ c) = M.read σ₂ c := by
  cases hshared : M.isShared c with
  | true => simp [Machine.read, hρ.shared c hc hshared, hshared, h.world]
  | false => simp [Machine.read, hρ.own c hc hshared, hshared, h.values c hc hshared]

theorem set (hρ : Renaming M ρ D) (h : Mirrors M ρ D P σ₁ σ₂) {c : Cell} (hc : c ∈ D) (v : V) :
    Mirrors M ρ D P (M.set σ₁ (ρ c) v) (M.set σ₂ c v) := by
  cases hshared : M.isShared c with
  | true =>
    simp only [Machine.set, hρ.shared c hc hshared, hshared, if_true, h.world]
    exact h.withWorld _
  | false =>
    simp only [Machine.set, hρ.own c hc hshared, hshared, Bool.false_eq_true, if_false]
    refine ⟨h.world, fun c' hc' hshared' => ?_, h.binders, h.names⟩
    by_cases heq : c' = c
    · simp [heq]
    · have hne : ρ c' ≠ ρ c := fun hρc => heq (hρ.injOn hc' hc hρc)
      simpa [heq, hne] using h.values c' hc' hshared'

theorem setAll (hρ : Renaming M ρ D) {pairs : List (Cell × V)} (h : Mirrors M ρ D P σ₁ σ₂)
    (hpairs : ∀ e ∈ pairs, e.1 ∈ D) :
    Mirrors M ρ D P (M.setAll σ₁ (pairs.map fun e => (ρ e.1, e.2))) (M.setAll σ₂ pairs) := by
  induction pairs generalizing σ₁ σ₂ with
  | nil => exact h
  | cons e pairs ih =>
    have hset := h.set hρ (hpairs e List.mem_cons_self) e.2
    exact ih hset fun e' he' => hpairs e' (List.mem_cons_of_mem _ he')

theorem withBinder (hρ : Renaming M ρ D) (hP : P ⊆ D) (h : Mirrors M ρ D P σ₁ σ₂) {c : Cell}
    (hc : c ∈ P) {b : Binder V} (hb : ∀ n ∈ b.names, n ∈ D) :
    Mirrors M ρ D P (σ₁.withBinder (ρ c) (b.map ρ)) (σ₂.withBinder c b) := by
  refine ⟨h.world, h.values, fun c' hc' => ?_, fun c' hc' => ?_⟩
  · by_cases heq : c' = c
    · simp [Moment.withBinder, heq]
    · have hne : ρ c' ≠ ρ c := fun hρc => heq (hρ.injOn (hP hc') (hP hc) hρc)
      simpa [Moment.withBinder, heq, hne] using h.binders c' hc'
  · by_cases heq : c' = c
    · simpa [Moment.withBinder, heq] using hb
    · simpa [Moment.withBinder, heq] using h.names c' hc'

variable {i j : Instr}

theorem write (hρ : Renaming M ρ D) (hP : P ⊆ D) (h : Mirrors M ρ D P σ₁ σ₂) (hij : i.Renames ρ j)
    (hi : i.Within D P) (v : V) : Mirrors M ρ D P (M.write σ₁ j v) (M.write σ₂ i v) := by
  obtain ⟨g, hg, hop, hplace⟩ := hij.copy
  have hpairs : (j.defined.map fun p => (p.cell, v)) =
      (i.defined.map fun p => (p.cell, v)).map fun e => (ρ e.1, e.2) := by
    rw [Instr.defined_mapPlaces hop hplace, List.map_map, List.map_map]
    exact List.map_congr_left fun p _ => by simp [hg]
  rw [Machine.write, hpairs]
  refine h.setAll hρ fun e he => ?_
  obtain ⟨p, hp, rfl⟩ := List.mem_map.1 he
  exact hP (hi.defined p hp)

theorem map_operands (hi : i.Within D P) {g : Place → Place} (hop : j.op = i.op.mapPlaces g)
    {α : Type} {f f' : Place → α} (hf : ∀ p : Place, p.cell ∈ D → f (g p) = f' p) :
    j.op.operands.map f = i.op.operands.map f' := by
  rw [hop, Op.operands_mapPlaces, List.map_map]
  exact List.map_congr_left fun p hp => hf p (hi.reads p (Op.operands_subset_reads hp))

theorem operands (hρ : Renaming M ρ D) (h : Mirrors M ρ D P σ₁ σ₂) (hij : i.Renames ρ j)
    (hi : i.Within D P) : M.operands σ₁ j = M.operands σ₂ i := by
  obtain ⟨g, hg, hop, -⟩ := hij.copy
  exact map_operands hi hop fun p hp => by rw [hg, h.read hρ hp]

theorem seen (hρ : Renaming M ρ D) (h : Mirrors M ρ D P σ₁ σ₂) (hij : i.Renames ρ j)
    (hi : i.Within D P) : j.op.operands.map (M.see σ₁) = i.op.operands.map (M.see σ₂) := by
  obtain ⟨g, hg, hop, -⟩ := hij.copy
  refine map_operands hi hop fun p hp => ?_
  rw [Machine.see, Machine.see, hg, h.read hρ hp]
  cases hshared : M.isShared p.cell with
  | true => rw [hρ.shared _ hp hshared, hshared]
  | false =>
    rw [hρ.own _ hp hshared]
    rfl

/-- Patterns are built from mirrored parts in the same way. -/
theorem binder (hρ : Renaming M ρ D) (h : Mirrors M ρ D P σ₁ σ₂) (hij : i.Renames ρ j)
    (hi : i.Within D P) :
    M.binder σ₁ j = (M.binder σ₂ i).map ρ ∧ ∀ n ∈ (M.binder σ₂ i).names, n ∈ D := by
  have hoperands := h.operands hρ hij hi
  obtain ⟨g, hg, hop, -⟩ := hij.copy
  have hpart (p : Place) (hp : p ∈ i.op.targets) :
      σ₁.binders (g p).cell = (σ₂.binders p.cell).map ρ := by
    rw [hg]
    exact h.binders _ (hi.targets p hp)
  refine ⟨?_, fun n hn => ?_⟩
  · rw [Machine.binder, Machine.binder, Binder.map, hoperands, hop, Op.skeleton_mapPlaces,
      Op.targets_mapPlaces, List.map_map, List.flatMap_map, List.map_flatMap]
    congr 1
    · refine congrArg (fun shapes => M.pattern _ shapes _) (List.map_congr_left fun p hp => ?_)
      exact (congrArg Binder.shape (hpart p hp) : _ = ((σ₂.binders p.cell).map ρ).shape)
    · simp only [List.flatMap_def]
      exact congrArg List.flatten <| List.map_congr_left fun p hp =>
        congrArg Binder.names (hpart p hp)
  · obtain ⟨p, hp, hn⟩ := List.mem_flatMap.1 hn
    exact h.names _ (hi.targets p hp) n hn

/-- One instruction. -/
theorem step (hρ : Renaming M ρ D) (hP : P ⊆ D) (h : Mirrors M ρ D P σ₁ σ₂) (hij : i.Renames ρ j)
    (hi : i.Within D P) : Mirrors M ρ D P (M.step σ₁ j) (M.step σ₂ i) := by
  obtain ⟨g, hg, hop, hplace⟩ := hij.copy
  have hown : i.place.cell ∈ P := hi.defined _ List.mem_cons_self
  have hcell : j.place.cell = ρ i.place.cell := by rw [hplace, hg]
  have hmanner : j.op.manner = i.op.manner.map g := by rw [hop, Op.manner_mapPlaces]
  have hskeleton : j.op.skeleton = i.op.skeleton := by rw [hop, Op.skeleton_mapPlaces]
  unfold Machine.step
  rw [hmanner]
  -- both sides treat cells in the same manner; what differs are the cells
  cases hi' : i.op.manner with
  | move value =>
    have hvalue := h.read hρ (hi.reads _ (Op.mem_reads_of_move hi'))
    simp only [Manner.map, hg, hvalue]
    exact h.write hρ hP hij hi _
  | literal value => exact h.write hρ hP hij hi _
  | array =>
    simp only [Manner.map, h.operands hρ hij hi, h.world]
    exact (h.withWorld _).write hρ hP hij hi _
  | name =>
    simp only [Manner.map, hcell, hskeleton]
    exact h.withBinder hρ hP hown (b := ⟨_, [i.place.cell]⟩) (by simpa using hP hown)
  | compose =>
    obtain ⟨hbinder, hnames⟩ := h.binder hρ hij hi
    simp only [Manner.map, hcell, hbinder]
    exact h.withBinder hρ hP hown hnames
  | destructure pattern value =>
    obtain ⟨htarget, hread⟩ := Op.mem_of_destructure hi'
    have hvalue := h.read hρ (hi.reads _ hread)
    have hbinder := h.binders _ (hi.targets _ htarget)
    simp only [Manner.map, hg, hvalue, hbinder, Binder.map, h.world, List.zip_map_left]
    refine ((h.withWorld _).setAll hρ fun e he => ?_).write hρ hP hij hi _
    exact h.names _ (hi.targets _ htarget) _ (List.of_mem_zip he).1
  | compute =>
    simp only [Manner.map, hskeleton, h.seen hρ hij hi, h.world]
    exact (h.withWorld _).write hρ hP hij hi _

/-- Renamed code mirrors the code that it comes from. -/
theorem run (hρ : Renaming M ρ D) (hP : P ⊆ D) {is js : List Instr} (h : Mirrors M ρ D P σ₁ σ₂)
    (hcopies : List.Forall₂ (Instr.Renames ρ) is js) (hwithin : ∀ i ∈ is, i.Within D P) :
    Mirrors M ρ D P (M.run σ₁ js) (M.run σ₂ is) := by
  induction hcopies generalizing σ₁ σ₂ with
  | nil => exact h
  | cons hij _ ih =>
    have hstep := h.step hρ hP hij (hwithin _ List.mem_cons_self)
    exact ih hstep fun i hi => hwithin i (List.mem_cons_of_mem _ hi)

/-! Writing elsewhere is not noticed. -/

theorem set_left (h : Mirrors M ρ D P σ₁ σ₂) {c : Cell} (hc : ∀ c' ∈ D, ρ c' ≠ c)
    (hown : M.isShared c = false) (v : V) : Mirrors M ρ D P (M.set σ₁ c v) σ₂ := by
  simp only [Machine.set, hown, Bool.false_eq_true, if_false]
  refine ⟨h.world, fun c' hc' hshared => ?_, h.binders, h.names⟩
  simpa [hc c' hc'] using h.values c' hc' hshared

theorem withBinder_left (h : Mirrors M ρ D P σ₁ σ₂) {c : Cell} (hP : P ⊆ D)
    (hc : ∀ c' ∈ D, ρ c' ≠ c) (b : Binder V) : Mirrors M ρ D P (σ₁.withBinder c b) σ₂ := by
  refine ⟨h.world, h.values, fun c' hc' => ?_, h.names⟩
  simpa [Moment.withBinder, hc c' (hP hc')] using h.binders c' hc'

end Mirrors

/-! ## Confined execution -/

/-- A moment in which the patterns of `T` bind only cells of `T`, and that differs from another one at most
in the patterns of `S` and the values of `T`. -/
structure Confined (S T : Set Cell) (before σ : Moment V W) : Prop where
  names : ∀ c ∈ T, ∀ n ∈ (σ.binders c).names, n ∈ T
  values : ∀ c ∉ T, σ.values c = before.values c
  binders : ∀ c ∉ S, σ.binders c = before.binders c

namespace Confined

variable {M : Machine V W} {S T : Set Cell} {before σ : Moment V W}

theorem withWorld (h : Confined S T before σ) (w : W) : Confined S T before { σ with world := w } :=
  ⟨h.names, h.values, h.binders⟩

theorem set (h : Confined S T before σ) {c : Cell} (hc : c ∈ T) (v : V) :
    Confined S T before (M.set σ c v) := by
  rw [Machine.set]
  split
  · exact h.withWorld _
  · refine ⟨h.names, fun c' hc' => ?_, h.binders⟩
    have hne : c' ≠ c := fun heq => hc' (heq ▸ hc)
    simpa [hne] using h.values c' hc'

theorem setAll (pairs : List (Cell × V)) (h : Confined S T before σ)
    (hpairs : ∀ e ∈ pairs, e.1 ∈ T) : Confined S T before (M.setAll σ pairs) := by
  induction pairs generalizing σ with
  | nil => exact h
  | cons e pairs ih =>
    exact ih (h.set (hpairs e List.mem_cons_self) e.2) fun e' he' =>
      hpairs e' (List.mem_cons_of_mem _ he')

theorem withBinder (h : Confined S T before σ) {c : Cell} (hc : c ∈ S) {b : Binder V}
    (hb : ∀ n ∈ b.names, n ∈ T) : Confined S T before (σ.withBinder c b) := by
  refine ⟨fun c' hc' => ?_, h.values, fun c' hc' => ?_⟩
  · by_cases heq : c' = c
    · simpa [Moment.withBinder, heq] using hb
    · simpa [Moment.withBinder, heq] using h.names c' hc'
  · have hne : c' ≠ c := fun heq => hc' (heq ▸ hc)
    simpa [Moment.withBinder, hne] using h.binders c' hc'

variable {i : Instr}

theorem write (hS : S ⊆ T) (h : Confined S T before σ) (hi : ∀ p ∈ i.defined, p.cell ∈ S) (v : V) :
    Confined S T before (M.write σ i v) := by
  refine h.setAll _ fun e he => ?_
  obtain ⟨p, hp, rfl⟩ := List.mem_map.1 he
  exact hS (hi p hp)

/-- One instruction. -/
theorem step (hS : S ⊆ T) (h : Confined S T before σ) (hi : ∀ p ∈ i.defined, p.cell ∈ S)
    (htargets : ∀ p ∈ i.op.targets, p.cell ∈ T) : Confined S T before (M.step σ i) := by
  have hown : i.place.cell ∈ S := hi _ List.mem_cons_self
  unfold Machine.step
  cases hmanner : i.op.manner with
  | move value => exact h.write hS hi _
  | literal value => exact h.write hS hi _
  | array => exact (h.withWorld _).write hS hi _
  | name => exact h.withBinder hown (by simpa using hS hown)
  | compose =>
    refine h.withBinder hown fun n hn => ?_
    obtain ⟨p, hp, hn⟩ := List.mem_flatMap.1 hn
    exact h.names _ (htargets p hp) n hn
  | destructure pattern value =>
    refine ((h.withWorld _).setAll _ fun e he => ?_).write hS hi _
    exact h.names _ (htargets pattern (Op.mem_of_destructure hmanner).1) _ (List.of_mem_zip he).1
  | compute => exact (h.withWorld _).write hS hi _

/-- Code that defines only cells of `S`, and takes only patterns of `T`, changes no values outside of
`T`. -/
theorem run (hS : S ⊆ T) {is : List Instr} (h : Confined S T before σ)
    (hdefined : ∀ i ∈ is, ∀ p ∈ i.defined, p.cell ∈ S)
    (htargets : ∀ i ∈ is, ∀ p ∈ i.op.targets, p.cell ∈ T) : Confined S T before (M.run σ is) := by
  induction is generalizing σ with
  | nil => exact h
  | cons i is ih =>
    obtain ⟨hi, hdefined⟩ := List.forall_mem_cons.1 hdefined
    obtain ⟨hi', htargets⟩ := List.forall_mem_cons.1 htargets
    exact ih (h.step hS hi hi') hdefined htargets

end Confined

end Whittle.Ir
