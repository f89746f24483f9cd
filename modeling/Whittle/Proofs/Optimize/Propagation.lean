import Mathlib.Tactic.Common
import Std.Data.TreeMap.Lemmas
import Whittle.Proofs.Ir.Samples
import Whittle.Proofs.Optimize.Execution
import Whittle.Proofs.Optimize.Temporaries

/-!
# Constant propagation is sound

What is known about a cell is known for a reason: its one definition is a literal, or a store of something
that is known itself.  By induction on these reasons, every execution of the definition writes the known
value; and since nothing else writes the cell, it holds the value wherever its definition comes first.

Main statements: `Module.propagateConstants_sound`, and `Module.propagateConstants_misreads`, why the stores and
literals of the module have to be as it asks.
-/

namespace Whittle.Ir

/-! ## Sites -/

namespace Module

/-- Where a cell is defined, each site as often as it defines the cell. -/
def sitesOf (m : Module) (id : CellId) : List Site :=
  m.sited.flatMap fun e => (e.2.defined.filter (·.cell.id == id)).map fun _ => e.1

variable {m : Module} {env : Environment}

theorem getD_definitions (m : Module) (id : CellId) : m.definitions.getD id [] = m.sitesOf id := by
  have hplaces (s : Site) (ps : List Place) (table : CellMap (List Site)) :
      (ps.foldl (fun table p => table.insert p.cell.id (table.getD p.cell.id [] ++ [s])) table).getD id [] =
        table.getD id [] ++ (ps.filter (·.cell.id == id)).map fun _ => s := by
    induction ps generalizing table with
    | nil => simp
    | cons p ps ih =>
      rw [List.foldl_cons, ih, Std.TreeMap.getD_insert, List.filter_cons]
      by_cases hid : p.cell.id = id
      · simp [hid]
      · simp [hid]
  have hsited (l : List (Site × Instr)) (table : CellMap (List Site)) :
      (l.foldl (fun table e => e.2.defined.foldl (fun table p =>
        table.insert p.cell.id (table.getD p.cell.id [] ++ [e.1])) table) table).getD id [] =
        table.getD id [] ++
          l.flatMap fun e => (e.2.defined.filter (·.cell.id == id)).map fun _ => e.1 := by
    induction l generalizing table with
    | nil => simp
    | cons e l ih => rw [List.foldl_cons, ih, hplaces, List.flatMap_cons, List.append_assoc]
  rw [definitions, hsited, Std.TreeMap.getD_emptyc, List.nil_append, sitesOf]

theorem sitesOf_of_get? {id : CellId} {sites : List Site} (h : m.definitions.get? id = some sites) :
    m.sitesOf id = sites := by
  rw [← getD_definitions, Std.TreeMap.getD_eq_getD_getElem?, ← Std.TreeMap.get?_eq_getElem?, h]
  rfl

theorem exists_sitesOf_of_isWrittenOnce (m : Module) {id : CellId}
    (h : isWrittenOnce m.definitions id = true) : ∃ s, m.sitesOf id = [s] := by
  rw [isWrittenOnce] at h
  split at h
  · next s hget => exact ⟨s, sitesOf_of_get? hget⟩
  · cases h

theorem mem_sitesOf {id : CellId} {s : Site} :
    s ∈ m.sitesOf id ↔ ∃ i, (s, i) ∈ m.sited ∧ id ∈ i.writes := by
  simp only [sitesOf, List.mem_flatMap, List.mem_map, List.mem_filter, beq_iff_eq, Instr.writes,
    Prod.exists]
  constructor
  · rintro ⟨s', i, hsited, p, ⟨hp, hid⟩, rfl⟩
    exact ⟨i, hsited, p, hp, hid⟩
  · rintro ⟨i, hsited, p, hp, hid⟩
    exact ⟨s, i, hsited, p, ⟨hp, hid⟩, rfl⟩

/-- Sites are where instructions stand. -/
theorem mem_sited (hids : ∀ id f, m.functions.get? id = some f → f.id = id) {s : Site} {i : Instr} :
    (s, i) ∈ m.sited ↔
      ∃ f, m.functions.get? s.function = some f ∧ (f.codeAt s.block)[s.index]? = some i := by
  obtain ⟨function, block, index⟩ := s
  simp only [sited, List.mem_flatMap, Table.mem_values, Function.sited, List.mem_append,
    List.mem_mapIdx, Prod.mk.injEq, Site.mk.injEq, Prod.exists, Table.mem_entries]
  constructor
  · rintro ⟨f, ⟨id, hf⟩, ⟨n, hn, ⟨rfl, rfl, rfl⟩, rfl⟩ | ⟨b, code, hb, n, hn, ⟨rfl, rfl, rfl⟩, rfl⟩⟩
    · refine ⟨f, by rwa [hids id f hf], ?_⟩
      exact List.getElem?_eq_getElem hn
    · refine ⟨f, by rwa [hids id f hf], ?_⟩
      simp only [Function.codeAt, hb, Option.map_some, Option.getD_some]
      exact List.getElem?_eq_getElem hn
  · rintro ⟨f, hf, hi⟩
    refine ⟨f, ⟨function, hf⟩, ?_⟩
    obtain ⟨hn, heq⟩ := List.getElem?_eq_some_iff.1 hi
    cases block with
    | none => exact .inl ⟨index, hn, ⟨hids function f hf, rfl, rfl⟩, heq⟩
    | some b =>
      cases hb : f.blocks.get? b with
      | none => simp [Function.codeAt, hb] at hi
      | some code =>
        simp only [Function.codeAt, hb, Option.map_some, Option.getD_some] at hn heq
        exact .inr ⟨b, code, hb, index, hn, ⟨hids function f hf, rfl, rfl⟩, heq⟩

/-- Two instructions that write a cell with one site are one. -/
theorem eq_of_sitesOf (hids : ∀ id f, m.functions.get? id = some f → f.id = id) {id : CellId} {d s s' : Site}
    (hd : m.sitesOf id = [d]) {i j : Instr} (hi : (s, i) ∈ m.sited) (hj : (s', j) ∈ m.sited)
    (hid : id ∈ i.writes) (hid' : id ∈ j.writes) : s = s' ∧ i = j := by
  have hs := mem_sitesOf.2 ⟨i, hi, hid⟩
  have hs' := mem_sitesOf.2 ⟨j, hj, hid'⟩
  rw [hd, List.mem_singleton] at hs hs'
  subst hs hs'
  obtain ⟨f, hf, hcode⟩ := (mem_sited hids).1 hi
  obtain ⟨f', hf', hcode'⟩ := (mem_sited hids).1 hj
  obtain rfl := Option.some.inj (hf.symm.trans hf')
  exact ⟨rfl, Option.some.inj (hcode.symm.trans hcode')⟩

theorem map_sited (m : Module) : m.sited.map (·.2) = m.instructions := by
  have hindexed (g : Nat → Site) (is : List Instr) :
      (is.mapIdx fun index i => (g index, i)).map (·.2) = is := by
    apply List.ext_getElem <;> simp
  rw [sited, List.map_flatMap, instructions]
  congr 1
  funext f
  simp only [Function.sited, Function.instructions, List.map_append, List.map_flatMap, Table.values,
    List.flatMap_map]
  rw [hindexed]
  congr 2
  funext e
  exact hindexed _ _

theorem length_sitesOf (m : Module) (id : CellId) :
    (m.sitesOf id).length = (m.defined.filter (·.cell.id == id)).length := by
  rw [sitesOf, defined, ← map_sited, List.flatMap_map, List.filter_flatMap, List.length_flatMap,
    List.length_flatMap]
  simp only [List.length_map]

/-- A cell with a numbered version has one site, if no other cell shares its number. -/
theorem exists_sitesOf_of_single (honce : (numberedCells m.defined).Nodup) {p : Place}
    (hp : p ∈ m.defined) (hnumbered : p.cell.version.isNumbered = true)
    (hsingle : ∀ q ∈ m.defined, q.cell.id = p.cell.id → q.cell = p.cell) :
    ∃ s, m.sitesOf p.cell.id = [s] := by
  rw [← List.length_eq_one_iff, length_sitesOf, ← List.countP_eq_length_filter]
  have hcount := List.nodup_iff_count_le_one.1 honce p.cell.id
  rw [numberedCells, List.count, List.countP_map, List.countP_filter] at hcount
  have hpos : 0 < m.defined.countP (·.cell.id == p.cell.id) :=
    List.countP_pos_iff.2 ⟨p, hp, beq_self_eq_true _⟩
  have hsame : m.defined.countP (·.cell.id == p.cell.id) ≤
      m.defined.countP fun q => ((· == p.cell.id) ∘ (·.cell.id)) q && q.cell.version.isNumbered := by
    apply List.countP_mono_left
    intro q hq hid
    have hcell := hsingle q hq (beq_iff_eq.1 hid)
    simp [hcell, hnumbered]
  omega

/-- A cell with a numbered version has one site. -/
theorem exists_sitesOf (hcoherent : m.Coherent env) (honce : (numberedCells m.defined).Nodup) {p : Place}
    (hp : p ∈ m.defined) (hnumbered : p.cell.version.isNumbered = true) :
    ∃ s, m.sitesOf p.cell.id = [s] := by
  obtain ⟨cells, -, hall⟩ := hcoherent
  exact exists_sitesOf_of_single honce hp hnumbered fun q hq hid =>
    (hall.isOf_defined hq).single (hall.isOf_defined hp) hid

end Module

/-- Some instruction of the function writes the cell. -/
def Function.Defines (f : Function) (c : Cell) : Prop := ∃ i ∈ f.instructions, c.id ∈ i.writes

instance (f : Function) (c : Cell) : Decidable (f.Defines c) :=
  inferInstanceAs (Decidable (∃ i ∈ f.instructions, c.id ∈ i.writes))

theorem Function.exists_codeAt {f : Function} {i : Instr} (hi : i ∈ f.instructions) :
    ∃ (b : Option BlockId) (n : Nat), (f.codeAt b)[n]? = some i := by
  rcases List.mem_append.1 hi with hi | hi
  · exact ⟨none, List.getElem?_of_mem hi⟩
  · obtain ⟨block, hblock, hi⟩ := List.mem_flatMap.1 hi
    obtain ⟨b, hb⟩ := Table.mem_values.1 hblock
    refine ⟨some b, ?_⟩
    simp only [codeAt, hb, Option.map_some, Option.getD_some]
    exact List.getElem?_of_mem hi

/-! ## Modules that hold still -/

/-- Whether an operation computes a value from others. -/
def Op.isComputation : Op → Bool
  | .binary .. | .unary .. | .logical .. | .conditional .. => true
  | _ => false

/-- The place that a load reads. -/
def Op.loaded? : Op → Option Place
  | .loadLocal place => some place
  | _ => none

/-- The place that a store reads. -/
def Op.stored? : Op → Option Place
  | .storeLocal _ value _ => some value
  | _ => none

/-- The value of a literal. -/
def Op.literal? : Op → Option Value
  | .literal value => some value
  | _ => none

/-- Whether the result of an operation may become known without being computed. -/
def Op.isNoted : Op → Bool
  | .literal _ | .storeLocal .. => true
  | _ => false

theorem Op.loaded?_eq_some {op : Op} {p : Place} : op.loaded? = some p ↔ op = .loadLocal p := by
  cases op <;> simp [loaded?]

theorem Op.isUnnamed_of_isNoted {op : Op} (h : op.isNoted = true) : op.isUnnamed = true := by
  cases op <;> first | rfl | cases h

theorem Op.literal?_eq_some {op : Op} {v : Value} : op.literal? = some v ↔ op = .literal v := by
  cases op <;> simp [literal?]

/-- Whether an operation takes a value apart. -/
def Op.isDestructure : Op → Bool
  | .destructure .. => true
  | _ => false

namespace Module

/-- A module whose values can be followed.  It takes nothing apart; a cell with a numbered version has one
definition; temporaries are read behind their definitions, in the same block, and computations read
nothing else; what is known about the control flow is up to date. -/
structure Tame (m : Module) (env : Environment) : Prop where
  ids : ∀ e ∈ m.functions.entries, e.2.id = e.1
  discerns : m.Discerns
  undestructured : ∀ i ∈ m.instructions, i.op.isDestructure = false
  once : (numberedCells m.defined).Nodup
  ordered : ∀ f ∈ m.functions.values, TemporariesFirst env f.header ∧
    ∀ b ∈ f.blocks.values, TemporariesFirst env b.instructions
  operands : ∀ i ∈ m.instructions, i.op.isComputation = true → ∀ p ∈ i.reads,
    env.isTemporary p.declaration = true
  flow : ∀ f ∈ m.functions.values, f.HasFlow

instance (m : Module) (env : Environment) : Decidable (m.Tame env) :=
  decidable_of_iff ((∀ e ∈ m.functions.entries, e.2.id = e.1) ∧ m.Discerns ∧
      (∀ i ∈ m.instructions, i.op.isDestructure = false) ∧ (numberedCells m.defined).Nodup ∧
      (∀ f ∈ m.functions.values, TemporariesFirst env f.header ∧
        ∀ b ∈ f.blocks.values, TemporariesFirst env b.instructions) ∧
      (∀ i ∈ m.instructions, i.op.isComputation = true → ∀ p ∈ i.reads,
        env.isTemporary p.declaration = true) ∧ ∀ f ∈ m.functions.values, f.HasFlow)
    ⟨fun ⟨ids, discerns, undestructured, once, ordered, operands, flow⟩ =>
      ⟨ids, discerns, undestructured, once, ordered, operands, flow⟩,
    fun h => ⟨h.ids, h.discerns, h.undestructured, h.once, h.ordered, h.operands, h.flow⟩⟩

/-- Literals and stores give their results to cells with numbered versions that no code elsewhere can
change, and a store reads a temporary, or a variable whose definition, if it has but one, comes first. -/
structure Steady (m : Module) (env : Environment) : Prop where
  numbered : ∀ i ∈ m.instructions, i.op.isNoted = true → i.place.cell.version.isNumbered = true
  unseen : ∀ i ∈ m.instructions, i.op.isNoted = true →
    env.isCapturedMutable i.place.declaration = false
  sources : ∀ id f, m.functions.get? id = some f → ∀ b n i value, (f.codeAt b)[n]? = some i →
    i.op.stored? = some value → env.isTemporary value.declaration = false → ∀ s,
      m.sitesOf value.cell.id = [s] → s.dominates ⟨id, b, n⟩ f.flow = true

variable {m : Module} {env : Environment}

namespace Tame

/-- Functions stand under their own numbers. -/
theorem id_eq (h : m.Tame env) (id : FuncId) (f : Function) (hf : m.functions.get? id = some f) :
    f.id = id :=
  h.ids (id, f) (Table.mem_entries.2 hf)

/-- Places of one number are places of one cell. -/
theorem single (h : m.Tame env) {i j : Instr} (hi : i ∈ m.instructions) (hj : j ∈ m.instructions)
    {p q : Place} (hp : p ∈ i.places) (hq : q ∈ j.places) (hid : p.cell.id = q.cell.id) :
    p.cell = q.cell :=
  h.discerns p (m.places_of_instr hi hp) q (m.places_of_instr hj hq) hid

/-- Temporaries are read where they can be. -/
theorem available (h : m.Tame env) {id : FuncId} {f : Function} (hf : m.functions.get? id = some f)
    {b : Option BlockId} {n : Nat} {i : Instr} (hi : (f.codeAt b)[n]? = some i) {p : Place}
    (hp : p ∈ i.reads) : Available env (((f.codeAt b).take n).flatMap (·.writes)) p := by
  have hfirst : TemporariesFirst env (f.codeAt b) := by
    obtain ⟨hheader, hblocks⟩ := h.ordered f (Table.mem_values.2 ⟨id, hf⟩)
    cases b with
    | none => exact hheader
    | some b =>
      obtain ⟨block, hb⟩ := Table.contains_iff.1 (Function.codeAt_of_getElem? hi)
      simp only [Function.codeAt, hb, Option.map_some, Option.getD_some]
      exact hblocks block (Table.mem_values.2 ⟨b, hb⟩)
  obtain ⟨hn, rfl⟩ := List.getElem?_eq_some_iff.1 hi
  exact hfirst n hn p hp

end Tame

/-! ## What is known -/

end Module

theorem CellMap.get?_insert {ν : Type} (t : CellMap ν) (a b : CellId) (v : ν) :
    (t.insert a v).get? b = if a = b then some v else t.get? b := by
  rw [Std.TreeMap.get?_eq_getElem?, Std.TreeMap.getElem?_insert, ← Std.TreeMap.get?_eq_getElem?]
  exact if_congr Std.LawfulEqOrd.compare_eq_iff_eq rfl rfl

theorem CellMap.mem_of_get?_ofList {ν : Type} {l : List (CellId × ν)} {k : CellId} {v : ν}
    (h : (Std.TreeMap.ofList l : CellMap ν).get? k = some v) : (k, v) ∈ l := by
  have hinsert (l : List (CellId × ν)) (t : CellMap ν) (hget : (t.insertMany l).get? k = some v) :
      (k, v) ∈ l ∨ t.get? k = some v := by
    induction l generalizing t with
    | nil => exact .inr (by simpa using hget)
    | cons e l ih =>
      rw [Std.TreeMap.insertMany_cons] at hget
      rcases ih _ hget with hmem | hget
      · exact .inl (List.mem_cons_of_mem e hmem)
      rw [get?_insert] at hget
      split at hget
      · next heq =>
        obtain rfl := Option.some.inj hget
        exact .inl (heq ▸ List.mem_cons_self)
      · exact .inr hget
  rw [Std.TreeMap.ofList_eq_insertMany_empty] at h
  exact (hinsert l ∅ h).resolve_right (by simp)

theorem Function.exists_of_get?_ops {f : Function} {id : CellId} {op : Op} (h : f.ops.get? id = some op) :
    ∃ i ∈ f.instructions, i.place.cell.id = id ∧ i.op = op := by
  obtain ⟨i, hi, heq⟩ := List.mem_map.1 (CellMap.mem_of_get?_ofList h)
  exact ⟨i, hi, congrArg Prod.fst heq, congrArg Prod.snd heq⟩

theorem learnPositions_induction {isTracked : Cell → Bool} {ops : CellMap Op}
    {pairs : List (Option Place × Place)} {P : Known → Prop} {known : Known} (hknown : P known)
    (hinsert : ∀ known target source v name, (some target, source) ∈ pairs →
      ops.get? target.cell.id = some (.binding name) → isTracked target.cell = true →
        known.get? source.cell.id = some v → P known → P (known.insert target.cell.id v)) :
    P (learnPositions isTracked ops pairs known) := by
  induction pairs generalizing known with
  | nil => exact hknown
  | cons e pairs ih =>
    have hrest {known : Known} (hknown : P known) : P (learnPositions isTracked ops pairs known) :=
      ih hknown fun known target source v name hmem =>
        hinsert known target source v name (List.mem_cons_of_mem e hmem)
    obtain ⟨target, source⟩ := e
    cases target with
    | none => exact hrest hknown
    | some target =>
      refine hrest ?_
      split_ifs with hcheck
      · rw [Bool.and_eq_true, Bool.and_eq_true] at hcheck
        obtain ⟨⟨hbinding, -⟩, htracked⟩ := hcheck
        split at hbinding
        · next name hop =>
          split
          · next v hv => exact hinsert known target source v name List.mem_cons_self hop htracked hv hknown
          · exact hknown
        · cases hbinding
      · exact hknown

/-- The elements of the array pattern and those of the array literal that an instruction takes apart. -/
def Function.pairing? (f : Function) (i : Instr) : Option (List (Option Place) × List Place) :=
  match i.op with
  | .destructure pattern value _ =>
    match f.ops.get? pattern.cell.id, f.ops.get? value.cell.id with
    | some (.arrayPattern targets), some (.array sources) => some (targets, sources)
    | _, _ => none
  | _ => none

/-- Where an array literal is taken apart: an element of the pattern, the elements of the literal, and the
index that the two have in common. -/
structure Position where
  /-- The element of the pattern. -/
  target : Place
  /-- The elements of the literal. -/
  sources : List Place
  /-- The index. -/
  index : Nat

namespace Module

/-- All positions at which array literals are taken apart. -/
def positions (m : Module) : List Position :=
  m.functions.values.flatMap fun f => f.instructions.flatMap fun i =>
    match f.pairing? i with
    | some (targets, sources) => targets.zipIdx.filterMap fun e => e.1.map (⟨·, sources, e.2⟩)
    | none => []

theorem mem_positions {m : Module} {p : Position} : p ∈ m.positions ↔ ∃ f ∈ m.functions.values,
    ∃ i ∈ f.instructions, ∃ targets, f.pairing? i = some (targets, p.sources) ∧
      targets[p.index]? = some (some p.target) := by
  simp only [positions, List.mem_flatMap]
  refine exists_congr fun f => and_congr_right fun _ => exists_congr fun i => and_congr_right fun _ => ?_
  cases hpairing : f.pairing? i with
  | none => simp
  | some e =>
    obtain ⟨targets, sources⟩ := e
    simp only [List.mem_filterMap, Prod.exists, Option.map_eq_some_iff, List.mem_zipIdx_iff_getElem?]
    constructor
    · rintro ⟨_, n, hn, t, rfl, rfl⟩
      exact ⟨targets, rfl, hn⟩
    · rintro ⟨_, hpair, hn⟩
      cases hpair
      exact ⟨_, _, hn, _, rfl, rfl⟩

variable {m : Module} {env : Environment}

/-- Why the value of a cell is known. -/
inductive Knows (m : Module) (env : Environment) : CellId → Value → Prop
  | literal {i : Instr} {v : Value} : i ∈ m.instructions → i.op = .literal v →
      Knows m env i.place.cell.id v
  | result {i : Instr} {target value : Place} {kind : StoreKind} {v : Value} : i ∈ m.instructions →
      i.op = .storeLocal target value kind → Knows m env value.cell.id v →
        Knows m env i.place.cell.id v
  | target {i : Instr} {target value : Place} {kind : StoreKind} {v : Value} : i ∈ m.instructions →
      i.op = .storeLocal target value kind → isTrackable env m.definitions target.cell = true →
        Knows m env value.cell.id v → Knows m env target.cell.id v

/-- All that is noted is known. -/
def Justified (m : Module) (env : Environment) (known : Known) : Prop :=
  ∀ id v, known.get? id = some v → m.Knows env id v

theorem Justified.insert {known : Known} (h : m.Justified env known) {id : CellId} {v : Value}
    (hknows : m.Knows env id v) : m.Justified env (known.insert id v) := by
  intro id' v' hget
  rw [CellMap.get?_insert] at hget
  split at hget
  · next heq =>
    subst heq
    exact Option.some.inj hget ▸ hknows
  · exact h id' v' hget

theorem exists_of_get?_literals {id : CellId} {v : Value} (h : m.literals.get? id = some v) :
    ∃ i ∈ m.instructions, i.op = .literal v ∧ i.place.cell.id = id := by
  obtain ⟨i, hi, hsome⟩ := List.mem_filterMap.1 (CellMap.mem_of_get?_ofList h)
  split at hsome
  · next hop =>
    cases hsome
    exact ⟨i, hi, hop, rfl⟩
  · cases hsome

/-- What holds of the literals, and goes on to hold with everything that stores and positions add, holds of
the facts. -/
theorem facts_induction {P : Known → Prop} (hliterals : P m.literals)
    (hstore : ∀ known i target value kind v c, i ∈ m.instructions → i.op = .storeLocal target value kind →
      known.get? value.cell.id = some v →
        c = i.place.cell.id ∨ c = target.cell.id ∧ isTrackable env m.definitions target.cell = true →
          P known → P (known.insert c v))
    (hposition : ∀ known p source j v, p ∈ m.positions → p.sources[p.index]? = some source →
      j ∈ m.instructions → j.place.cell.id = p.target.cell.id → j.op.isBinding = true →
        isTrackable env m.definitions p.target.cell = true → known.get? source.cell.id = some v →
          P known → P (known.insert p.target.cell.id v)) : P (m.facts env).known := by
  have hlearn (f : Function) (hf : f ∈ m.functions.values) (i : Instr) (hi : i ∈ f.instructions)
      (known : Known) (hknown : P known) : P (learn (isTrackable env m.definitions) f.ops known i) := by
    have hmem : i ∈ m.instructions := List.mem_flatMap.2 ⟨f, hf, hi⟩
    rw [learn]
    split
    · next target value kind hop =>
      split
      · next v hv =>
        split
        · next htrackable =>
          refine hstore _ i target value kind v _ hmem hop ?_ (.inl rfl)
            (hstore _ i target value kind v _ hmem hop hv (.inr ⟨rfl, htrackable⟩) hknown)
          rw [CellMap.get?_insert]
          split
          · rfl
          · exact hv
        · exact hstore _ i target value kind v _ hmem hop hv (.inl rfl) hknown
      · exact hknown
    · next pattern value kind hop =>
      split
      · next targets sources hpattern hvalue =>
        split
        · have hpairing : f.pairing? i = some (targets, sources) := by
            rw [Function.pairing?, hop]
            simp only [hpattern, hvalue]
          refine learnPositions_induction hknown fun known target source v name hpair hbinding htracked hv => ?_
          obtain ⟨n, hn⟩ := List.mem_iff_getElem?.1 hpair
          obtain ⟨htarget, hsource⟩ := List.getElem?_zip_eq_some.1 hn
          obtain ⟨j, hj, hid, hop⟩ := Function.exists_of_get?_ops hbinding
          exact hposition known ⟨target, sources, n⟩ source j v
            (mem_positions.2 ⟨f, hf, i, hi, targets, hpairing, htarget⟩) hsource
            (List.mem_flatMap.2 ⟨f, hf, hj⟩) hid (by rw [hop]; rfl) htracked hv
        · exact hknown
      · exact hknown
    · exact hknown
  have hinstrs (f : Function) (hf : f ∈ m.functions.values) (known : Known) (hknown : P known) :
      P (f.instructions.foldl (learn (isTrackable env m.definitions) f.ops) known) :=
    List.foldlRecOn _ _ hknown fun known hknown i hi => hlearn f hf i hi known hknown
  exact List.foldlRecOn _ _ hliterals fun known hknown f hf => hinstrs f hf known hknown

/-- Nothing is taken apart. -/
theorem Tame.not_mem_positions (h : m.Tame env) (p : Position) : p ∉ m.positions := by
  intro hp
  obtain ⟨f, hf, i, hi, targets, hpairing, -⟩ := mem_positions.1 hp
  have hdestructure := h.undestructured i (List.mem_flatMap.2 ⟨f, hf, hi⟩)
  rw [Function.pairing?] at hpairing
  split at hpairing
  · next hop =>
    rw [hop] at hdestructure
    cases hdestructure
  · cases hpairing

theorem justified_facts (h : m.Tame env) : m.Justified env (m.facts env).known := by
  refine facts_induction ?_ ?_ ?_
  · intro id v hget
    obtain ⟨i, hi, hop, rfl⟩ := exists_of_get?_literals hget
    exact .literal hi hop
  · intro known i target value kind v c hi hop hv hc hknown
    obtain rfl | ⟨rfl, htrackable⟩ := hc
    · exact hknown.insert (.result hi hop (hknown _ _ hv))
    · exact hknown.insert (.target hi hop htrackable (hknown _ _ hv))
  · intro known p source j v hp
    exact absurd hp (h.not_mem_positions p)

/-- A cell is written at one site, and nobody else changes it. -/
structure Settled (m : Module) (env : Environment) (id : CellId) : Prop where
  site : ∃ s, m.sitesOf id = [s]
  kept : ∀ i ∈ m.instructions, ∀ p ∈ i.places, p.cell.id = id →
    env.isCapturedMutable p.declaration = false

/-- All places of a cell are of one declaration. -/
theorem Tame.unseen (h : m.Tame env) {i : Instr} (hi : i ∈ m.instructions) {p : Place}
    (hp : p ∈ i.places) (hunseen : env.isCapturedMutable p.declaration = false) {j : Instr}
    (hj : j ∈ m.instructions) {q : Place} (hq : q ∈ j.places) (hid : q.cell.id = p.cell.id) :
    env.isCapturedMutable q.declaration = false := by
  rwa [Place.declaration, h.single hj hi hq hp hid]

theorem Tame.settled_place (h : m.Tame env) (hsteady : m.Steady env) {i : Instr}
    (hi : i ∈ m.instructions) (hop : i.op.isNoted = true) : m.Settled env i.place.cell.id := by
  have hdefined : i.place ∈ m.defined := List.mem_flatMap.2 ⟨i, hi, List.mem_cons_self⟩
  constructor
  case site =>
    refine exists_sitesOf_of_single h.once hdefined (hsteady.numbered i hi hop) fun q hq hid => ?_
    obtain ⟨j, hj, hq⟩ := List.mem_flatMap.1 hq
    exact h.single hj hi (List.mem_append_right _ hq) i.place_mem_places hid
  case kept =>
    intro j hj q hq hid
    exact h.unseen hi i.place_mem_places (hsteady.unseen i hi hop) hj hq hid

theorem Knows.settled {id : CellId} {v : Value} (hknows : m.Knows env id v) (h : m.Tame env)
    (hsteady : m.Steady env) : m.Settled env id := by
  cases hknows with
  | literal hi hop => exact h.settled_place hsteady hi (by rw [hop]; rfl)
  | result hi hop _ => exact h.settled_place hsteady hi (by rw [hop]; rfl)
  | @target i target value kind v hi hop htrackable _ =>
    rw [isTrackable, Bool.and_eq_true, Bool.not_eq_true'] at htrackable
    have htarget : target ∈ i.places := by simp [Instr.places, Instr.defined, hop, Op.target?]
    refine ⟨m.exists_sitesOf_of_isWrittenOnce htrackable.1, fun j hj q hq hid => ?_⟩
    exact h.unseen hi htarget htrackable.2 hj hq hid

/-! ## What is executed -/

/-- An instruction is executed somewhere in a module. -/
structure Executed (m : Module) (env : Environment) (s : Site) (i : Instr) (before after : Contents)
    (d : Datum) : Prop where
  exists_function : ∃ f, m.functions.get? s.function = some f ∧ (f.codeAt s.block)[s.index]? = some i ∧
    f.Reaches env s.block s.index before
  executes : i.Executes env before after d

/-- Whatever writes the cell writes the value. -/
def Writes (m : Module) (env : Environment) (id : CellId) (v : Value) : Prop :=
  ∀ s i before after d, m.Executed env s i before after d → id ∈ i.writes → d = .plain v

theorem Executed.mem_sited (h : m.Tame env) {s : Site} {i : Instr} {before after : Contents} {d : Datum}
    (hi : m.Executed env s i before after d) : (s, i) ∈ m.sited := by
  obtain ⟨f, hf, hcode, -⟩ := hi.exists_function
  exact (Module.mem_sited h.id_eq).2 ⟨f, hf, hcode⟩

theorem mem_instructions_of_sited {s : Site} {i : Instr} (hi : (s, i) ∈ m.sited) : i ∈ m.instructions := by
  rw [← map_sited]
  exact List.mem_map.2 ⟨(s, i), hi, rfl⟩

/-- Two instructions that write a settled cell are one. -/
theorem Settled.eq_of_writes {id : CellId} (hsettled : m.Settled env id) (h : m.Tame env)
    {s s' : Site} {i j : Instr} (hi : (s, i) ∈ m.sited) (hj : (s', j) ∈ m.sited) (hid : id ∈ i.writes)
    (hid' : id ∈ j.writes) : s = s' ∧ i = j := by
  obtain ⟨d, hd⟩ := hsettled.site
  exact eq_of_sitesOf h.id_eq hd hi hj hid hid'

/-- What does not write a settled cell leaves it alone. -/
theorem Settled.keeps {c : Cell} (hsettled : m.Settled env c.id) (h : m.Tame env) {i j : Instr}
    (hi : i ∈ m.instructions) (hj : j ∈ m.instructions) {p : Place} (hp : p ∈ j.places)
    (hcell : p.cell = c) {before after : Contents} {d : Datum} (hexecutes : i.Executes env before after d)
    (hwrites : c.id ∉ i.writes) : after c = before c := by
  refine (hexecutes.keeps c fun q hq heq => hwrites (List.mem_map.2 ⟨q, hq, heq ▸ rfl⟩)).resolve_right ?_
  have hkept := hsettled.kept j hj p hp (by rw [hcell])
  rw [Place.declaration, hcell] at hkept
  intro hchange
  rw [Op.MayChange.eq_def] at hchange
  split at hchange
  iterate 3 exact Bool.false_ne_true (hkept.symm.trans hchange)
  · next hop =>
    have hdestructure := h.undestructured i hi
    rw [hop] at hdestructure
    cases hdestructure
  · exact hchange

/-- A cell holds its known value behind its definition. -/
theorem Settled.holds {c : Cell} {v : Value} (hsettled : m.Settled env c.id) (h : m.Tame env)
    (hwrites : m.Writes env c.id v) {j : Instr} (hj : j ∈ m.instructions) {p : Place} (hp : p ∈ j.places)
    (hcell : p.cell = c) {s : Site} (hs : m.sitesOf c.id = [s]) {id : FuncId} {f : Function}
    (hf : m.functions.get? id = some f) {b : Option BlockId} {n : Nat} {i : Instr} {contents : Contents}
    (hi : (f.codeAt b)[n]? = some i) (hreaches : f.Reaches env b n contents)
    (hdom : s.dominates ⟨id, b, n⟩ f.flow = true) : contents c = .plain v := by
  obtain ⟨i₀, hi₀, hid₀⟩ := mem_sitesOf.1 (hs ▸ List.mem_singleton_self s)
  obtain ⟨function, site, index⟩ := s
  have hfunction : function = id := by
    rw [Site.dominates, Bool.and_eq_true] at hdom
    exact beq_iff_eq.1 hdom.1
  subst hfunction
  obtain ⟨f', hf', hcode⟩ := (mem_sited h.id_eq).1 hi₀
  obtain rfl := Option.some.inj (hf.symm.trans hf')
  rw [← h.id_eq _ f hf] at hdom
  refine hreaches.of_dominates (h.flow f (Table.mem_values.2 ⟨_, hf⟩)) (List.getElem?_eq_some_iff.1 hcode).1
    (Q := fun contents => contents c = .plain v) ?_ ?_ ?_ hdom
  · intro i before after d hbefore hi hexecutes
    obtain rfl := Option.some.inj (hcode.symm.trans hi)
    obtain ⟨q, hq, hqid⟩ := List.mem_map.1 hid₀
    have hd := hwrites ⟨_, site, index⟩ i₀ before after d ⟨⟨f, hf, hi, hbefore⟩, hexecutes⟩ hid₀
    rw [← hd, ← hexecutes.writes q hq, ← hcell]
    congr 1
    exact h.single hj (mem_instructions_of_sited hi₀) hp (List.mem_append_right _ hq) (by rw [hcell, hqid])
  · intro b n i before after d hne hi hexecutes hbefore
    have hsited : ((⟨_, b, n⟩ : Site), i) ∈ m.sited :=
      (mem_sited h.id_eq).2 ⟨f, hf, hi⟩
    rw [hsettled.keeps h (mem_instructions_of_sited hsited) hj hp hcell hexecutes]
    · exact hbefore
    · intro hid
      obtain ⟨hsite, -⟩ := hsettled.eq_of_writes h hi₀ hsited hid₀ hid
      injection hsite with _ hblock hindex
      exact hne (by rw [hblock, hindex])
  · cases b with
    | none => simp
    | some b => exact fun _ => hreaches.contains_entry hi

section Reads

variable {id : FuncId} {f : Function} {b : Option BlockId} {n : Nat} {i : Instr} {contents : Contents}

theorem Tame.mem_instructions (h : m.Tame env) (hf : m.functions.get? id = some f)
    (hi : (f.codeAt b)[n]? = some i) : i ∈ m.instructions :=
  mem_instructions_of_sited (s := ⟨id, b, n⟩) ((mem_sited h.id_eq).2 ⟨f, hf, hi⟩)

/-- Temporaries are read behind their definitions. -/
theorem Tame.dominates_temporary (h : m.Tame env) (hf : m.functions.get? id = some f)
    (hi : (f.codeAt b)[n]? = some i) {p : Place} (hp : p ∈ i.reads)
    (htemporary : env.isTemporary p.declaration = true) {s : Site} (hs : m.sitesOf p.cell.id = [s]) :
    s.dominates ⟨id, b, n⟩ f.flow = true := by
  obtain ⟨j, hj, hid⟩ := List.mem_flatMap.1 (h.available hf hi hp htemporary)
  obtain ⟨k, hk, hkj⟩ := List.getElem_of_mem hj
  rw [List.length_take] at hk
  rw [List.getElem_take] at hkj
  have hlength : k < (f.codeAt b).length := by omega
  have hsite : (⟨id, b, k⟩ : Site) ∈ m.sitesOf p.cell.id := by
    refine mem_sitesOf.2 ⟨j, (mem_sited h.id_eq).2 ⟨f, hf, ?_⟩, hid⟩
    exact List.getElem?_eq_some_iff.2 ⟨hlength, hkj⟩
  rw [hs, List.mem_singleton] at hsite
  subst hsite
  cases b with
  | none => simp [Site.dominates]; omega
  | some b => simp [Site.dominates]; omega

/-- An instruction reads the known values of temporaries, and those of what it stores. -/
theorem Knows.holds {p : Place} {v : Value} (hknows : m.Knows env p.cell.id v) (h : m.Tame env)
    (hsteady : m.Steady env) (hwrites : m.Writes env p.cell.id v) (hf : m.functions.get? id = some f)
    (hi : (f.codeAt b)[n]? = some i) (hreaches : f.Reaches env b n contents) (hp : p ∈ i.reads)
    (hread : env.isTemporary p.declaration = true ∨ i.op.stored? = some p) :
    contents p.cell = .plain v := by
  have hsettled := hknows.settled h hsteady
  obtain ⟨s, hs⟩ := hsettled.site
  refine hsettled.holds h hwrites (h.mem_instructions hf hi) (List.mem_append_left _ hp) rfl hs hf hi
    hreaches ?_
  cases htemporary : env.isTemporary p.declaration with
  | true => exact h.dominates_temporary hf hi hp htemporary hs
  | false =>
    rw [htemporary] at hread
    exact hsteady.sources id f hf b n i p hi (hread.resolve_left Bool.false_ne_true) htemporary s hs

end Reads

/-- What is known about a cell is what is written to it. -/
theorem Knows.writes {id : CellId} {v : Value} (hknows : m.Knows env id v) (h : m.Tame env)
    (hsteady : m.Steady env) : m.Writes env id v := by
  -- The instruction that makes a cell known is the only one to write it.
  have hstore {i : Instr} {target value : Place} {kind : StoreKind} {v : Value}
      (hop : i.op = .storeLocal target value kind) (hvalue : m.Knows env value.cell.id v)
      (hwrites : m.Writes env value.cell.id v) {s : Site} {before after : Contents} {d : Datum}
      (hexecuted : m.Executed env s i before after d) : d = .plain v := by
    obtain ⟨f, hf, hi, hreaches⟩ := hexecuted.exists_function
    have hgives := hexecuted.executes.gives
    rw [hop] at hgives
    have hread : value ∈ i.reads := by simp [Instr.reads, hop, Op.reads]
    exact hgives.trans (hvalue.holds h hsteady hwrites hf hi hreaches hread (.inr (by rw [hop]; rfl)))
  have honly {i j : Instr} {id : CellId} {s : Site} {before after : Contents} {d : Datum}
      (hsettled : m.Settled env id) (hi : i ∈ m.instructions) (hid : id ∈ i.writes)
      (hexecuted : m.Executed env s j before after d) (hid' : id ∈ j.writes) : j = i := by
    rw [← map_sited] at hi
    obtain ⟨⟨s', i⟩, hsited, rfl⟩ := List.mem_map.1 hi
    exact (hsettled.eq_of_writes h (hexecuted.mem_sited h) hsited hid' hid).2
  induction hknows with
  | @literal i v hi hop =>
    intro s j before after d hexecuted hid
    have hknown : m.Knows env i.place.cell.id v := .literal hi hop
    have hsettled := hknown.settled h hsteady
    obtain rfl := honly hsettled hi (List.mem_map.2 ⟨i.place, List.mem_cons_self, rfl⟩) hexecuted hid
    have hgives := hexecuted.executes.gives
    rwa [hop] at hgives
  | @result i target value kind v hi hop hvalue ih =>
    intro s j before after d hexecuted hid
    have hsettled := (Knows.result hi hop hvalue).settled h hsteady
    obtain rfl := honly hsettled hi (List.mem_map.2 ⟨i.place, List.mem_cons_self, rfl⟩) hexecuted hid
    exact hstore hop hvalue ih hexecuted
  | @target i target value kind v hi hop htrackable hvalue ih =>
    intro s j before after d hexecuted hid
    have hsettled := (Knows.target hi hop htrackable hvalue).settled h hsteady
    have htarget : target ∈ i.defined := by simp [Instr.defined, hop, Op.target?]
    obtain rfl := honly hsettled hi (List.mem_map.2 ⟨target, htarget, rfl⟩) hexecuted hid
    exact hstore hop hvalue ih hexecuted

/-! ## What is replaced -/

section Replaced

variable {id : FuncId} {f : Function} {b : Option BlockId} {n : Nat} {i : Instr}

/-- A computation of known values gives what folding says. -/
theorem Tame.eq_value (h : m.Tame env) (hsteady : m.Steady env) (hf : m.functions.get? id = some f)
    (hi : (f.codeAt b)[n]? = some i) {v : Value} (hvalue : i.op.value? (m.facts env).known = some v)
    {before after : Contents} {d : Datum} (hreaches : f.Reaches env b n before)
    (hexecutes : i.Executes env before after d) : d = .plain v := by
  have hoperand {p : Place} {a : Value} (hp : p ∈ i.reads) (hop : i.op.isComputation = true)
      (hknown : (m.facts env).known.get? p.cell.id = some a) : before p.cell = .plain a := by
    have hknows := justified_facts h _ _ hknown
    exact hknows.holds h hsteady (hknows.writes h hsteady) hf hi hreaches hp
      (.inl (h.operands i (h.mem_instructions hf hi) hop p hp))
  have hgives := hexecutes.gives
  rw [Instr.reads] at hoperand
  cases hop : i.op <;> rw [hop] at hvalue hgives hoperand <;> try cases hvalue
  case binary op left right =>
    simp only [Op.value?, Op.value?.val, Option.bind_eq_bind, Option.bind_eq_some_iff] at hvalue
    obtain ⟨x, hx, y, hy, hv⟩ := hvalue
    exact hgives x y v (hoperand (by simp [Op.reads]) rfl hx) (hoperand (by simp [Op.reads]) rfl hy) hv
  case unary op argument =>
    simp only [Op.value?, Op.value?.val, Option.bind_eq_bind, Option.bind_eq_some_iff] at hvalue
    obtain ⟨x, hx, hv⟩ := hvalue
    exact hgives x v (hoperand (by simp [Op.reads]) rfl hx) hv
  case logical op left right =>
    simp only [Op.value?, Op.value?.val, Option.bind_eq_bind, Option.bind_eq_some_iff, Option.pure_def,
      Option.some.injEq] at hvalue
    obtain ⟨x, hx, y, hy, rfl⟩ := hvalue
    exact hgives x y (hoperand (by simp [Op.reads]) rfl hx) (hoperand (by simp [Op.reads]) rfl hy)
  case conditional test consequent alternate =>
    simp only [Op.value?, Op.value?.val, Option.bind_eq_bind, Option.bind_eq_some_iff, Option.pure_def,
      Option.some.injEq] at hvalue
    obtain ⟨c, hc, a, ha, t, ht, rfl⟩ := hvalue
    rw [hgives t (hoperand (by simp [Op.reads]) rfl ht)]
    cases t.isTruthy with
    | true => exact hoperand (by simp [Op.reads]) rfl hc
    | false => exact hoperand (by simp [Op.reads]) rfl ha

theorem eq_of_loadValue? (h : m.Tame env) {flow : Flow} {s : Site} {c : Cell} {v : Value}
    (hvalue : loadValue? env (m.facts env) flow s c = some v) :
    m.Knows env c.id v ∧
      ∃ d, m.sitesOf c.id = [d] ∧ (d.function = s.function → d.dominates s flow = true) := by
  simp only [loadValue?, Option.bind_eq_bind, Option.bind_eq_some_iff] at hvalue
  obtain ⟨w, hknown, hvalue⟩ := hvalue
  split at hvalue
  · next d hd =>
    obtain ⟨htrusted, hvalue⟩ := Option.ite_none_right_eq_some.1 hvalue
    obtain rfl := Option.some.inj hvalue
    refine ⟨justified_facts h _ _ hknown, d, sitesOf_of_get? hd, fun hsame => ?_⟩
    rwa [if_pos (beq_iff_eq.2 hsame)] at htrusted
  · cases hvalue

/-- A load of a known variable gives its value if the variable is written in the same function. -/
theorem Tame.eq_loadValue (h : m.Tame env) (hsteady : m.Steady env) (hf : m.functions.get? id = some f)
    (hi : (f.codeAt b)[n]? = some i) {p : Place} (hop : i.op = .loadLocal p) {v : Value}
    (hvalue : loadValue? env (m.facts env) f.flow ⟨id, b, n⟩ p.cell = some v) (hown : f.Defines p.cell)
    {before after : Contents} {d : Datum} (hreaches : f.Reaches env b n before)
    (hexecutes : i.Executes env before after d) : d = .plain v := by
  obtain ⟨hknows, s, hs, hdom⟩ := eq_of_loadValue? h hvalue
  obtain ⟨j, hj, hid⟩ := hown
  obtain ⟨b', n', hj⟩ := f.exists_codeAt hj
  have hsite : (⟨id, b', n'⟩ : Site) ∈ m.sitesOf p.cell.id :=
    mem_sitesOf.2 ⟨j, (mem_sited h.id_eq).2 ⟨f, hf, hj⟩, hid⟩
  rw [hs, List.mem_singleton] at hsite
  subst hsite
  have hgives := hexecutes.gives
  have hread : p ∈ i.places := List.mem_append_left _ (by simp [Instr.reads, hop, Op.reads])
  rw [hop] at hgives
  have hholds := (hknows.settled h hsteady).holds h (hknows.writes h hsteady) (h.mem_instructions hf hi)
    hread rfl hs hf hi hreaches (hdom rfl)
  exact hgives.trans hholds

/-- Whatever happens to a known variable writes its value. -/
theorem Tame.eq_of_executed (h : m.Tame env) (hsteady : m.Steady env) {p : Place} {v : Value}
    (hknows : m.Knows env p.cell.id v)
    (hi : i ∈ m.instructions) (hp : p ∈ i.places) {s : Site} {j : Instr} {before after : Contents}
    {d : Datum} (hexecuted : m.Executed env s j before after d) :
    (p.cell.id ∈ j.writes → after p.cell = .plain v) ∧
      (p.cell.id ∉ j.writes → after p.cell = before p.cell) := by
  have hj := mem_instructions_of_sited (hexecuted.mem_sited h)
  constructor
  · intro hid
    obtain ⟨q, hq, hqid⟩ := List.mem_map.1 hid
    rw [← hknows.writes h hsteady s j before after d hexecuted hid, ← hexecuted.executes.writes q hq,
      h.single hi hj hp (List.mem_append_right _ hq) hqid.symm]
  · intro hid
    exact (hknows.settled h hsteady).keeps h hj hi hp rfl hexecuted.executes hid

end Replaced

/-- The functions that constant propagation leaves. -/
theorem get?_propagateConstants (m : Module) (env : Environment) (constants : Constants) (id : FuncId) :
    (m.propagateConstants env constants).2.1.functions.get? id =
      (m.functions.get? id).map fun f => (m.foldFunction env constants (m.facts env) f).2 := by
  change Table.get? ((m.functions.map _).map _) id = _
  rw [Table.map_map, Table.get?_map]

/-- What was no literal and has become one has a known value. -/
theorem instrValue?_of_foldFunction {constants : Constants} {facts : Facts} {f : Function}
    {b : Option BlockId} {n : Nat} {i i' : Instr} {v : Value} (hi : (f.codeAt b)[n]? = some i)
    (hi' : ((m.foldFunction env constants facts f).2.codeAt b)[n]? = some i') (hop : ∀ w, i.op ≠ .literal w)
    (hop' : i'.op = .literal v) :
    m.instrValue? env constants facts f.flow f.selfCopies ⟨f.id, b, n⟩ i = some v := by
  cases b with
  | none =>
    obtain rfl := Option.some.inj (hi.symm.trans hi')
    exact absurd hop' (hop v)
  | some b =>
    obtain ⟨block, hblock⟩ := Table.contains_iff.1 (Function.codeAt_of_getElem? hi)
    simp only [Function.codeAt, foldFunction, Table.get?_map, hblock, Option.map_some, Option.getD_some,
      replaceKnown, List.getElem?_map, List.getElem?_mapIdx] at hi hi'
    rw [hi, Option.map_some, Option.map_some, Option.some.injEq] at hi'
    subst hi'
    split at hop'
    · next hvalue =>
      cases hop'
      exact hvalue
    · exact absurd hop' (hop v)

/-- Constant propagation is sound.  Where it replaces a load or a computation by a literal, each execution
of the replaced instruction would give the value of the literal; a load of a variable that another function
writes may run at any time, but all that is ever written to that variable is the value. -/
theorem propagateConstants_sound (h : m.Tame env) (hsteady : m.Steady env) (constants : Constants)
    {id : FuncId} {f f' : Function} (hf : m.functions.get? id = some f)
    (hf' : (m.propagateConstants env constants).2.1.functions.get? id = some f')
    {b : Option BlockId} {n : Nat} {i i' : Instr} {v : Value} (hi : (f.codeAt b)[n]? = some i)
    (hi' : (f'.codeAt b)[n]? = some i') (hliteral : i'.op = .literal v)
    (hop : (∃ p, i.op = .loadLocal p) ∨ i.op.isComputation = true) :
    ((∀ p, i.op = .loadLocal p → f.Defines p.cell) → ∀ before after d, f.Reaches env b n before →
      i.Executes env before after d → d = .plain v) ∧
    ∀ p, i.op = .loadLocal p → ¬ f.Defines p.cell → ∀ s j before after d,
      m.Executed env s j before after d →
        (p.cell.id ∈ j.writes → after p.cell = .plain v) ∧
        (p.cell.id ∉ j.writes → after p.cell = before p.cell) := by
  rw [get?_propagateConstants, hf, Option.map_some, Option.some.injEq] at hf'
  subst hf'
  have hvalue := instrValue?_of_foldFunction hi hi' (by
    intro w hw
    rw [hw] at hop
    obtain ⟨p, hp⟩ | hop := hop
    · cases hp
    · cases hop) hliteral
  rw [instrValue?, h.id_eq id f hf] at hvalue
  rcases hop with ⟨p, hload⟩ | hcomputes
  · simp only [hload] at hvalue
    split at hvalue
    · cases hvalue
    constructor
    · intro hown before after d hreaches hexecutes
      exact h.eq_loadValue hsteady hf hi hload hvalue (hown p hload) hreaches hexecutes
    · intro q hq _ s j before after d hexecuted
      obtain rfl : p = q := Op.loadLocal.inj (hload.symm.trans hq)
      have hread : p ∈ i.places := List.mem_append_left _ (by simp [Instr.reads, hload, Op.reads])
      exact h.eq_of_executed hsteady (eq_of_loadValue? h hvalue).1 (h.mem_instructions hf hi) hread hexecuted
  · have hfolds : i.op.value? (m.facts env).known = some v := by
      cases hcase : i.op <;> simp_all [Op.isComputation]
    constructor
    · intro _ before after d hreaches hexecutes
      exact h.eq_value hsteady hf hi hfolds hreaches hexecutes
    · intro p hp
      rw [hp] at hcomputes
      cases hcomputes

/-- Most of what makes values easy to follow holds of every module that operations lead to. -/
theorem Reached.tame (h : m.Reached env) (hundestructured : ∀ i ∈ m.instructions, i.op.isDestructure = false)
    (hoperands : ∀ i ∈ m.instructions, i.op.isComputation = true → ∀ p ∈ i.reads,
      env.isTemporary p.declaration = true) : m.Tame env where
  ids e he := h.ids (Table.mem_entries.1 he)
  discerns := h.discerns
  undestructured := hundestructured
  once := h.numberedOnce.nodup
  ordered _ := h.inOrder.temporariesFirst
  operands := hoperands
  flow f hf := by
    obtain ⟨id, hf⟩ := Table.mem_values.1 hf
    exact h.hasFlow id f hf

theorem Reached.steady (h : m.Reached env)
    (hsources : ∀ i ∈ m.instructions, ∀ value ∈ i.op.stored?, env.isTemporary value.declaration = true) :
    m.Steady env := by
  have htemporary {i : Instr} (hi : i ∈ m.instructions) (hop : i.op.isNoted = true) :
      env.isTemporary i.place.declaration = true :=
    h.inOrder.isTemporary_place hi (Op.isUnnamed_of_isNoted hop)
  constructor
  case numbered =>
    intro i hi hop
    exact h.coherent.isNumbered (m.places_of_instr hi i.place_mem_places) (htemporary hi hop)
  case unseen =>
    intro i hi hop
    exact Environment.isCapturedMutable_of_temporary (htemporary hi hop)
  case sources =>
    intro id f hf b n i value hi hop hnamed
    have hmem := mem_instructions_of_sited (s := ⟨id, b, n⟩) ((mem_sited fun _ _ => h.ids).2 ⟨f, hf, hi⟩)
    rw [hsources i hmem value hop] at hnamed
    cases hnamed

end Module

/-- `const x = 1; function f() { return x; } log(x);` -/
def sharing : Syntax.Module :=
  let ident (text : String) : Syntax.Ident := .synthetic text
  let name (text : String) : Syntax.Expr := .name .synthetic (ident text)
  ⟨⟨0, 0⟩,
    [.declaration .synthetic .constKind
      [.mk .synthetic (.name .synthetic (ident "x")) (some (.literal .synthetic (.number Number.one)))],
     .function .synthetic (.mk .synthetic (some (ident "f")) []
       (.block [.return .synthetic (some (name "x"))]) false),
     .expression .synthetic (.call .synthetic (name "log") [.one (name "x")])]⟩

/-- Both loads of `x` become literals: the one behind the store gives one whenever it is executed, and
nothing but one is ever written to what the other one reads. -/
theorem Module.propagateConstants_sound_sharing :
    ∃ (m : Module) (env : Environment) (f g : Function) (i j : Instr) (p q : Place),
      joined? sharing = some (m, env) ∧ m.Tame env ∧ m.Steady env ∧
      m.functions.get? ⟨0⟩ = some f ∧ (f.codeAt (some ⟨0⟩))[4]? = some i ∧ i.op = .loadLocal p ∧
      f.Defines p.cell ∧
      m.functions.get? ⟨1⟩ = some g ∧ (g.codeAt (some ⟨1⟩))[0]? = some j ∧ j.op = .loadLocal q ∧
      ¬ g.Defines q.cell ∧
      (∃ before, f.Reaches env (some ⟨0⟩) 4 before) ∧
      (∀ before after d, f.Reaches env (some ⟨0⟩) 4 before → i.Executes env before after d →
        d = .plain (.number Number.one)) ∧
      ∀ s k before after d, m.Executed env s k before after d →
        (q.cell.id ∈ k.writes → after q.cell = .plain (.number Number.one)) ∧
        (q.cell.id ∉ k.writes → after q.cell = before q.cell) := by
  obtain ⟨⟨m, env⟩, hjoined, hundestructured, hoperands, hsources, hentry⟩ :
      ∃ t ∈ joined? sharing, (∀ i ∈ t.1.instructions, i.op.isDestructure = false) ∧
        (∀ i ∈ t.1.instructions, i.op.isComputation = true → ∀ p ∈ i.reads,
          t.2.isTemporary p.declaration = true) ∧
        (∀ i ∈ t.1.instructions, ∀ value ∈ i.op.stored?, t.2.isTemporary value.declaration = true) ∧
        ∀ f ∈ t.1.functions.get? ⟨0⟩, f.entry = ⟨0⟩ := by
    decide +kernel
  have hload : ∀ t ∈ joined? sharing, ∃ f ∈ t.1.functions.get? ⟨0⟩,
      ∃ f' ∈ (t.1.propagateConstants t.2 {}).2.1.functions.get? ⟨0⟩, ∃ i ∈ (f.codeAt (some ⟨0⟩))[4]?,
      ∃ i' ∈ (f'.codeAt (some ⟨0⟩))[4]?, ∃ p ∈ i.op.loaded?,
        i'.op.literal? = some (.number Number.one) ∧ f.Defines p.cell := by
    decide +kernel
  have hload' : ∀ t ∈ joined? sharing, ∃ g ∈ t.1.functions.get? ⟨1⟩,
      ∃ g' ∈ (t.1.propagateConstants t.2 {}).2.1.functions.get? ⟨1⟩, ∃ j ∈ (g.codeAt (some ⟨1⟩))[0]?,
      ∃ j' ∈ (g'.codeAt (some ⟨1⟩))[0]?, ∃ q ∈ j.op.loaded?,
        j'.op.literal? = some (.number Number.one) ∧ ¬ g.Defines q.cell := by
    decide +kernel
  obtain ⟨f, hf, f', hf', i, hi, i', hi', p, hp, hv, hown⟩ := hload _ hjoined
  obtain ⟨g, hg, g', hg', j, hj, j', hj', q, hq, hw, hforeign⟩ := hload' _ hjoined
  have htame : m.Tame env :=
    (arises_of_joined? hjoined).reached.tame hundestructured hoperands
  have hsteady : m.Steady env := (arises_of_joined? hjoined).reached.steady hsources
  rw [Option.mem_def, Op.loaded?_eq_some] at hp hq
  rw [Op.literal?_eq_some] at hv hw
  have hsame (r : Place) (hr : i.op = .loadLocal r) : f.Defines r.cell := by
    obtain rfl : p = r := Op.loadLocal.inj (hp.symm.trans hr)
    exact hown
  have hreachable : Reachable f.entry (edgesOf f.blocks) ⟨0⟩ := hentry f hf ▸ reachable_entry
  have hlength := Nat.le_of_lt (List.getElem?_eq_some_iff.1 hi).1
  exact ⟨m, env, f, g, i, j, p, q, hjoined, htame, hsteady, hf, hi, hp, hown, hg, hj, hq, hforeign,
    Function.exists_reaches hreachable hlength env,
    (propagateConstants_sound htame hsteady {} hf hf' hi hi' hv (.inl ⟨p, hp⟩)).1 hsame,
    (propagateConstants_sound htame hsteady {} hg hg' hj hj' hw (.inl ⟨q, hq⟩)).2 q hq hforeign⟩

/-! ## What happens otherwise -/

/-- Some execution comes to a load that becomes a literal, and the load gives something else. -/
def Module.Misreads (m : Module) (env : Environment) : Prop :=
  ∃ (id : FuncId) (f f' : Function) (b : Option BlockId) (n : Nat) (i i' : Instr) (p : Place)
    (v : Value) (before after : Contents) (d : Datum),
    m.functions.get? id = some f ∧ (m.propagateConstants env {}).2.1.functions.get? id = some f' ∧
      (f.codeAt b)[n]? = some i ∧ (f'.codeAt b)[n]? = some i' ∧ i.op = .loadLocal p ∧ f.Defines p.cell ∧
      i'.op = .literal v ∧ f.Reaches env b n before ∧ i.Executes env before after d ∧ d ≠ .plain v

theorem Module.misreads_ofCode {code : List (List (Place × Op) × Terminal)} {env : Environment}
    {b : Option BlockId} {n : Nat} {before : Contents}
    (hreaches : (Function.ofCode code).Reaches env b n before) (p : Place) (v : Value)
    (hne : before p.cell ≠ .plain v)
    (hfolds : (∃ i ∈ ((Function.ofCode code).codeAt b)[n]?, i.op.loaded? = some p) ∧
      (Function.ofCode code).Defines p.cell ∧
      ∃ f' ∈ ((ofCode code).propagateConstants env {}).2.1.functions.get? ⟨0⟩, ∃ i' ∈ (f'.codeAt b)[n]?,
        i'.op.literal? = some v) : (ofCode code).Misreads env := by
  obtain ⟨⟨i, hi, hop⟩, hown, f', hf', i', hi', hv⟩ := hfolds
  have hop := Op.loaded?_eq_some.1 hop
  have hgives : i.op.Gives before (before p.cell) := by
    rw [hop]
    rfl
  exact ⟨⟨0⟩, .ofCode code, f', b, n, i, i', p, v, before, _, _, rfl, hf', hi, hi', hop, hown,
    Op.literal?_eq_some.1 hv, hreaches, i.executes_update env hgives, hne⟩

/-- A literal gives its result to a variable, a call changes the variable, and it is read. -/
def changing : List (List (Place × Op) × Terminal) :=
  let x := Place.only 0 (.numbered 0)
  let temporary (n : Nat) := Place.only n (.numbered 0)
  [([(x, .literal .null), (temporary 1, .loadGlobal "f"), (temporary 2, .call (temporary 1) []),
    (temporary 3, .loadLocal x)], .ret none)]

/-- A cell without a numbered version is the result of two literals, and it is stored in between. -/
def rejoining : List (List (Place × Op) × Terminal) :=
  let x := Place.only 0 (.phi ⟨0⟩)
  let y := Place.only 1 (.numbered 0)
  let temporary (n : Nat) := Place.only n (.numbered 0)
  [([(x, .literal .null), (temporary 2, .storeLocal y x .letKind), (x, .literal .undefined),
    (temporary 3, .loadLocal y)], .ret none)]

/-- A variable is given a value in one arm of a branch, and it is stored where the arms meet. -/
def skipping : List (List (Place × Op) × Terminal) :=
  let x := Place.only 0 (.numbered 0)
  let y := Place.only 1 (.numbered 0)
  let temporary (n : Nat) := Place.only n (.numbered 0)
  [([(temporary 2, .loadGlobal "c")], .branch (temporary 2) ⟨1⟩ ⟨2⟩ ⟨3⟩),
    ([(temporary 3, .literal .null), (temporary 4, .storeLocal x (temporary 3) .letKind)], .jump ⟨3⟩),
    ([], .jump ⟨3⟩),
    ([(temporary 5, .storeLocal y x .letKind), (temporary 6, .loadLocal y)], .ret none)]

def changingEnv : Environment := .ofKinds [.letKind, .temporary, .temporary, .temporary] [⟨0⟩]

def rejoiningEnv : Environment := .ofKinds [.letKind, .letKind, .temporary, .temporary] []

def skippingEnv : Environment :=
  .ofKinds [.letKind, .letKind, .temporary, .temporary, .temporary, .temporary, .temporary] []

theorem misreads_changing : (Module.ofCode changing).Misreads changingEnv := by
  have hreaches : (Function.ofCode changing).Reaches changingEnv (some ⟨0⟩) 3 fun _ => .object 0 := by
    have hstart : (Function.ofCode changing).Reaches changingEnv (some ⟨0⟩) 0 fun _ => .object 0 :=
      .enter (.start _)
    have hliteral := hstart.step rfl (Instr.executes_update _ rfl)
    refine .step (.step hliteral rfl (Instr.executes_update (d := .object 0) _ trivial)) rfl
      (d := .object 0) ⟨trivial, fun _ _ => rfl, fun c _ => ?_⟩
    by_cases hx : c = (Place.only 0 (.numbered 0)).cell
    · right
      subst hx
      change changingEnv.isCapturedMutable _ = true
      decide
    · left
      simp [Instr.update, Instr.defined, Op.target?, hx]
  exact Module.misreads_ofCode hreaches (.only 0 (.numbered 0)) .null (by rintro ⟨⟩) (by decide +kernel)

theorem misreads_rejoining : (Module.ofCode rejoining).Misreads rejoiningEnv := by
  have hstart : (Function.ofCode rejoining).Reaches rejoiningEnv (some ⟨0⟩) 0 fun _ => .object 0 :=
    .enter (.start _)
  have hfirst := hstart.step rfl (Instr.executes_update _ rfl)
  have hsecond := hfirst.step rfl (Instr.executes_update _ rfl)
  have hthird := hsecond.step rfl (Instr.executes_update _ rfl)
  refine Module.misreads_ofCode hthird (.only 1 (.numbered 0)) .undefined ?_ (by decide +kernel)
  rintro ⟨⟩

theorem misreads_skipping : (Module.ofCode skipping).Misreads skippingEnv := by
  have hstill {b : Option BlockId} {n : Nat} {i : Instr}
      (h : (Function.ofCode skipping).Reaches skippingEnv b n fun _ => .object 0)
      (hi : ((Function.ofCode skipping).codeAt b)[n]? = some i)
      (hgives : i.op.Gives (fun _ => .object 0) (.object 0)) :
      (Function.ofCode skipping).Reaches skippingEnv b (n + 1) fun _ => .object 0 := by
    have hexecutes := i.executes_update skippingEnv hgives
    rw [i.update_const] at hexecutes
    exact h.step hi hexecutes
  have htest := hstill (.enter (.start _)) rfl trivial
  have harm := htest.jump (t := ⟨2⟩) (by decide +kernel)
  have hmeet := harm.jump (t := ⟨3⟩) (by decide +kernel)
  exact Module.misreads_ofCode (hstill hmeet rfl rfl) (.only 1 (.numbered 0)) .null
    (by rintro ⟨⟩) (by decide +kernel)

/-- Values cannot be followed otherwise: a result that code elsewhere changes, one without a numbered version,
and a store that stands behind no definition each have constant propagation replace a load that gives
something else. -/
theorem Module.propagateConstants_misreads :
    ((ofCode changing).Tame changingEnv ∧ (ofCode changing).Misreads changingEnv) ∧
      ((ofCode rejoining).Tame rejoiningEnv ∧ (ofCode rejoining).Misreads rejoiningEnv) ∧
      (ofCode skipping).Tame skippingEnv ∧ (ofCode skipping).Misreads skippingEnv :=
  ⟨⟨by decide +kernel, misreads_changing⟩, ⟨by decide +kernel, misreads_rejoining⟩,
    by decide +kernel, misreads_skipping⟩

end Whittle.Ir
