import Mathlib.Tactic.Common
import Std.Data.TreeMap.Lemmas
import Std.Data.TreeSet.Lemmas
import Whittle.Proofs.Flow.PostOrder
import Whittle.Proofs.Optimize.Flow
import Whittle.Proofs.Optimize.Thinning

/-!
# Dead code

The counts of reads that a round of removing dead code goes by stay exact while it removes one
instruction after the other, across blocks and functions.  So what goes is read by nothing that stays,
and a round that finds nothing leaves nothing.

Main statement: `Module.sweepDead_exact`.
-/

namespace Whittle.Ir

/-! ## What may go -/

/-- The destructuring of an array pattern whose value is an array literal without spreads. -/
def Function.DestructuresArray (f : Function) (i : Instr) : Prop :=
  ∃ pattern value kind, i.op = .destructure pattern value kind ∧
    (∃ j ∈ f.instructions, ∃ targets, j.op = .arrayPattern targets ∧
      j.place.cell.id = pattern.cell.id) ∧
    ∃ j ∈ f.instructions, ∃ elements, j.op = .array elements ∧ j.place.cell.id = value.cell.id ∧
      ∀ s ∈ f.instructions, ∀ inner, s.op = .spread inner →
        ∀ e ∈ elements, e.cell.id ≠ s.place.cell.id

/-- What dead code removal may take out of a function when the given cells are still read. -/
structure Function.Removable (f : Function) (read : List CellId) (i : Instr) : Prop where
  effectless : i.op.isPure = true ∨ f.DestructuresArray i
  not_copy : ∀ target value, i.op ≠ .copy target value
  unread : ∀ p ∈ i.defined, p.cell.id ∉ read

theorem Function.exists_of_contains_patterns {f : Function} {id : CellId}
    (h : f.arrayShapes.patterns.contains id = true) :
    ∃ j ∈ f.instructions, ∃ targets, j.op = .arrayPattern targets ∧ j.place.cell.id = id := by
  rw [Function.arrayShapes, Std.TreeMap.contains_ofList] at h
  simp only [List.contains_eq_mem, List.mem_map, decide_eq_true_eq] at h
  obtain ⟨e, he, rfl⟩ := h
  obtain ⟨j, hj, hsome⟩ := List.mem_filterMap.1 he
  split at hsome
  · next targets hop =>
    cases hsome
    exact ⟨j, hj, targets, hop, rfl⟩
  · cases hsome

theorem Function.exists_of_contains_arrays {f : Function} {id : CellId}
    (h : f.arrayShapes.arrays.contains id = true) :
    ∃ j ∈ f.instructions, ∃ elements, j.op = .array elements ∧ j.place.cell.id = id ∧
      ∀ s ∈ f.instructions, ∀ inner, s.op = .spread inner →
        ∀ e ∈ elements, e.cell.id ≠ s.place.cell.id := by
  rw [Function.arrayShapes, Std.TreeSet.contains_ofList] at h
  simp only [List.contains_eq_mem, decide_eq_true_eq] at h
  obtain ⟨j, hj, hsome⟩ := List.mem_filterMap.1 h
  split at hsome
  · next elements hop =>
    split at hsome
    · cases hsome
    · next hspreads =>
      cases hsome
      refine ⟨j, hj, elements, hop, rfl, fun s hs inner hspread e he heq => hspreads ?_⟩
      rw [List.any_eq_true]
      refine ⟨e, he, ?_⟩
      rw [Std.TreeSet.contains_ofList, List.contains_eq_mem, decide_eq_true_eq, List.mem_filterMap]
      exact ⟨s, hs, by rw [hspread, heq]⟩
  · cases hsome

/-- What is dead for the shapes of a function has no effects. -/
theorem Instr.effectless_of_isDead {env : Environment} {f : Function} {counts : ReadCounts} {i : Instr}
    (h : i.isDead env f.arrayShapes counts = true) : i.op.isPure = true ∨ f.DestructuresArray i := by
  rw [Instr.isDead] at h
  dsimp only at h
  split at h
  · cases h
  · next hop =>
    left
    rw [hop]
    rfl
  · next pattern value kind hop =>
    split at h
    · cases h
    · next targets hpattern =>
      simp only [Bool.and_eq_true] at h
      have hcontains : f.arrayShapes.patterns.contains pattern.cell.id = true := by
        rw [Std.TreeMap.contains_eq_isSome_getElem?]
        exact Option.isSome_iff_exists.2 ⟨targets, hpattern⟩
      exact .inr ⟨pattern, value, kind, hop, f.exists_of_contains_patterns hcontains,
        f.exists_of_contains_arrays h.1.2⟩
  · exact .inl (Bool.and_eq_true_iff.1 h).1

theorem Instr.not_copy_of_isDead {env : Environment} {shapes : ArrayShapes} {counts : ReadCounts}
    {i : Instr} (h : i.isDead env shapes counts = true) (target value : Place) :
    i.op ≠ .copy target value := by
  intro hop
  rw [Instr.isDead, hop] at h
  cases h

/-! ## One instruction after the other -/

/-- One more instruction goes. -/
theorem Thins.drop_mem {G G' : Instr → Prop} {is before after : List Instr} {i : Instr}
    (h : Thins (· = ·) G is (before ++ i :: after)) (hG : ∀ j, G j → G' j) (hi : G' i) :
    Thins (· = ·) G' is (before ++ after) := by
  generalize hjs : before ++ i :: after = js at h
  induction h generalizing before with
  | nil => simp at hjs
  | @keep j _ is js hsame hrest ih =>
    subst hsame
    cases before with
    | nil =>
      cases hjs
      exact .drop hi (hrest.imp_mem (fun _ _ _ h => h) fun j _ => hG j)
    | cons k before =>
      cases hjs
      exact .keep rfl (ih rfl)
  | drop hgone _ ih => exact .drop (hG _ hgone) (ih hjs)

variable {env : Environment} {m m' : Module} {counts : ReadCounts}

/-- How far a round has come: the counts are exact, and what went may go. -/
structure Module.Swept (m m' : Module) (counts : ReadCounts) : Prop where
  counts : ∀ c, counts.getD c 0 = m'.readCells.count c
  frame : m' = { m with functions := m'.functions }
  contains : ∀ id, m'.functions.contains id = m.functions.contains id
  functions : ∀ id f f', m.functions.get? id = some f → m'.functions.get? id = some f' →
    f.Reworks (Thins (· = ·) (f.Removable m'.readCells)) f'

theorem Module.Swept.start (m : Module) : m.Swept m m.readCounts := by
  refine ⟨m.getD_readCounts, rfl, fun _ => rfl, fun id f f' hf hf' => ?_⟩
  obtain rfl := Option.some.inj (hf.symm.trans hf')
  exact .refl fun is => .of_forall₂ (List.forall₂_same.2 fun _ _ => rfl)

/-- A dead instruction goes, and its reads are taken back. -/
theorem Module.Swept.remove (h : m.Swept m' counts) {id : FuncId} {f f' : Function}
    (hf : m.functions.get? id = some f) (hf' : m'.functions.get? id = some f') {block : BlockId}
    {b : Block} (hb : f'.blocks.get? block = some b) {before after : List Instr} {i : Instr}
    (hinstrs : b.instructions = before ++ i :: after)
    (hdead : i.isDead env f.arrayShapes counts = true) :
    m.Swept (m'.setFunction id (f'.setBlock block { b with instructions := before ++ after }))
      (counts.release i.reads) := by
  have hperm := readCells_remove hf' hb hinstrs
  have hfewer : (m'.setFunction id
      (f'.setBlock block { b with instructions := before ++ after })).readCells ⊆ m'.readCells :=
    fun c hc => hperm.mem_iff.2 (List.mem_append_right _ hc)
  have hremovable {f : Function} {j : Instr} (hj : f.Removable m'.readCells j) :
      f.Removable (m'.setFunction id
        (f'.setBlock block { b with instructions := before ++ after })).readCells j :=
    ⟨hj.effectless, hj.not_copy, fun p hp hmem => hj.unread p hp (hfewer hmem)⟩
  have hi : f.Removable m'.readCells i := by
    refine ⟨i.effectless_of_isDead hdead, i.not_copy_of_isDead hdead, fun p hp => ?_⟩
    have hunread : counts.getD p.cell.id 0 = 0 := i.isUnread_of_isDead hdead hp
    rw [h.counts] at hunread
    exact List.count_eq_zero.1 hunread
  refine ⟨fun c => ?_, ?_, fun id' => ?_, fun id' g g' hg hg' => ?_⟩
  · have hcount := List.perm_iff_count.1 hperm c
    rw [List.count_append] at hcount
    rw [ReadCounts.getD_release, h.counts]
    omega
  · rw [setFunction, h.frame]
  · rw [setFunction, Table.contains_insert, h.contains, Bool.or_eq_right_iff_imp]
    intro hid
    rw [of_decide_eq_true hid]
    exact Table.contains_iff.2 ⟨f, hf⟩
  · rw [get?_setFunction] at hg'
    split at hg'
    · next hid =>
      subst hid
      obtain rfl := Option.some.inj (hf.symm.trans hg)
      obtain rfl := Option.some.inj hg'
      refine (h.functions _ f f' hf hf').setBlock hb (fun js hthins => ?_) fun js js' hthins => ?_
      · rw [hinstrs] at hthins
        exact hthins.drop_mem (fun _ => hremovable) (hremovable hi)
      · exact hthins.imp_mem (fun _ _ _ h => h) fun _ _ => hremovable
    · exact (h.functions id' g g' hg hg').imp_mem fun _ _ _ _ hthins =>
        hthins.imp_mem (fun _ _ _ h => h) fun _ _ => hremovable

/-- A round sweeps one function after the other and hands the counts on. -/
theorem Module.sweepDead_eq (m : Module) (env : Environment) :
    (m.sweepDead env).2 = (m.functions.entries.foldl
      (fun t e => (t.1.setFunction e.1 (e.2.sweep env t.2).1, (e.2.sweep env t.2).2))
      (m, m.readCounts)).1 := rfl

/-- A whole round. -/
theorem Module.swept_sweepDead (m : Module) (env : Environment) :
    ∃ counts, m.Swept (m.sweepDead env).2 counts := by
  have hround := Module.foldl_entries
    (P := fun es t => m.Swept t.1 t.2 ∧ ∀ e ∈ es, m.functions.get? e.1 = some e.2)
    (fun t : Module × ReadCounts => t.1)
    (fun t e => (t.1.setFunction e.1 (e.2.sweep env t.2).1, (e.2.sweep env t.2).2))
    (fun t e => ⟨_, rfl⟩) ?_ (t := (m, m.readCounts)) ⟨.start m, fun e he => Table.mem_entries.1 he⟩
  · rw [sweepDead_eq]
    exact ⟨_, hround.1⟩
  rintro ⟨m', counts⟩ id f es ⟨hswept, hes⟩ hf'
  obtain ⟨hf, hes⟩ := List.forall_mem_cons.1 hes
  refine ⟨?_, hes⟩
  refine Function.sweep_induction (P := fun f' counts => m.Swept (m'.setFunction id f') counts) ?_ ?_
  · intro f' counts block b before i after h hb hinstrs hdead
    have hremoved := h.remove hf (by rw [get?_setFunction, if_pos rfl]) hb hinstrs hdead
    simpa only [setFunction_setFunction] using hremoved
  · rwa [setFunction_self hf']

/-! ## Nothing is overlooked -/

/-- A block with nothing dead in it is left alone; any other gets shorter. -/
theorem sweepBlock_cases (env : Environment) (shapes : ArrayShapes) (is : List Instr)
    (counts : ReadCounts) :
    (sweepBlock env shapes is counts = (is, counts) ∧
      ∀ i ∈ is, i.isDead env shapes counts = false) ∨
      (sweepBlock env shapes is counts).1.length < is.length := by
  induction is with
  | nil => exact .inl ⟨rfl, by simp⟩
  | cons i is ih =>
    rw [sweepBlock]
    dsimp only
    rcases ih with ⟨hsame, hrest⟩ | hless
    · rw [hsame]
      by_cases hdead : i.isDead env shapes counts = true
      · rw [if_pos hdead]
        exact .inr (Nat.lt_succ_self _)
      · rw [if_neg hdead]
        exact .inl ⟨rfl, List.forall_mem_cons.2 ⟨Bool.eq_false_iff.2 hdead, hrest⟩⟩
    · right
      split
      · exact Nat.lt_succ_of_lt hless
      · exact Nat.succ_lt_succ hless

theorem Function.length_instructions_setBlock {f : Function} {id : BlockId} {b b' : Block}
    (hb : f.blocks.get? id = some b) (hless : b'.instructions.length < b.instructions.length) :
    (f.setBlock id b').instructions.length < f.instructions.length := by
  have hold := (f.instructions_perm hb).length_eq
  have hnew := (f.instructions_setBlock_perm id b').length_eq
  rw [List.length_append] at hold hnew
  omega

theorem Module.length_instructions_setFunction {id : FuncId} {f f' : Function}
    (hf : m.functions.get? id = some f) (hless : f'.instructions.length < f.instructions.length) :
    (m.setFunction id f').instructions.length < m.instructions.length := by
  have hold := (m.instructions_perm hf).length_eq
  have hnew := (m.instructions_setFunction_perm id f').length_eq
  rw [List.length_append] at hold hnew
  omega

/-- The turn of one block. -/
def sweepOne (env : Environment) (shapes : ArrayShapes) (s : Function × ReadCounts) (id : BlockId) :
    Function × ReadCounts :=
  match s.1.blocks.get? id with
  | none => s
  | some b =>
    (s.1.setBlock id { b with instructions := (sweepBlock env shapes b.instructions s.2).1 },
      (sweepBlock env shapes b.instructions s.2).2)

theorem Function.sweep_eq (f : Function) (env : Environment) (counts : ReadCounts) :
    f.sweep env counts = f.flow.postOrder.foldl (sweepOne env f.arrayShapes) (f, counts) := rfl

theorem sweepOne_cases (env : Environment) (shapes : ArrayShapes) (s : Function × ReadCounts)
    (id : BlockId) :
    (sweepOne env shapes s id = s ∧ ∀ b, s.1.blocks.get? id = some b →
      ∀ i ∈ b.instructions, i.isDead env shapes s.2 = false) ∨
      (sweepOne env shapes s id).1.instructions.length < s.1.instructions.length := by
  rw [sweepOne]
  cases hb : s.1.blocks.get? id with
  | none => exact .inl ⟨rfl, nofun⟩
  | some b =>
    rcases sweepBlock_cases env shapes b.instructions s.2 with ⟨hsame, hnone⟩ | hless
    · left
      simp only [hsame]
      refine ⟨by rw [Function.setBlock_self hb], fun b' hb' => ?_⟩
      rwa [← Option.some.inj hb']
    · exact .inr (Function.length_instructions_setBlock hb hless)

/-- Blocks with nothing dead in them are left alone; else the function gets shorter. -/
theorem foldl_sweepOne_cases (env : Environment) (shapes : ArrayShapes) (order : List BlockId)
    (s : Function × ReadCounts) :
    (order.foldl (sweepOne env shapes) s = s ∧ ∀ id ∈ order, ∀ b, s.1.blocks.get? id = some b →
      ∀ i ∈ b.instructions, i.isDead env shapes s.2 = false) ∨
      (order.foldl (sweepOne env shapes) s).1.instructions.length < s.1.instructions.length := by
  induction order generalizing s with
  | nil => exact .inl ⟨rfl, nofun⟩
  | cons id order ih =>
    rw [List.foldl_cons]
    rcases sweepOne_cases env shapes s id with ⟨hsame, hnone⟩ | hless
    · rw [hsame]
      exact (ih s).imp_left fun ⟨hrest, hnone'⟩ => ⟨hrest, List.forall_mem_cons.2 ⟨hnone, hnone'⟩⟩
    · right
      rcases ih (sweepOne env shapes s id) with ⟨hrest, -⟩ | hrest
      · rwa [hrest]
      · exact hrest.trans hless

/-- Nothing in the blocks of a function is dead. -/
def Function.IsSwept (env : Environment) (f : Function) (counts : ReadCounts) : Prop :=
  ∀ id b, f.blocks.get? id = some b → ∀ i ∈ b.instructions, i.isDead env f.arrayShapes counts = false

/-- A function with nothing dead in it is left alone; any other gets shorter. -/
theorem Function.sweep_cases {f : Function} (hflow : f.HasFlow) (env : Environment)
    (counts : ReadCounts) :
    (f.sweep env counts = (f, counts) ∧ f.IsSwept env counts) ∨
      (f.sweep env counts).1.instructions.length < f.instructions.length := by
  rw [sweep_eq]
  refine (foldl_sweepOne_cases env f.arrayShapes f.flow.postOrder (f, counts)).imp_left
    fun ⟨hsame, hnone⟩ => ⟨hsame, fun id b hb => hnone id ?_ b hb⟩
  rw [hflow]
  refine mem_postOrder_compute ?_
  rw [edgesOf, Table.contains_map]
  exact Table.contains_iff.2 ⟨b, hb⟩

/-- A module with nothing dead in it is left alone; any other gets shorter. -/
theorem Module.sweepDead_cases (hflow : ∀ id f, m.functions.get? id = some f → f.HasFlow)
    (env : Environment) :
    ((m.sweepDead env).2 = m ∧
      ∀ id f, m.functions.get? id = some f → f.IsSwept env m.readCounts) ∨
      (m.sweepDead env).2.instructions.length < m.instructions.length := by
  have hround := Module.foldl_entries
    (P := fun es t => (∀ e ∈ es, m.functions.get? e.1 = some e.2) ∧
      ((t = (m, m.readCounts) ∧
        ∀ e ∈ m.functions.entries, e ∈ es ∨ e.2.IsSwept env m.readCounts) ∨
        t.1.instructions.length < m.instructions.length))
    (fun t : Module × ReadCounts => t.1)
    (fun t e => (t.1.setFunction e.1 (e.2.sweep env t.2).1, (e.2.sweep env t.2).2))
    (fun t e => ⟨_, rfl⟩) ?_ (t := (m, m.readCounts))
    ⟨fun e he => Table.mem_entries.1 he, .inl ⟨rfl, fun e he => .inl he⟩⟩
  · rw [sweepDead_eq]
    refine hround.2.imp_left fun ⟨hsame, hswept⟩ => ⟨congrArg Prod.fst hsame, fun id f hf => ?_⟩
    exact (hswept _ (Table.mem_entries.2 hf)).resolve_left List.not_mem_nil
  rintro ⟨m', counts⟩ id f es ⟨hes, hstate⟩ hf'
  obtain ⟨hf, hes⟩ := List.forall_mem_cons.1 hes
  refine ⟨hes, ?_⟩
  rcases f.sweep_cases (hflow id f hf) env counts with ⟨hsame, hswept⟩ | hless
  · dsimp only at hstate ⊢
    rw [hsame]
    dsimp only
    rw [setFunction_self hf']
    refine hstate.imp_left fun ⟨hstart, hearlier⟩ => ⟨hstart, fun e he => ?_⟩
    obtain ⟨rfl, rfl⟩ := Prod.mk.inj hstart
    rcases hearlier e he with hmem | hdone
    · rcases List.mem_cons.1 hmem with rfl | hmem
      · exact .inr hswept
      · exact .inl hmem
    · exact .inr hdone
  · right
    refine (length_instructions_setFunction hf' hless).trans_le ?_
    rcases hstate with ⟨hstart, -⟩ | hshorter
    · rw [(Prod.mk.inj hstart).1]
    · exact hshorter.le

/-- A round of removing dead code takes instructions out of blocks and changes nothing else.  They have
no effects, are no copies of joins, and define nothing that is still read in the end.  If the round
finds nothing, no instruction of a block is dead; else there are fewer instructions than before. -/
theorem Module.sweepDead_exact (hflow : ∀ id f, m.functions.get? id = some f → f.HasFlow)
    (env : Environment) :
    (m.sweepDead env).2 = { m with functions := (m.sweepDead env).2.functions } ∧
      (∀ id, (m.sweepDead env).2.functions.contains id = m.functions.contains id) ∧
      (∀ id f f', m.functions.get? id = some f →
        (m.sweepDead env).2.functions.get? id = some f' →
        f.Reworks (Thins (· = ·) (f.Removable (m.sweepDead env).2.readCells)) f') ∧
      ((m.sweepDead env).1 = false → (m.sweepDead env).2 = m ∧
        ∀ id f, m.functions.get? id = some f → f.IsSwept env m.readCounts) ∧
      ((m.sweepDead env).1 = true →
        (m.sweepDead env).2.instructions.length < m.instructions.length) := by
  obtain ⟨counts, hswept⟩ := m.swept_sweepDead env
  have hflag : (m.sweepDead env).1 =
      ((m.sweepDead env).2.instructions.length != m.instructions.length) := rfl
  refine ⟨hswept.frame, hswept.contains, hswept.functions, fun hfalse => ?_, fun htrue => ?_⟩
  · refine (sweepDead_cases hflow env).resolve_right fun hless => ?_
    rw [hflag, bne_eq_false_iff_eq] at hfalse
    exact absurd hfalse (Nat.ne_of_lt hless)
  · refine (sweepDead_cases hflow env).resolve_left fun ⟨hsame, _⟩ => ?_
    rw [hflag, hsame, bne_iff_ne] at htrue
    exact htrue rfl

/-- `let x = true; log(x); let y = true;` -/
def unread : Syntax.Module :=
  let name (text : String) : Syntax.Expr := .name .synthetic (.synthetic text)
  let declare (text : String) : Syntax.Stmt :=
    .declaration .synthetic .letKind
      [.mk .synthetic (.name .synthetic (.synthetic text))
        (some (.literal .synthetic (.boolean true)))]
  ⟨⟨0, 0⟩,
    [declare "x", .expression .synthetic (.call .synthetic (name "log") [.one (name "x")]),
      declare "y"]⟩

/-- The declaration of `y` goes, whatever else stays. -/
theorem Module.sweepDead_exact_unread :
    ∃ (m : Module) (env : Environment) (f f' : Function), joined? unread = some (m, env) ∧
      (m.sweepDead env).1 = true ∧ m.functions.get? ⟨0⟩ = some f ∧
      (m.sweepDead env).2.functions.get? ⟨0⟩ = some f' ∧
      f.Reworks (Thins (· = ·) (f.Removable (m.sweepDead env).2.readCells)) f' ∧
      (m.sweepDead env).2.instructions.length < m.instructions.length := by
  obtain ⟨⟨m, env⟩, hjoined, hfound, hcontains⟩ : ∃ t ∈ joined? unread,
      (t.1.sweepDead t.2).1 = true ∧ t.1.functions.contains ⟨0⟩ = true := by
    decide +kernel
  obtain ⟨f, hf⟩ := Table.contains_iff.1 hcontains
  obtain ⟨-, hkeys, hfunctions, -, hless⟩ :=
    sweepDead_exact (arises_of_joined? hjoined).reached.hasFlow env
  obtain ⟨f', hf'⟩ := Table.contains_iff.1 ((hkeys ⟨0⟩).trans hcontains)
  exact ⟨m, env, f, f', hjoined, hfound, hf, hf', hfunctions ⟨0⟩ f f' hf hf', hless hfound⟩

end Whittle.Ir
