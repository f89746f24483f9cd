import Mathlib.Tactic.Common
import Whittle.Proofs.Inline.Copies

/-!
# The expansion of a call

What replaces a call consists of an array of the arguments, a copy of the callee's header, the
destructuring of the array into the parameters and a copy of the callee's body
(`Inlining.exists_expansion`).  All copies are made with the same counterparts.
-/

namespace Whittle.Ir

theorem exists_of_returned? {body : List Block} {p : Place} (h : returned? body = some p) :
    ∃ b ∈ body, b.terminal = some (.ret (some p)) := by
  rw [returned?] at h
  split at h
  · next value hlast =>
    obtain ⟨b, hb, hterminal⟩ := Option.bind_eq_some_iff.1 hlast
    exact ⟨b, List.mem_of_getLast? hb, by rw [hterminal, h]⟩
  · cases h

namespace Inlining

variable {inl : Inlining} {env : Environment} {start : List Cell}

/-- The instructions of the callee's body in order. -/
def code (inl : Inlining) : List Instr := inl.body.flatMap (·.instructions)

/-- The callee can be copied: its places are known to the environment, it defines only what it owns,
its parameters are plain names, and the value that it returns is its own. -/
structure Copyable (inl : Inlining) (env : Environment) (start : List Cell) : Prop where
  logs : env.Logs start
  known : ∀ p ∈ inl.callee.places, p.IsOf start
  owned : ∀ i ∈ inl.callee.instructions, ∀ p ∈ i.defined,
    env.ownerOf p.declaration = some inl.callee.id
  bindings : ∀ i ∈ inl.callee.header, ∃ name, i.op = .binding name
  params : ∀ p ∈ inl.callee.params, ∃ i ∈ inl.callee.header, i.place.cell = p.cell
  body : ∀ b ∈ inl.body, b ∈ inl.callee.blocks.values
  returned : ∀ p, returned? inl.body = some p → env.ownerOf p.declaration = some inl.callee.id

namespace Copyable

theorem declared (h : inl.Copyable env start) {p : Place} (hp : p ∈ inl.callee.places) :
    p.declaration.index < env.declarations.size :=
  (h.logs.has (h.known p hp)).2

theorem mem_of_header {i : Instr} (hi : i ∈ inl.callee.header) : i ∈ inl.callee.instructions :=
  List.mem_append_left _ hi

theorem mem_of_code (h : inl.Copyable env start) {i : Instr} (hi : i ∈ inl.code) :
    i ∈ inl.callee.instructions := by
  obtain ⟨b, hb, hi⟩ := List.mem_flatMap.1 hi
  exact List.mem_append_right _ (List.mem_flatMap.2 ⟨b, h.body b hb, hi⟩)

theorem mem_of_returned (h : inl.Copyable env start) {p : Place} (hp : returned? inl.body = some p) :
    p ∈ inl.callee.places := by
  obtain ⟨b, hb, hterminal⟩ := exists_of_returned? hp
  exact Function.places_of_terminal (List.mem_filterMap.2 ⟨b, h.body b hb, hterminal⟩)
    (List.mem_singleton_self p)

end Copyable

/-- The parts of an expansion; `c` is the copying at its end. -/
structure Expands (inl : Inlining) (env : Environment) (start cells : List Cell)
    (arguments : List Place) (c : Copying) (array : Instr) (header : List Instr)
    (pattern bind : Instr) (body : List Instr) : Prop where
  goes : c.Goes env start cells [bind.place, pattern.place, array.place]
  caller : c.caller = inl.caller.id
  callee : c.callee = inl.callee.id
  /-- Whatever the callee's code mentions has a counterpart. -/
  covers : ∀ i ∈ inl.callee.header ++ inl.code, ∀ p ∈ i.places, c.Covers p
  covers_params : ∀ p ∈ inl.callee.params, c.Covers p
  covers_returned : ∀ p, returned? inl.body = some p → c.Covers p
  array_op : array.op = .array arguments
  pattern_op : pattern.op = .arrayPattern (inl.callee.params.map fun p => some (c.place p))
  bind_op : bind.op = .destructure pattern.place array.place .letKind
  new : ∀ i ∈ [array, pattern, bind], env.nextCell.index ≤ i.place.cell.id.index
  header : List.Forall₂ c.IsCopy inl.callee.header header
  body : List.Forall₂ c.IsCopy inl.code body

/-- What an expansion ends with: a function without a value gives the call one. -/
def closing (inl : Inlining) (call : Instr) : List Instr :=
  (returned? inl.body).elim [{ call with op := .literal .undefined }] fun _ => []

theorem goes_start (h : env.Logs start) (caller callee : FuncId) :
    (⟨env, caller, callee, ∅, ∅⟩ : Copying).Goes env start start [] := by
  have hnone {κ ν : Type} [Ord κ] (k : κ) (v : ν) : (∅ : Table κ ν).get? k ≠ some v := nofun
  exact ⟨h, .refl h, rfl, rfl, ⟨fun d d' h => absurd h (hnone d d'), fun id p h => absurd h (hnone id p),
    fun id p h => absurd h (hnone id p), fun id p h => absurd h (hnone id p),
    fun id p h => absurd h (hnone id p), fun id p h => absurd h (hnone id p),
    fun id p h => absurd h (hnone id p), fun id p _ _ h => absurd h (hnone id p), by simp, .nil, by simp⟩⟩

theorem exists_expansion (h : inl.Copyable env start) (call : Instr) (arguments : List Place) :
    ∃ cells c array header pattern bind body,
      inl.Expands env start cells arguments c array header pattern bind body ∧
      inl.expansion env call arguments =
        (array :: header ++ [pattern, bind] ++ body ++ inl.closing call,
          (returned? inl.body).map c.place, c.env) := by
  have hknown {i : Instr} (hi : i ∈ inl.callee.instructions) (p : Place) (hp : p ∈ i.places) :
      p.IsOf start :=
    h.known p (Function.places_of_instr hi hp)
  have hparams (p : Place) (hp : p ∈ inl.callee.params) : p.IsOf start :=
    h.known p (Function.places_of_params hp)
  -- the copyings one after the other, as the expansion goes through them
  rw [expansion]
  obtain ⟨cells₁, hgoes₁, hextends₁, hnew₁⟩ :=
    (goes_start h.logs inl.caller.id inl.callee.id).new (.array arguments)
  have harray : (Copying.new ⟨env, inl.caller.id, inl.callee.id, ∅, ∅⟩ (.array arguments)).1.op =
    .array arguments := rfl
  generalize Copying.new ⟨env, inl.caller.id, inl.callee.id, ∅, ∅⟩ (.array arguments) = r₁ at *
  obtain ⟨array, c₁⟩ := r₁
  obtain ⟨cells₂, hgoes₂, hextends₂, hcovers₂, hheader⟩ :=
    hgoes₁.instrs fun i hi => hknown (Copyable.mem_of_header hi)
  dsimp only at *
  generalize c₁.instrs inl.callee.header = r₂ at *
  obtain ⟨header, c₂⟩ := r₂
  obtain ⟨cells₃, hgoes₃, hextends₃, hcovers₃⟩ := hgoes₂.addAll hparams
  dsimp only at *
  generalize inl.callee.params.foldl Copying.add c₂ = c₃ at *
  obtain ⟨cells₄, hgoes₄, hextends₄, hnew₄⟩ :=
    hgoes₃.new (.arrayPattern (inl.callee.params.map fun p => some (c₃.place p)))
  have hpattern : (c₃.new (.arrayPattern (inl.callee.params.map fun p => some (c₃.place p)))).1.op =
    .arrayPattern (inl.callee.params.map fun p => some (c₃.place p)) := rfl
  generalize c₃.new (.arrayPattern (inl.callee.params.map fun p => some (c₃.place p))) = r₄ at *
  obtain ⟨pattern, c₄⟩ := r₄
  obtain ⟨cells₅, hgoes₅, hextends₅, hnew₅⟩ :=
    hgoes₄.new (.destructure pattern.place array.place .letKind)
  have hbind : (c₄.new (.destructure pattern.place array.place .letKind)).1.op =
    .destructure pattern.place array.place .letKind := rfl
  dsimp only at *
  generalize c₄.new (.destructure pattern.place array.place .letKind) = r₅ at *
  obtain ⟨bind, c₅⟩ := r₅
  obtain ⟨cells₆, hgoes₆, hextends₆, hcovers₆, hbody⟩ :=
    hgoes₅.instrs fun i hi => hknown (h.mem_of_code hi)
  rw [code] at *
  dsimp only at *
  generalize c₅.instrs (inl.body.flatMap (·.instructions)) = r₆ at *
  obtain ⟨body, c₆⟩ := r₆
  obtain ⟨cells₇, hgoes₇, hextends₇, hcovers₇⟩ := hgoes₆.addAny fun p hp => h.known p (h.mem_of_returned hp)
  -- what was made on the way is still there at the end
  have hrest₃ := hextends₄.trans (hextends₅.trans (hextends₆.trans hextends₇))
  have hrest₂ := hextends₃.trans hrest₃
  have hrest₁ := hextends₂.trans hrest₂
  have hheader_known (i : Instr) (hi : i ∈ inl.callee.header) (p : Place) (hp : p ∈ i.places) :
      p.declaration.index < c₂.env.declarations.size :=
    (h.logs.has (hknown (Copyable.mem_of_header hi) p hp)).2.trans_le hgoes₂.env.size
  have hbody_known (i : Instr) (hi : i ∈ inl.code) (p : Place) (hp : p ∈ i.places) :
      p.declaration.index < c₆.env.declarations.size :=
    (h.logs.has (hknown (h.mem_of_code hi) p hp)).2.trans_le hgoes₆.env.size
  have hparams_known (p : Place) (hp : p ∈ inl.callee.params) :
      p.declaration.index < c₃.env.declarations.size :=
    (h.logs.has (hparams p hp)).2.trans_le hgoes₃.env.size
  refine ⟨cells₇, (returned? inl.body).elim c₆ c₆.add, array, header, pattern, bind, body,
    ⟨hgoes₇, hrest₁.caller.trans hextends₁.caller, hrest₁.callee.trans hextends₁.callee,
      fun i hi p hp => ?_, fun p hp => (hcovers₃ p hp).extend hrest₃ (hparams_known p hp), hcovers₇,
      harray, ?_, hbind, by simpa using ⟨hnew₁, hnew₄, hnew₅⟩,
      Copying.isCopy_extend hheader hrest₂ hheader_known hcovers₂,
      Copying.isCopy_extend hbody hextends₇ hbody_known hcovers₆⟩, ?_⟩
  · rcases List.mem_append.1 hi with hi | hi
    · exact (hcovers₂ i hi p hp).extend hrest₂ (hheader_known i hi p hp)
    · exact (hcovers₆ i hi p hp).extend hextends₇ (hbody_known i hi p hp)
  · rw [hpattern]
    refine congrArg Op.arrayPattern (List.map_congr_left fun p hp => congrArg some (Eq.symm ?_))
    exact Copying.place_extend hrest₃ (hparams_known p hp) (hcovers₃ p hp)
  · rw [closing, returned?]
    rcases inl.body.getLast?.bind (·.terminal) with _ | _ | _ | _ | _ <;> simp

end Inlining

end Whittle.Ir
