import Mathlib.Data.List.Forall2
import Mathlib.Tactic.Common
import Whittle.Proofs.Ir.Cells

/-!
# Definitions before uses

Temporaries live inside of one block: whatever reads one stands behind the instruction of the same
block that defines it.  `Ordered` says so of a list of instructions and of what is read behind it, given
the cells that are defined before it.
-/

namespace Whittle.Ir

/-- Whether what an operation gives has no name.  Parameters, functions, classes and imports are
named. -/
def Op.isUnnamed : Op → Bool
  | .binding .. | .functionDeclaration .. | .importSpecifier .. | .unsupported .. => false
  | _ => true

/-- Whether an operation names a variable inside a pattern. -/
def Op.isBinding : Op → Bool
  | .binding _ => true
  | _ => false

theorem Op.target?_of_isBinding {op : Op} (h : op.isBinding = true) : op.target? = none := by
  cases op <;> first | rfl | cases h

theorem Op.isBinding_of_isUnnamed {op : Op} (h : op.isUnnamed = true) : op.isBinding = false := by
  cases op <;> first | rfl | cases h

/-- A place can be read where the given cells are defined: temporaries only if they are among them. -/
def Available (env : Environment) (known : List CellId) (p : Place) : Prop :=
  env.isTemporary p.declaration = true → p.cell.id ∈ known

/-- An instruction can stand where the given cells are defined.  What has no name is a temporary, what a
pattern binds is not. -/
structure Instr.Ready (env : Environment) (known : List CellId) (i : Instr) : Prop where
  reads : ∀ p ∈ i.reads, Available env known p
  unnamed : i.op.isUnnamed = true → env.isTemporary i.place.declaration = true
  bound : i.op.isBinding = true → env.isTemporary i.place.declaration = false

/-- Every instruction of a list can stand where it stands, and the last places can be read behind
them. -/
def Ordered (env : Environment) (last : List Place) : (known : List CellId) → List Instr → Prop
  | known, [] => ∀ p ∈ last, Available env known p
  | known, i :: is => i.Ready env known ∧ Ordered env last (i.writes ++ known) is

/-- The places that are read where a block ends. -/
def Block.lastReads (b : Block) : List Place := (b.terminal.map (·.reads)).getD []

/-- The instructions of a block and its terminal read temporaries of the block only. -/
def Block.InOrder (env : Environment) (b : Block) : Prop := Ordered env b.lastReads [] b.instructions

/-- The temporaries of a function are read behind their definitions, in its header and in its
blocks. -/
structure Function.InOrder (env : Environment) (f : Function) : Prop where
  header : Ordered env [] [] f.header
  blocks : ∀ id b, f.blocks.get? id = some b → b.InOrder env

/-- The instructions of a list read temporaries behind their definitions only. -/
def TemporariesFirst (env : Environment) (is : List Instr) : Prop :=
  ∀ n (hn : n < is.length), ∀ p ∈ is[n].reads, Available env ((is.take n).flatMap (·.writes)) p

instance (env : Environment) (known : List CellId) (p : Place) : Decidable (Available env known p) :=
  inferInstanceAs (Decidable (_ → _))

instance (env : Environment) (is : List Instr) : Decidable (TemporariesFirst env is) :=
  inferInstanceAs (Decidable (∀ n (hn : n < is.length), ∀ p ∈ is[n].reads,
    Available env ((is.take n).flatMap (·.writes)) p))

variable {env env' : Environment} {known known' : List CellId} {is js : List Instr} {last : List Place}
  {i : Instr} {p : Place}

theorem Available.mono (h : Available env known p) (hknown : known ⊆ known') :
    Available env known' p :=
  fun htemporary => hknown (h htemporary)

theorem Available.of_named (h : env.isTemporary p.declaration = false) : Available env known p := by
  intro htemporary
  rw [h] at htemporary
  cases htemporary

theorem Instr.ready_iff : i.Ready env known ↔ (∀ p ∈ i.reads, Available env known p) ∧
    (i.op.isUnnamed = true → env.isTemporary i.place.declaration = true) ∧
      (i.op.isBinding = true → env.isTemporary i.place.declaration = false) :=
  ⟨fun h => ⟨h.reads, h.unnamed, h.bound⟩, fun h => ⟨h.1, h.2.1, h.2.2⟩⟩

/-- An instruction whose value has no name. -/
theorem Instr.Ready.of_unnamed (hreads : ∀ p ∈ i.reads, Available env known p)
    (htemporary : env.isTemporary i.place.declaration = true) (hop : i.op.isUnnamed = true) :
    i.Ready env known := by
  refine ⟨hreads, fun _ => htemporary, fun hbinding => ?_⟩
  rw [Op.isBinding_of_isUnnamed hop] at hbinding
  cases hbinding

theorem Instr.Ready.mono (h : i.Ready env known) (hknown : known ⊆ known') : i.Ready env known' :=
  ⟨fun p hp => (h.reads p hp).mono hknown, h.unnamed, h.bound⟩

namespace Ordered

theorem mono (h : Ordered env last known is) (hknown : known ⊆ known') :
    Ordered env last known' is := by
  induction is generalizing known known' with
  | nil => exact fun p hp => (h p hp).mono hknown
  | cons i is ih =>
    refine ⟨h.1.mono hknown, ih h.2 fun c hc => ?_⟩
    rcases List.mem_append.1 hc with hc | hc
    · exact List.mem_append_left _ hc
    · exact List.mem_append_right _ (hknown hc)

theorem append_iff : Ordered env last known (is ++ js) ↔
    Ordered env [] known is ∧ Ordered env last (is.flatMap (·.writes) ++ known) js := by
  induction is generalizing known with
  | nil => simp [Ordered]
  | cons i is ih =>
    have hsame : Ordered env last (is.flatMap (·.writes) ++ (i.writes ++ known)) js ↔
        Ordered env last ((i :: is).flatMap (·.writes) ++ known) js := by
      constructor
      · intro h
        apply h.mono
        intro c
        simp only [List.flatMap_cons, List.mem_append]
        tauto
      · intro h
        apply h.mono
        intro c
        simp only [List.flatMap_cons, List.mem_append]
        tauto
    rw [List.cons_append, Ordered, ih, hsame, Ordered, and_assoc]

/-- One more instruction at the end. -/
theorem concat (h : Ordered env [] known is)
    (hi : i.Ready env (is.flatMap (·.writes) ++ known)) : Ordered env [] known (is ++ [i]) :=
  append_iff.2 ⟨h, hi, by simp [Ordered]⟩

theorem close (h : Ordered env [] known is)
    (hlast : ∀ p ∈ last, Available env (is.flatMap (·.writes) ++ known) p) :
    Ordered env last known is := by
  rw [← List.append_nil is]
  exact append_iff.2 ⟨h, hlast⟩

theorem opened (h : Ordered env last known is) : Ordered env [] known is := by
  rw [← List.append_nil is] at h
  exact (append_iff.1 h).1

/-- What counts is which of the places are temporaries. -/
theorem congr (h : Ordered env last known is)
    (his : ∀ i ∈ is, ∀ p ∈ i.places, env'.isTemporary p.declaration = env.isTemporary p.declaration)
    (hlast : ∀ p ∈ last, env'.isTemporary p.declaration = env.isTemporary p.declaration) :
    Ordered env' last known is := by
  induction is generalizing known with
  | nil =>
    intro p hp htemporary
    exact h p hp ((hlast p hp).symm.trans htemporary)
  | cons i is ih =>
    obtain ⟨hi, his⟩ := List.forall_mem_cons.1 his
    refine ⟨⟨fun p hp htemporary => ?_, fun hop => ?_, fun hop => ?_⟩, ih h.2 his⟩
    · exact h.1.reads p hp ((hi p (List.mem_append_left _ hp)).symm.trans htemporary)
    · exact (hi _ i.place_mem_places).trans (h.1.unnamed hop)
    · exact (hi _ i.place_mem_places).trans (h.1.bound hop)

/-- Instructions at the end, behind which the last places are still read. -/
theorem extend (h : Ordered env last known is)
    (hjs : Ordered env [] (is.flatMap (·.writes) ++ known) js) : Ordered env last known (is ++ js) := by
  rw [← List.append_nil is] at h
  refine append_iff.2 ⟨(append_iff.1 h).1, hjs.close fun p hp => ?_⟩
  exact Available.mono ((append_iff.1 h).2 p hp) (List.subset_append_right _ _)

/-- What is read behind the instructions. -/
theorem available_last (h : Ordered env last known is) (hp : p ∈ last) :
    Available env (is.flatMap (·.writes) ++ known) p := by
  rw [← List.append_nil is] at h
  exact (append_iff.1 h).2 p hp

/-- What an instruction in the middle reads. -/
theorem ready (h : Ordered env last known (is ++ i :: js)) :
    i.Ready env (is.flatMap (·.writes) ++ known) := (append_iff.1 h).2.1

theorem exists_ready (h : Ordered env last known is) (hi : i ∈ is) : ∃ known, i.Ready env known := by
  obtain ⟨before, behind, rfl⟩ := List.append_of_mem hi
  exact ⟨_, h.ready⟩

/-- What a pattern binds is a variable. -/
theorem named_binding (h : Ordered env last known is) (hi : i ∈ is) (hop : i.op.isBinding = true) :
    env.isTemporary i.place.declaration = false := by
  obtain ⟨_, hready⟩ := h.exists_ready hi
  exact hready.bound hop

theorem temporariesFirst (h : Ordered env last [] is) : TemporariesFirst env is := by
  intro n hn p hp
  rw [← List.take_append_drop n is, List.drop_eq_getElem_cons hn] at h
  simpa using h.ready.reads p hp

end Ordered

/-! ## Other instructions in the same order -/

/-- Instructions in the place of others, which stand for those or are gone. -/
inductive Thins (S : Instr → Instr → Prop) (G : Instr → Prop) : List Instr → List Instr → Prop
  | nil : Thins S G [] []
  | keep {i j : Instr} {is js : List Instr} : S i j → Thins S G is js → Thins S G (i :: is) (j :: js)
  | drop {i : Instr} {is js : List Instr} : G i → Thins S G is js → Thins S G (i :: is) js

section Thins

variable {S S' : Instr → Instr → Prop} {G G' : Instr → Prop}

theorem Thins.of_forall₂ (h : List.Forall₂ S is js) : Thins S G is js := by
  induction h with
  | nil => exact .nil
  | cons hij _ ih => exact .keep hij ih

/-- One instruction is gone. -/
theorem Thins.remove (hS : ∀ i, S i i) (hi : G i) (before after : List Instr) :
    Thins S G (before ++ i :: after) (before ++ after) := by
  have hsame (is : List Instr) : Thins S G is is := .of_forall₂ (List.forall₂_same.2 fun i _ => hS i)
  induction before with
  | nil => exact .drop hi (hsame after)
  | cons j before ih => exact .keep (hS j) ih

/-- What carries over from an instruction to one that stands for it. -/
theorem Thins.forall {P : Instr → Prop} (h : Thins S G is js) (hS : ∀ i j, S i j → P i → P j)
    (his : ∀ i ∈ is, P i) : ∀ j ∈ js, P j := by
  induction h with
  | nil => exact his
  | keep hij _ ih =>
    obtain ⟨hi, his⟩ := List.forall_mem_cons.1 his
    exact List.forall_mem_cons.2 ⟨hS _ _ hij hi, ih his⟩
  | drop _ _ ih => exact ih (List.forall_mem_cons.1 his).2

theorem Thins.imp_mem (h : Thins S G is js) (hS : ∀ i ∈ is, ∀ j, S i j → S' i j)
    (hG : ∀ i ∈ is, G i → G' i) : Thins S' G' is js := by
  induction h with
  | nil => exact .nil
  | keep hij _ ih =>
    obtain ⟨hi, hS⟩ := List.forall_mem_cons.1 hS
    exact .keep (hi _ hij) (ih hS (List.forall_mem_cons.1 hG).2)
  | drop hi _ ih =>
    obtain ⟨hgone, hG⟩ := List.forall_mem_cons.1 hG
    exact .drop (hgone hi) (ih (List.forall_mem_cons.1 hS).2 hG)

/-- Instructions are in order when they imitate others that are: `R` relates what is defined on both
sides and is kept step by step. -/
theorem Ordered.imitate {R : List CellId → List CellId → Prop} {last' : List Place}
    (hkeep : ∀ i j known known', S i j → R known known' → i.Ready env known →
      j.Ready env' known' ∧ R (i.writes ++ known) (j.writes ++ known'))
    (hdrop : ∀ i known known', G i → R known known' → R (i.writes ++ known) known')
    (hlast : ∀ known known', R known known' → (∀ p ∈ last, Available env known p) →
      ∀ p ∈ last', Available env' known' p)
    (h : Ordered env last known is) (hthins : Thins S G is js) (hrel : R known known') :
    Ordered env' last' known' js := by
  induction hthins generalizing known known' with
  | nil => exact hlast known known' hrel h
  | keep hij _ ih =>
    obtain ⟨hready, hrel'⟩ := hkeep _ _ _ _ hij hrel h.1
    exact ⟨hready, ih h.2 hrel'⟩
  | drop hi _ ih => exact ih h.2 (hdrop _ _ _ hi hrel)

end Thins

section Advance

variable {cells cells' : List Cell} {f : Function} {id : FuncId}

theorem Advance.ordered (h : Advance env cells env' cells') (hlogs : env.Logs cells)
    (horder : Ordered env last known is) (his : ∀ i ∈ is, ∀ p ∈ i.places, p.IsOf cells)
    (hlast : ∀ p ∈ last, p.IsOf cells) : Ordered env' last known is :=
  horder.congr (fun i hi p hp => h.temporary _ (hlogs.has (his i hi p hp)).2)
    fun p hp => h.temporary _ (hlogs.has (hlast p hp)).2

theorem Block.Uses.lastReads {good own : Place → Prop} {b : Block} (h : b.Uses good own) :
    ∀ p ∈ b.lastReads, good p := by
  intro p hp
  rw [Block.lastReads] at hp
  cases hterminal : b.terminal with
  | none =>
    rw [hterminal] at hp
    cases hp
  | some t =>
    rw [hterminal] at hp
    exact h.terminal t hterminal p hp

/-- What is in order stays so when the environment comes further. -/
theorem Advance.inOrder (h : Advance env cells env' cells') (hlogs : env.Logs cells)
    (hf : f.Fits env cells id) (horder : f.InOrder env) : f.InOrder env' := by
  refine ⟨h.ordered hlogs horder.header hf.uses.header (by simp), fun id b hb => ?_⟩
  have huses := hf.uses.blocks id b hb
  exact h.ordered hlogs (horder.blocks id b hb) huses.instructions huses.lastReads

end Advance

end Whittle.Ir
