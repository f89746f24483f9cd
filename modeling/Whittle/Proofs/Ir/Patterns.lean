import Mathlib.Data.List.Basic
import Mathlib.Tactic.Common
import Whittle.Ir.Module

/-!
# Patterns made and taken

Instructions make patterns: a name, an array pattern, a default.  An array pattern takes its elements and a
destructuring takes the pattern that it binds, and what one instruction has taken no other one takes.  Code
in which that holds makes every pattern at least as often as it takes it, and the patterns that it holds
ready for code to come are made beside those.
-/

namespace Whittle.Ir

/-- The patterns that an operation takes: the elements of an array pattern, and what is destructured. -/
def Op.takes : Op → List Place
  | .arrayPattern elements => elements.flatMap Option.toList
  | .destructure pattern _ _ => [pattern]
  | _ => []

theorem Op.takes_mapReads (f : Place → Place) (op : Op) : (op.mapReads f).takes = op.takes.map f := by
  cases op with
  | arrayPattern elements =>
    simp only [mapReads, takes, List.flatMap_map, List.map_flatMap]
    refine List.flatMap_congr fun e _ => ?_
    cases e <;> rfl
  | _ => rfl

theorem Op.category_mapReads (f : Place → Place) (op : Op) : (op.mapReads f).category = op.category := by
  cases op <;> rfl

theorem Op.takes_subset_reads (op : Op) : op.takes ⊆ op.reads := by
  cases op with
  | arrayPattern elements => exact List.Subset.refl _
  | destructure pattern value kind => simp [takes, reads]
  | _ => exact List.nil_subset _

/-- The pattern that an instruction makes. -/
def Instr.offers (i : Instr) : List Place := if i.op.category = .pattern then [i.place] else []

/-- The patterns that instructions take. -/
def takenBy (is : List Instr) : List Place := is.flatMap (·.op.takes)

/-- The patterns that instructions make. -/
def offeredBy (is : List Instr) : List Place := is.flatMap (·.offers)

@[simp]
theorem takenBy_nil : takenBy [] = [] := rfl

@[simp]
theorem offeredBy_nil : offeredBy [] = [] := rfl

@[simp]
theorem takenBy_append (is js : List Instr) : takenBy (is ++ js) = takenBy is ++ takenBy js :=
  List.flatMap_append

@[simp]
theorem offeredBy_append (is js : List Instr) : offeredBy (is ++ js) = offeredBy is ++ offeredBy js :=
  List.flatMap_append

@[simp]
theorem takenBy_cons (i : Instr) (is : List Instr) : takenBy (i :: is) = i.op.takes ++ takenBy is := rfl

@[simp]
theorem offeredBy_cons (i : Instr) (is : List Instr) : offeredBy (i :: is) = i.offers ++ offeredBy is := rfl

/-- The instructions make the patterns `held` beside those that they take. -/
def Spares (held : List Place) (is : List Instr) : Prop :=
  ∀ p, held.count p + (takenBy is).count p ≤ (offeredBy is).count p

section Spares

variable {held held' : List Place} {is is' : List Instr} {i : Instr}

theorem spares_nil : Spares [] [] := fun _ => Nat.le_refl _

theorem Spares.mono (h : Spares held is) (hheld : ∀ p, held'.count p ≤ held.count p) : Spares held' is :=
  fun p => Nat.le_trans (Nat.add_le_add_right (hheld p) _) (h p)

theorem Spares.perm (h : Spares held is) (hperm : is.Perm is') : Spares held is' := by
  intro p
  have htaken := (hperm.flatMap_right (·.op.takes)).count_eq p
  have hoffered := (hperm.flatMap_right (·.offers)).count_eq p
  have hle := h p
  rw [takenBy, offeredBy] at hle ⊢
  omega

/-- An instruction takes of what is held, and what it makes is held. -/
theorem Spares.cons (h : Spares (i.op.takes ++ held) is) : Spares (i.offers ++ held) (i :: is) := by
  intro p
  have hle := h p
  simp only [takenBy_cons, offeredBy_cons, List.count_append] at hle ⊢
  omega

end Spares

/-- The parameters of a function and the patterns `held` are made in the header beside what is taken there,
and each block makes what it takes. -/
structure Function.Spares (f : Function) (held : List Place) : Prop where
  header : Ir.Spares (f.params ++ held) f.header
  blocks : ∀ b block, f.blocks.get? b = some block → Ir.Spares [] block.instructions

end Whittle.Ir
