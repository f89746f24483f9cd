import Mathlib.Data.List.Nodup
import Mathlib.Data.List.Sublists
import Mathlib.Tactic.Common
import Whittle.Ir.Module
import Whittle.Proofs.Emit.Effects

/-!
# Effects that wait

A value with effects that is read once waits for its reader and is evaluated there.  That keeps the order
of a block if what waited last is read first: then the values with effects are a stack, and each
instruction takes its operands from the top, the last one first (`Function.LastFirst`).
-/

namespace Whittle.Ir

open Emit

/-! ## The stack of a block -/

/-- The places whose values an operation takes, in order.  There are none for an operation that puts a
value where it waits beside the others: a spread, a default, or a computed key of a pattern. -/
def Op.operands? : Op → Option (List Place)
  | .spread _ | .defaultPattern .. => none
  | .objectPattern properties =>
    if properties.all fun p => match p with
      | .keyValue key _ => key.reads.isEmpty
      | .rest _ => true
    then some [] else none
  | .destructure _ value _ => some [value]
  | .binding _ | .arrayPattern _ | .rest _ | .importDeclaration .. | .importSpecifier ..
  | .exportSpecifier .. | .exportNames _ | .unsupported .. => some []
  | op => some op.reads

/-- Whether an operation has effects of its own. -/
def Op.isEffect : Op → Bool
  | .call .. | .construct .. | .propertyLoad .. | .propertyStore .. | .computedLoad ..
  | .computedStore .. | .storeGlobal .. | .unsupported .. => true
  | _ => false

/-- Whether a cell is read once, so that its value waits for the reader. -/
def readOnce (counts : CellMap Nat) (c : CellId) : Bool := counts.getD c 0 == 1

/-- The stack after the given cells were read in turn.  Those that are on the stack have to be at its end,
in that order. -/
def taken? (stack cells : List CellId) : Option (List CellId) :=
  stack.dropSuffix? (cells.filter stack.contains)

/-- The stack after an instruction.  What it defines is put on the stack if it is to wait and has, or may
have, effects. -/
def Instr.stack? (waits : CellId → Bool) (stack : List CellId) (i : Instr) : Option (List CellId) := do
  let operands ← i.op.operands?
  let cells := operands.map (·.cell.id)
  let rest ← taken? stack cells
  if stack.contains i.place.cell.id then none
  else if waits i.place.cell.id && (i.op.isEffect || cells.any stack.contains) then
    some (rest ++ [i.place.cell.id])
  else some rest

/-- Instructions take what waits from the top of the stack, and so does what comes behind them. -/
def LastFirst (waits : CellId → Bool) (is : List Instr) (behind : List Place) : Bool :=
  ((is.foldlM (Instr.stack? waits) []).bind (taken? · (behind.map (·.cell.id)))).isSome

/-- In all blocks of a function, what waited last is read first.  In the header nothing is left. -/
def Function.LastFirst (waits : CellId → Bool) (f : Function) : Prop :=
  f.header.foldlM (Instr.stack? waits) [] = some [] ∧ ∀ b ∈ f.blocks.values,
    Ir.LastFirst waits b.instructions (b.terminal.toList.flatMap (·.reads)) = true

instance (waits : CellId → Bool) (f : Function) : Decidable (f.LastFirst waits) :=
  inferInstanceAs (Decidable (_ ∧ ∀ b ∈ f.blocks.values, _))

theorem taken?_eq_some {stack cells rest : List CellId} (h : taken? stack cells = some rest) :
    stack = rest ++ cells.filter stack.contains := by
  obtain ⟨top, heq, htop⟩ := List.dropSuffix?_eq_some_iff.1 h
  rwa [eq_of_beq htop] at heq

end Whittle.Ir

namespace Whittle.Emit

open Ir

/-! ## Loads -/

/-- What waits: cells with effects, the latest last. -/
abbrev Load := List (CellId × List Effect)

namespace Load

/-- The cells of a load. -/
def cells (load : Load) : List CellId := load.map (·.1)

/-- The effects of a load in the order in which they came. -/
def effects (load : Load) : List Effect := load.flatMap (·.2)

/-- What waits for the reader of a cell. -/
def due (load : Load) (c : CellId) : List Effect := (load.filter (·.1 == c)).flatMap (·.2)

/-- What waits once the given cells were read. -/
def without (load : Load) (taken : List CellId) : Load := load.filter (!taken.contains ·.1)

variable {load : Load} {c : CellId}

theorem due_of_notMem (h : c ∉ load.cells) : load.due c = [] := by
  have hnone : load.filter (·.1 == c) = [] := by
    rw [List.filter_eq_nil_iff]
    exact fun e he heq => h (List.mem_map.2 ⟨e, he, eq_of_beq heq⟩)
  rw [due, hnone, List.flatMap_nil]

theorem due_append (load load' : Load) (c : CellId) :
    due (load ++ load') c = due load c ++ due load' c := by
  rw [due, List.filter_append, List.flatMap_append, due, due]

theorem due_cons (e : CellId × List Effect) (load : Load) (c : CellId) :
    due (e :: load) c = if e.1 = c then e.2 ++ due load c else due load c := by
  rw [due, List.filter_cons]
  by_cases heq : e.1 = c
  · simp [heq, due]
  · simp [heq, due]

theorem due_of_mem (hnodup : load.cells.Nodup) {effects : List Effect} (h : (c, effects) ∈ load) :
    load.due c = effects := by
  induction load with
  | nil => cases h
  | cons e load ih =>
    obtain ⟨he, hnodup⟩ := List.nodup_cons.1 hnodup
    rw [due_cons]
    rcases List.mem_cons.1 h with rfl | h
    · rw [if_pos rfl, due_of_notMem he, List.append_nil]
    · rw [if_neg, ih hnodup h]
      rintro rfl
      exact he (List.mem_map.2 ⟨_, h, rfl⟩)

/-- Cells that were read are not read again. -/
theorem due_without (taken : List CellId) :
    (load.without taken).due c = if c ∈ taken then [] else load.due c := by
  split
  case isTrue hc =>
    refine due_of_notMem fun hmem => ?_
    obtain ⟨e, he, rfl⟩ := List.mem_map.1 hmem
    simpa [hc] using (List.mem_filter.1 he).2
  case isFalse hc =>
    rw [due, without, List.filter_filter]
    congr 1
    refine List.filter_congr fun e _ => ?_
    by_cases heq : e.1 = c
    · simp [heq, hc]
    · simp [heq]

/-- Reading cells in the order in which they came evaluates what waits for them in that order. -/
theorem flatMap_due {cells : List CellId} (hcells : cells.Nodup) (h : load.cells.Sublist cells) :
    cells.flatMap load.due = load.effects := by
  induction cells generalizing load with
  | nil =>
    rw [List.map_eq_nil_iff.1 (List.sublist_nil.1 h)]
    rfl
  | cons c cells ih =>
    obtain ⟨hc, hrest⟩ := List.nodup_cons.1 hcells
    rw [List.flatMap_cons]
    rcases List.sublist_cons_iff.1 h with h | ⟨rest, heq, hsub⟩
    · rw [due_of_notMem fun hmem => hc (h.subset hmem), List.nil_append, ih hrest h]
    · obtain ⟨e, load, rfl, rfl, rfl⟩ := List.map_eq_cons_iff.1 heq
      have hfirst : due (e :: load) e.1 = e.2 := by
        rw [due_cons, if_pos rfl, due_of_notMem fun hmem => hc (hsub.subset hmem), List.append_nil]
      have hlater : ∀ c ∈ cells, due (e :: load) c = due load c := fun c' hc' => by
        rw [due_cons, if_neg]
        rintro rfl
        exact hc hc'
      rw [hfirst, List.flatMap_congr hlater, ih hrest hsub]
      rfl

/-- Elements that add nothing may be left out. -/
theorem flatMap_filter_of_eq_nil {α β : Type} {p : α → Bool} {f : α → List β} {xs : List α}
    (h : ∀ x ∈ xs, p x = false → f x = []) : (xs.filter p).flatMap f = xs.flatMap f := by
  induction xs with
  | nil => rfl
  | cons x xs ih =>
    obtain ⟨hx, hxs⟩ := List.forall_mem_cons.1 h
    cases hp : p x with
    | true => rw [List.filter_cons_of_pos hp, List.flatMap_cons, List.flatMap_cons, ih hxs]
    | false =>
      rw [List.filter_cons_of_neg (by simp [hp]), List.flatMap_cons, hx hp, ih hxs, List.nil_append]

theorem without_nil (load : Load) : load.without [] = load := List.filter_eq_self.2 fun _ _ => rfl

/-- Where nothing waits for a cell, reading it takes nothing. -/
theorem without_of_notMem (h : c ∉ load.cells) : load.without [c] = load := by
  refine List.filter_eq_self.2 fun e he => ?_
  have hne : e.1 ≠ c := fun heq => h (List.mem_map.2 ⟨e, he, heq⟩)
  simp [hne]

theorem without_without (load : Load) (first more : List CellId) :
    (load.without first).without more = load.without (first ++ more) := by
  rw [without, without, without, List.filter_filter]
  refine List.filter_congr fun e _ => ?_
  by_cases hfirst : e.1 ∈ first
  · simp [hfirst]
  · simp [hfirst]

theorem cells_without_sublist (load : Load) (taken : List CellId) :
    (load.without taken).cells.Sublist load.cells :=
  List.filter_sublist.map _

/-- What is taken from the top of the stack was the last to come. -/
theorem effects_of_taken? {stack cells rest : List CellId} (hnodup : stack.Nodup)
    (hload : load.cells.Sublist stack) (h : taken? stack cells = some rest) :
    (cells.filter load.cells.contains).Nodup ∧ rest.Nodup ∧ (load.without cells).cells.Sublist rest ∧
      load.effects = (load.without cells).effects ++ cells.flatMap load.due := by
  have hstack := taken?_eq_some h
  have hmem {c : CellId} (hc : c ∈ load.cells) : c ∈ stack := hload.subset hc
  obtain ⟨hrest, htaken, hdisjoint⟩ := List.nodup_append.1 (hstack ▸ hnodup)
  obtain ⟨bottom, top, heq, hbottom, htop⟩ := List.sublist_append_iff.1 (hstack ▸ hload)
  obtain ⟨below, above, rfl, rfl, rfl⟩ := List.map_eq_append_iff.1 heq
  have habove : ∀ e ∈ above, e.1 ∈ cells := fun e he =>
    List.mem_of_mem_filter (htop.subset (List.mem_map.2 ⟨e, he, rfl⟩))
  have hbelow : ∀ e ∈ below, e.1 ∉ cells := by
    intro e he hcells
    have hbehind := hbottom.subset (List.mem_map.2 ⟨e, he, rfl⟩)
    have hstacked : e.1 ∈ stack := hstack ▸ List.mem_append_left _ hbehind
    refine hdisjoint _ hbehind _ (List.mem_filter.2 ⟨hcells, ?_⟩) rfl
    exact List.contains_iff_mem.2 hstacked
  have hwithout : without (below ++ above) cells = below := by
    rw [without, List.filter_append, List.filter_eq_self.2 fun e he => by simp [hbelow e he],
      List.filter_eq_nil_iff.2 fun e he => by simp [habove e he], List.append_nil]
  refine ⟨?_, hrest, by rwa [hwithout], ?_⟩
  · refine (List.monotone_filter_right cells fun c hc => ?_).nodup htaken
    exact List.contains_iff_mem.2 (hmem (List.contains_iff_mem.1 hc))
  · have htop' : ∀ c ∈ cells.filter stack.contains, due (below ++ above) c = due above c := by
      intro c hc
      rw [due_append, due_of_notMem fun hmem => ?_, List.nil_append]
      exact hdisjoint _ (hbottom.subset hmem) _ hc rfl
    have hskipped : cells.flatMap (due (below ++ above)) =
        (cells.filter stack.contains).flatMap (due (below ++ above)) := by
      refine (flatMap_filter_of_eq_nil fun c _ hc => due_of_notMem fun hc' => ?_).symm
      exact absurd (List.contains_iff_mem.2 (hmem hc')) (Bool.eq_false_iff.1 hc)
    rw [hwithout, hskipped, List.flatMap_congr htop', flatMap_due htaken htop]
    exact List.flatMap_append

end Load

end Whittle.Emit
