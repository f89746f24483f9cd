import Mathlib.Tactic.Common
import Whittle.Proofs.Ssa.Operands

/-!
# What variables hold

Every version of a variable has a cell of its own: a load reads the cell it names, a store and a copy
write the cell of their target.  Running the code of a walk this way gives, at each point, what the
cells hold and what was last written to each variable.  Beside it stands the version of a variable
that reaches a point along the walk, as writes and joins say.
-/

namespace Whittle.Ir

/-! ## Cells -/

/-- What the cells hold; nothing before they are written. -/
abbrev Memory (α : Type) := Cell → Option α

/-- A run so far. -/
structure Run (α : Type) where
  /-- What the cells hold. -/
  memory : Memory α
  /-- What was last written to each variable. -/
  latest : DeclId → Option α

/-- Whether a write created the version. -/
def Version.isNumbered : Version → Bool
  | .numbered _ => true
  | .phi _ => false

/-- The version of a variable that an instruction creates. -/
def Instr.written? (d : DeclId) (i : Instr) : Option Place :=
  i.defined.find? fun p => p.declaration == d && p.cell.version.isNumbered

variable {α : Type}

/-- The place whose value an operation passes on. -/
def Op.moved? : Op → Option Place
  | .loadLocal place => some place
  | .storeLocal _ value _ => some value
  | .copy _ value => some value
  | _ => none

/-- The value that an instruction gives to the places that it defines.  What it computes when it is no
load, store or copy is up to `eval`. -/
def Instr.result (eval : Instr → Memory α → α) (m : Memory α) (i : Instr) : Option α :=
  i.op.moved?.elim (some (eval i m)) fun p => m p.cell

/-- What the cells hold after an instruction. -/
def Memory.after (eval : Instr → Memory α → α) (m : Memory α) (i : Instr) : Memory α :=
  fun c => if i.defined.any (·.cell == c) then i.result eval m else m c

/-- Executes one instruction. -/
def Run.step (eval : Instr → Memory α → α) (r : Run α) (i : Instr) : Run α where
  memory := r.memory.after eval i
  latest d := (i.written? d).elim (r.latest d) fun p => r.memory.after eval i p.cell

variable {eval : Instr → Memory α → α} {r : Run α} {i : Instr} {d : DeclId} {p : Place} {c : Cell}

/-- An instruction leaves alone the cells that it does not define. -/
theorem Run.memory_step_of_not_defined (h : ∀ p ∈ i.defined, p.cell ≠ c) :
    (r.step eval i).memory c = r.memory c := by
  have hany : i.defined.any (·.cell == c) = false := by simpa using h
  simp [step, Memory.after, hany]

theorem Run.memory_step_of_defined (h : p ∈ i.defined) :
    (r.step eval i).memory p.cell = i.result eval r.memory := by
  have hany : i.defined.any (·.cell == p.cell) = true := by
    simp only [List.any_eq_true, beq_iff_eq]
    exact ⟨p, h, rfl⟩
  simp [step, Memory.after, hany]

theorem Run.latest_step_of_not_written (h : i.written? d = none) :
    (r.step eval i).latest d = r.latest d := by
  simp [step, h]

/-- A write puts what it writes into the cell of the version that it creates. -/
theorem Run.latest_step_of_written (h : i.written? d = some p) :
    (r.step eval i).latest d = (r.step eval i).memory p.cell := by
  simp [step, h]

theorem Instr.written?_eq_some (h : i.written? d = some p) :
    p ∈ i.defined ∧ p.declaration = d ∧ p.cell.version.isNumbered = true := by
  have hp := List.find?_some h
  simp only [Bool.and_eq_true, beq_iff_eq] at hp
  exact ⟨List.mem_of_find?_eq_some h, hp.1, hp.2⟩

theorem Instr.written?_eq_none :
    i.written? d = none ↔
      ∀ p ∈ i.defined, p.declaration = d → p.cell.version.isNumbered = false := by
  simp [written?]

/-- The version that a list of instructions creates last. -/
def lastWritten? (d : DeclId) (is : List Instr) : Option Place :=
  (is.filterMap (·.written? d)).getLast?

theorem lastWritten?_append (d : DeclId) (is js : List Instr) :
    lastWritten? d (is ++ js) = (lastWritten? d js).or (lastWritten? d is) := by
  rw [lastWritten?, List.filterMap_append, List.getLast?_append]
  rfl

theorem lastWritten?_concat_of_none {is : List Instr} (h : i.written? d = none) :
    lastWritten? d (is ++ [i]) = lastWritten? d is := by
  rw [lastWritten?_append]
  simp [lastWritten?, h]

theorem lastWritten?_concat_of_some {is : List Instr} (h : i.written? d = some p) :
    lastWritten? d (is ++ [i]) = some p := by
  rw [lastWritten?_append]
  simp [lastWritten?, h]

/-! ## Walks -/

namespace Function

/-- What is executed in a block; the parameters are bound before the entry. -/
def code (f : Function) (b : BlockId) : List Instr :=
  (if b = f.entry then f.header else []) ++ ((f.blocks.get? b).map (·.instructions)).getD []

/-- Runs the blocks of a walk, given what instructions compute in each visit of a block and what the
cells hold before. -/
def runAlong (f : Function) (eval : List BlockId → Instr → Memory α → α) (start : Memory α) :
    List BlockId → Run α
  | [] => ⟨start, fun _ => none⟩
  | b :: before => (f.code b).foldl (Run.step (eval (b :: before))) (runAlong f eval start before)

/-! ## Versions -/

/-- The join of a variable at the start of a block. -/
def joinIn? (f : Function) (d : DeclId) (b : BlockId) : Option Phi :=
  f.phis.find? fun phi => phi.block == b && phi.declaration == d

/-- The version after the join of a block, given the one that arrives there.  A join of one version is
no join: it is removed without replacement, and nothing gets past it. -/
def afterJoin (f : Function) (d : DeclId) (b : BlockId) (arriving : Option Cell) : Option Cell :=
  (f.joinIn? d b).elim arriving fun phi =>
    if 1 < phi.operands.size then arriving.map fun _ => phi.place.cell else none

/-- Whether a block opens the scope of a variable without giving it a value: it records a version that
no instruction of it writes. -/
def opensScope (f : Function) (env : Environment) (d : DeclId) (b : BlockId) : Bool :=
  (env.versionsOf d).any (isWrittenIn b) && (lastWritten? d (f.code b)).isNone

/-- The version of a variable that reaches a point of a block: the last one written before that point,
else the one after the block's join. -/
def reaching (f : Function) (env : Environment) (d : DeclId) (b : BlockId) (arriving : Option Cell)
    (done : List Instr) : Option Cell :=
  ((lastWritten? d done).map (·.cell)).or
    (if f.opensScope env d b then none else f.afterJoin d b arriving)

/-- The version of a variable that reaches the end of a walk. -/
def leaving (f : Function) (env : Environment) (d : DeclId) : List BlockId → Option Cell
  | [] => none
  | b :: before => f.reaching env d b (f.leaving env d before) (f.code b)

end Function

end Whittle.Ir
