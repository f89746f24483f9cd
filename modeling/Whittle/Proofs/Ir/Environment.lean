import Mathlib.Tactic.Common
import Whittle.Ir.Environment
import Whittle.Proofs.Table

/-!
# Records of versions

An environment is well kept when its records can be told apart by their cells: a record of a
declaration names a cell of that declaration, no two records share a cell, and no cell is recorded
that the environment has not handed out.  Every operation that hands out or records keeps it so.
-/

namespace Whittle.Ir.Environment

/-- The records of an environment can be told apart by their cells. -/
structure WellKept (env : Environment) : Prop where
  /-- A record of a declaration names a cell of it. -/
  declaration : ∀ d, ∀ r ∈ env.versionsOf d, r.place.declaration = d
  /-- Only cells that were handed out are recorded. -/
  cell_lt : ∀ d, ∀ r ∈ env.versionsOf d, r.place.cell.id.index < env.nextCell.index
  /-- Only declarations that exist have records. -/
  declared : ∀ d, env.versionsOf d ≠ [] → d.index < env.declarations.size
  /-- No two records share a cell. -/
  unique : ∀ d d', ∀ r ∈ env.versionsOf d, ∀ r' ∈ env.versionsOf d',
    r.place.cell.id = r'.place.cell.id → r = r'

variable {env env' : Environment}

/-- Handing out more changes nothing about records. -/
theorem WellKept.grow (h : env.WellKept) (hversions : env'.versions = env.versions)
    (hcell : env.nextCell.index ≤ env'.nextCell.index)
    (hsize : env.declarations.size ≤ env'.declarations.size) : env'.WellKept := by
  have heq (d : DeclId) : env'.versionsOf d = env.versionsOf d := by
    rw [versionsOf, versionsOf, hversions]
  refine ⟨?_, ?_, ?_, ?_⟩
  · intro d r hr
    rw [heq] at hr
    exact h.declaration d r hr
  · intro d r hr
    rw [heq] at hr
    exact Nat.lt_of_lt_of_le (h.cell_lt d r hr) hcell
  · intro d hd
    rw [heq] at hd
    exact Nat.lt_of_lt_of_le (h.declared d hd) hsize
  · intro d d' r hr r' hr'
    rw [heq] at hr hr'
    exact h.unique d d' r hr r' hr'

theorem versionsOf_record (env : Environment) (d d' : DeclId) (block : BlockId) (place : Place) :
    (env.record d block place).versionsOf d' =
      if d' = d then env.versionsOf d ++ [⟨block, place⟩] else env.versionsOf d' := by
  simp only [versionsOf, record, Table.getD_insert]

theorem mem_versionsOf_record {d d' : DeclId} {block : BlockId} {place : Place}
    {r : VersionRecord} : r ∈ (env.record d block place).versionsOf d' ↔
      r ∈ env.versionsOf d' ∨ (d' = d ∧ r = ⟨block, place⟩) := by
  rw [versionsOf_record]
  by_cases hd : d' = d
  · subst hd
    simp
  · simp [hd]

/-- Recording the cell handed out last. -/
theorem WellKept.record_new (h : env.WellKept) {d : DeclId} {block : BlockId} {place : Place}
    (hversions : env'.versions = env.versions) (hcell : env'.nextCell = env.nextCell.next)
    (hsize : env.declarations.size ≤ env'.declarations.size) (hd : d.index < env'.declarations.size)
    (hplace : place.cell.id = env.nextCell) (hdecl : place.declaration = d) :
    (env'.record d block place).WellKept := by
  have hnext : env'.nextCell.index = env.nextCell.index + 1 := congrArg Id.index hcell
  have hgrown : env'.WellKept := h.grow hversions (by omega) hsize
  have hold (d' : DeclId) (r : VersionRecord) (hr : r ∈ env'.versionsOf d') :
      r.place.cell.id ≠ place.cell.id := by
    rw [versionsOf, hversions] at hr
    have hlt := h.cell_lt d' r hr
    rw [hplace]
    rintro heq
    rw [heq] at hlt
    omega
  refine ⟨?_, ?_, ?_, ?_⟩
  · intro d' r hr
    rcases mem_versionsOf_record.1 hr with hr | ⟨rfl, rfl⟩
    · exact hgrown.declaration d' r hr
    · exact hdecl
  · intro d' r hr
    change _ < env'.nextCell.index
    rcases mem_versionsOf_record.1 hr with hr | ⟨rfl, rfl⟩
    · exact hgrown.cell_lt d' r hr
    · rw [hplace, hnext]
      omega
  · intro d' hd'
    change d'.index < env'.declarations.size
    by_cases heq : d' = d
    · exact heq ▸ hd
    · rw [versionsOf_record, if_neg heq] at hd'
      exact hgrown.declared d' hd'
  · intro d₁ d₂ r hr r' hr' heq
    rcases mem_versionsOf_record.1 hr with hr | ⟨-, rfl⟩
    · rcases mem_versionsOf_record.1 hr' with hr' | ⟨-, rfl⟩
      · exact hgrown.unique d₁ d₂ r hr r' hr' heq
      · exact absurd heq (hold d₁ r hr)
    · rcases mem_versionsOf_record.1 hr' with hr' | ⟨-, rfl⟩
      · exact absurd heq.symm (hold d₂ r' hr')
      · rfl

/-! ## Places of temporaries -/

/-- A place that no record has to do with. -/
structure IsFree (env : Environment) (p : Place) : Prop where
  /-- It belongs to no declaration so far. -/
  declaration : ∀ d : DeclId, d.index < env.declarations.size → p.declaration ≠ d
  /-- No record names its cell. -/
  cell : ∀ d, ∀ r ∈ env.versionsOf d, r.place.cell.id ≠ p.cell.id

theorem IsFree.of_versions {p : Place} (h : env.IsFree p) (hversions : env'.versions = env.versions)
    (hsize : env'.declarations.size ≤ env.declarations.size) : env'.IsFree p := by
  refine ⟨?_, ?_⟩
  · intro d hd
    exact h.declaration d (Nat.lt_of_lt_of_le hd hsize)
  · intro d r hr
    rw [versionsOf, hversions] at hr
    exact h.cell d r hr

@[simp] theorem op_newInstr (env : Environment) (owner : FuncId) (op : Op) :
    (env.newInstr owner op).1.op = op := rfl

theorem size_newTemporary (env : Environment) (owner : FuncId) :
    (env.newTemporary owner).2.declarations.size = env.declarations.size + 1 := by
  change ((env.declarations.push _).modify _ _).size = _
  rw [Array.size_modify, Array.size_push]

theorem size_le_newInstr (env : Environment) (owner : FuncId) (op : Op) :
    env.declarations.size ≤ (env.newInstr owner op).2.declarations.size := by
  change _ ≤ (env.newTemporary owner).2.declarations.size
  rw [size_newTemporary]
  exact Nat.le_succ _

theorem WellKept.newInstr (h : env.WellKept) (owner : FuncId) (op : Op) :
    (env.newInstr owner op).2.WellKept :=
  h.grow rfl (Nat.le_succ _) (size_le_newInstr env owner op)

/-- A new instruction defines a place that no record has to do with. -/
theorem WellKept.isFree_newInstr (h : env.WellKept) (owner : FuncId) (op : Op) :
    env.IsFree (env.newInstr owner op).1.place := by
  refine ⟨?_, ?_⟩
  · intro d hd heq
    rw [← heq] at hd
    exact absurd hd (Nat.lt_irrefl _)
  · intro d r hr heq
    have hlt := h.cell_lt d r hr
    rw [heq] at hlt
    exact absurd hlt (Nat.lt_irrefl _)

theorem isCapturedMutable_of_temporary {d : DeclId} (h : env.isTemporary d = true) :
    env.isCapturedMutable d = false := by
  rw [isTemporary, beq_iff_eq] at h
  simp [isCapturedMutable, h, DeclKind.isMutable]

end Whittle.Ir.Environment
