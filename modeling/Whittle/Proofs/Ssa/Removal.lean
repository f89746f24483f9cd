import Mathlib.Tactic.Common
import Whittle.Proofs.Table
import Whittle.Ssa.Copies

/-!
# Joins removed step by step

Removing the joins of a function is a sequence of small changes: a store behind the first version of a
variable, reads that name a phi instead of its operands, a copy at the end of a predecessor.  What
survives each of them survives the removal.

Main statement: `Function.eliminateSsa_induction`.
-/

namespace Whittle.Ir

/-- The instructions that copy an operand into a phi, and the environment after them. -/
def copyInstrs (phi : Phi) (owner : FuncId) (operand : Place) (env : Environment) :
    List Instr × Environment :=
  let (load, env) := env.newInstr owner (.loadLocal operand)
  let (copy, env) := env.newInstr owner (.copy phi.place load.place)
  let (statement, env) := env.newInstr owner (.expressionStatement copy.place)
  ([load, copy, statement], env)

namespace Function

variable {P : Function → Environment → Prop} {f f' : Function} {env env' : Environment} {phi : Phi}

/-- The function with a store of the given version into a phi, behind the definition of the version. -/
def withStore (f : Function) (first : VersionRecord) (store : Instr) : Function :=
  { f with
    blocks := f.blocks.modify first.block fun b =>
      { b with instructions := insertBehind (·.defined.contains first.place) store b.instructions } }

theorem forall_withStore {B : Block → Prop} (h : ∀ id b, f.blocks.get? id = some b → B b)
    {first : VersionRecord} {store : Instr}
    (hstore : ∀ b, B b → B { b with
      instructions := insertBehind (·.defined.contains first.place) store b.instructions }) :
    ∀ id b, (f.withStore first store).blocks.get? id = some b → B b := by
  intro id b hb
  rw [withStore, Table.get?_modify] at hb
  split at hb
  · obtain ⟨b₀, hb₀, rfl⟩ := Option.map_eq_some_iff.1 hb
    exact hstore b₀ (h id b₀ hb₀)
  · exact h id b hb

/-- What the three kinds of changes for a phi keep. -/
structure Survives (P : Function → Environment → Prop) (phi : Phi) : Prop where
  store : ∀ f env first, P f env → f.firstVersion? env phi.declaration = some first →
    P (f.withStore first (env.newInstr f.id (.storeLocal phi.place first.place .reassign)).1)
      (env.newInstr f.id (.storeLocal phi.place first.place .reassign)).2
  redirect : ∀ f env, P f env → P (f.redirectReads env phi) env
  copy : ∀ f env predecessor operand b, P f env → phi.operands.get? predecessor = some operand →
    f.blocks.get? predecessor = some b →
    P (f.setBlock predecessor
        { b with instructions := b.instructions ++ (copyInstrs phi f.id operand env).1 })
      (copyInstrs phi f.id operand env).2

theorem Survives.insertCopies (h : Survives P phi) {more : List (BlockId × Place)}
    (hmore : ∀ e ∈ more, phi.operands.get? e.1 = some e.2) (hf : P f env)
    (hout : insertCopies phi more f env = .ok (f', env')) : P f' env' := by
  induction more generalizing f env with
  | nil =>
    obtain ⟨rfl, rfl⟩ := Prod.mk.inj (Except.ok.inj hout)
    exact hf
  | cons e more ih =>
    obtain ⟨predecessor, operand⟩ := e
    obtain ⟨hoperand, hmore⟩ := List.forall_mem_cons.1 hmore
    rw [Function.insertCopies] at hout
    dsimp only at hout
    split at hout
    · cases hout
    · next b hb => exact ih hmore (h.copy f env predecessor operand b hf hoperand hb) hout

theorem Survives.eliminatePhi (h : Survives P phi) (hf : P f env)
    (hout : eliminatePhi phi f env = .ok (f', env')) : P f' env' := by
  have hstored : P (f.storeInitial env phi).1 (f.storeInitial env phi).2 := by
    rw [storeInitial]
    split
    · exact hf
    · next first hfirst => exact h.store f env first hf hfirst
  apply h.insertCopies _ (h.redirect _ _ hstored) hout
  intro e he
  exact Table.mem_entries.1 he

theorem eliminatePhis_induction {phis : List Phi}
    (h : ∀ phi ∈ phis, 1 < phi.operands.size → Survives P phi) (hf : P f env)
    (hout : eliminatePhis phis f env = .ok (f', env')) : P f' env' := by
  induction phis generalizing f env with
  | nil =>
    obtain ⟨rfl, rfl⟩ := Prod.mk.inj (Except.ok.inj hout)
    exact hf
  | cons phi phis ih =>
    obtain ⟨hphi, hphis⟩ := List.forall_mem_cons.1 h
    rw [eliminatePhis] at hout
    split at hout
    · exact ih hphis hf hout
    · next hsize =>
      rcases hone : eliminatePhi phi f env with _ | ⟨f₁, env₁⟩
      · rw [hone] at hout
        cases hout
      · rw [hone] at hout
        exact ih hphis ((hphi (by omega)).eliminatePhi hf hone) hout

/-- What every change for a phi with several operands keeps, the removal of the phis keeps. -/
theorem eliminateSsa_induction (h : ∀ phi ∈ f.phis, 1 < phi.operands.size → Survives P phi)
    (hf : P { f with phis := [] } env) (hout : f.eliminateSsa env = .ok (f', env')) : P f' env' := by
  apply eliminatePhis_induction _ hf hout
  intro phi hphi
  exact h phi (List.mem_mergeSort.1 hphi)

/-- Where no phi has several operands, no copy is made. -/
theorem eliminateSsa_of_size_le_one (hphis : ∀ phi ∈ f.phis, phi.operands.size ≤ 1)
    (hout : f.eliminateSsa env = .ok (f', env')) : f' = { f with phis := [] } := by
  refine eliminateSsa_induction (P := fun g _ => g = { f with phis := [] }) ?_ rfl hout
  intro phi hphi hsize
  have := hphis phi hphi
  omega

/-- Removing phis records nothing. -/
theorem versions_eliminateSsa (hout : f.eliminateSsa env = .ok (f', env')) :
    env'.versions = env.versions := by
  refine eliminateSsa_induction (P := fun _ env' => env'.versions = env.versions) ?_ rfl hout
  intro phi _ _
  exact ⟨fun _ _ _ h _ => h, fun _ _ h => h, fun _ _ _ _ _ h _ _ => h⟩

end Function

end Whittle.Ir
