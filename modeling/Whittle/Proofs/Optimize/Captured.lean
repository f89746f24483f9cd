import Mathlib.Tactic.Common
import Whittle.Optimize.DeadCode
import Whittle.Proofs.Optimize.Inlining
import Whittle.Proofs.Optimize.Propagation
import Whittle.Proofs.Optimize.Thinning
import Whittle.Proofs.Optimize.Visible

/-!
# Stores that other functions see

Where two functions use one variable, it is captured, and then dead code removal keeps the stores to it
unless it is constant.

Main statement: `Syntax.Module.sweepDead_keeps_store`.
-/

namespace Whittle.Ir

variable {env : Environment} {id : FuncId} {f g : Function} {p : Place}

/-! ## Removing dead code -/

section Sweep

variable {m : Module}

/-- A round removes reads and adds none. -/
theorem Module.reads_sweepDead (hg : (m.sweepDead env).2.functions.get? id = some g) :
    ∃ f, m.functions.get? id = some f ∧ g.reads ⊆ f.reads := by
  refine Module.sweepDead_removals
    (P := fun m' => ∀ id g, m'.functions.get? id = some g → ∃ f, m.functions.get? id = some f ∧
      g.reads ⊆ f.reads) ?_ (fun id f hf => ⟨f, hf, fun p hp => hp⟩) id g hg
  intro m' id' f' block b before i after hm hf hb hinstrs _ id g hg
  rw [setFunction, Table.get?_insert] at hg
  split at hg
  · next heq =>
    cases hg
    obtain ⟨f, hf', hsub⟩ := hm id' f' hf
    refine ⟨f, heq ▸ hf', fun p hp => hsub ?_⟩
    exact (Function.reads_remove hb hinstrs).mem_iff.2 (List.mem_append_right _ hp)
  · exact hm id g hg

/-- A store that a round removes writes a version that nobody reads behind the round, of a variable
that no other function may write. -/
theorem Module.store_sweepDead (hf : m.functions.get? id = some f) {i : Instr} {target value : Place}
    {kind : StoreKind} (hi : i ∈ f.instructions) (hop : i.op = .storeLocal target value kind) :
    (∃ g, (m.sweepDead env).2.functions.get? id = some g ∧ i ∈ g.instructions) ∨
      env.isCapturedMutable target.declaration = false ∧
        target.cell.id ∉ (m.sweepDead env).2.readCells := by
  refine Module.sweepDead_deletions
    (P := fun m' => (∃ g, m'.functions.get? id = some g ∧ i ∈ g.instructions) ∨
      env.isCapturedMutable target.declaration = false ∧ target.cell.id ∉ m'.readCells)
    ?_ (.inl ⟨f, hf, hi⟩)
  intro m' id' f' block b before j after hm hf' hb hinstrs ⟨shapes, counts, hdead⟩ hunread
  have hreads := Module.readCells_remove hf' hb hinstrs
  rcases hm with ⟨g, hg, hmem⟩ | ⟨hmutable, hnot⟩
  case inr =>
    exact .inr ⟨hmutable, fun hin => hnot (hreads.mem_iff.2 (List.mem_append_right _ hin))⟩
  by_cases hsame : j = i
  · -- the store itself is removed
    subst hsame
    rw [Instr.isDead, hop] at hdead
    simp only [Bool.and_eq_true, Bool.not_eq_true'] at hdead
    have htarget : target ∈ j.defined := by simp [Instr.defined, hop, Op.target?]
    exact .inr ⟨hdead.2, fun hin =>
      hunread target htarget (hreads.mem_iff.2 (List.mem_append_right _ hin))⟩
  · refine .inl ?_
    rw [setFunction, Table.get?_insert]
    split
    case isFalse => exact ⟨g, hg, hmem⟩
    case isTrue heq =>
      subst heq
      obtain rfl : f' = g := Option.some.inj (hf'.symm.trans hg)
      refine ⟨_, rfl, (Function.instructions_setBlock_perm ..).mem_iff.2 ?_⟩
      have hold := (Function.instructions_perm hb).mem_iff.1 hmem
      rw [hinstrs] at hold
      simp only [List.mem_append, List.mem_cons, Ne.symm hsame, false_or] at hold ⊢
      exact hold

end Sweep

end Whittle.Ir

namespace Whittle.Syntax.Module

open Ir Lowering

/-- Stores seen by other functions survive.  A round of removing dead code keeps every store to a
variable that another function reads behind the round, if the variable may be written again or the
other function reads the version that the store writes. -/
theorem sweepDead_keeps_store {path : String} {m : Syntax.Module} {ir ir' : Ir.Module}
    {env env' : Environment} (hlower : m.lower path {} = .ok (ir, env))
    (hjoins : ir.throughSsa env = .ok (ir', env')) {storing reading : FuncId}
    (hne : reading ≠ storing) {f g : Function} (hf : ir'.functions.get? storing = some f)
    (hg : (ir'.sweepDead env').2.functions.get? reading = some g) {i : Instr} {target value : Place}
    {kind : StoreKind} (hi : i ∈ f.instructions) (hop : i.op = .storeLocal target value kind)
    {p : Place} (hp : p ∈ g.reads) (hd : p.declaration = target.declaration)
    (hkind : (env'.kindOf target.declaration).isMutable = true ∨ p.cell.id = target.cell.id) :
    ∃ f', (ir'.sweepDead env').2.functions.get? storing = some f' ∧ i ∈ f'.instructions := by
  have hstays : (∃ f', (ir'.sweepDead env').2.functions.get? storing = some f' ∧
      i ∈ f'.instructions) ∨ env'.isCapturedMutable target.declaration = false ∧
        target.cell.id ∉ (ir'.sweepDead env').2.readCells := Ir.Module.store_sweepDead hf hi hop
  rcases hstays with hkept | ⟨hmutable, hunread⟩
  · exact hkept
  exfalso
  rcases hkind with hkind | hcell
  · -- both functions may use the variable, and one of them does not own it
    have hlowered : ir.Discreet false env := Ir.Module.discreet_lower hlower (by rintro ⟨⟩)
    have hdiscreet := hlowered.operations (.lower hlower) (Operations.none.throughSsa hjoins)
    obtain ⟨g₀, hg₀, hreads⟩ := Ir.Module.reads_sweepDead hg
    have hread : env'.Shows reading p := (hdiscreet reading g₀ hg₀).code.reads
      (fun i hi p hp => hi.shown p (List.mem_append_left _ hp)) (hreads hp)
    have htarget : target ∈ i.places := List.mem_append_right _ (by simp [Instr.defined, hop, Op.target?])
    have hstored := ((hdiscreet storing f hf).code.instructions hi).shown target htarget
    rw [Environment.Shows, hd] at hread
    have hnamed : env'.isTemporary target.declaration = false := by
      rw [Environment.isTemporary, beq_eq_false_iff_ne]
      intro heq
      rw [heq] at hkind
      cases hkind
    have hcaptured : env'.captured.contains target.declaration = true := by
      rcases hread hnamed with howner | hin
      · rcases hstored hnamed with howner' | hin
        · exact absurd (Option.some.inj (howner.symm.trans howner')) hne
        · exact hin
      · exact hin
    rw [Environment.isCapturedMutable, hcaptured, hkind] at hmutable
    cases hmutable
  · refine hunread (hcell ▸ List.mem_map_of_mem (List.mem_flatMap.2 ⟨g, ?_, hp⟩))
    exact Table.mem_values.2 ⟨reading, hg⟩

theorem Op.eq_storeLocal {op : Op} {target : Place} (htarget : op.target? = some target)
    (hstored : op.stored?.isSome = true) : ∃ value kind, op = .storeLocal target value kind := by
  cases op with
  | storeLocal target' value kind =>
    obtain rfl := Option.some.inj htarget
    exact ⟨value, kind, rfl⟩
  | _ => cases hstored

/-- `function f() { return x; } if (c) { g(); } let x = 1; f();` -/
def returningLater : Syntax.Module :=
  let name (text : String) : Expr := .name .synthetic (.synthetic text)
  let call (text : String) : Stmt := .expression .synthetic (.call .synthetic (name text) [])
  ⟨⟨0, 0⟩,
    [.function .synthetic (.mk .synthetic (some (.synthetic "f")) []
      (.block [.return .synthetic (some (name "x"))]) false),
     .ifElse .synthetic (name "c") (.block .synthetic [call "g"]) none,
     .declaration .synthetic .letKind [.mk .synthetic (.name .synthetic (.synthetic "x"))
       (some (.literal .synthetic (.number Number.one)))],
     call "f"]⟩

/-- The store of `x` stays, though `f` reads a version of `x` that nothing stores. -/
theorem sweepDead_keeps_store_returningLater :
    ∃ ir env ir' env' f g i target value kind p, returningLater.lower "m" {} = .ok (ir, env) ∧
      ir.throughSsa env = .ok (ir', env') ∧
      (ir'.functions.get? ⟨0⟩ = some f ∧ i ∈ f.instructions ∧ i.op = .storeLocal target value kind) ∧
      ((ir'.sweepDead env').2.functions.get? ⟨1⟩ = some g ∧ p ∈ g.reads ∧
        p.declaration = target.declaration ∧ p.cell.id ≠ target.cell.id) ∧
      (env'.kindOf target.declaration).isMutable = true ∧
      ∃ f', (ir'.sweepDead env').2.functions.get? ⟨0⟩ = some f' ∧ i ∈ f'.instructions := by
  obtain ⟨⟨ir', env'⟩, hjoined, f, hf, g, hg, i, hi, target, htarget, p, hp, ⟨hd, hne⟩, hkind, hstored⟩ :
      ∃ t ∈ joined? returningLater, ∃ f ∈ t.1.functions.get? ⟨0⟩,
        ∃ g ∈ (t.1.sweepDead t.2).2.functions.get? ⟨1⟩, ∃ i ∈ f.instructions,
        ∃ target ∈ i.op.target?, ∃ p ∈ g.reads,
          (p.declaration = target.declaration ∧ p.cell.id ≠ target.cell.id) ∧
          (t.2.kindOf target.declaration).isMutable = true ∧ i.op.stored?.isSome = true := by
    decide +kernel
  obtain ⟨ir, env, hlower, hjoins⟩ := exists_of_joined? hjoined
  obtain ⟨value, kind, hop⟩ := Op.eq_storeLocal htarget hstored
  exact ⟨ir, env, ir', env', f, g, i, target, value, kind, p, hlower, hjoins, ⟨hf, hi, hop⟩,
    ⟨hg, hp, hd, hne⟩, hkind,
    sweepDead_keeps_store hlower hjoins (by decide) hf hg hi hop hp hd (.inl hkind)⟩

end Whittle.Syntax.Module
