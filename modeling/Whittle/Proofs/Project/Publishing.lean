import Mathlib.Tactic.Common
import Whittle.Project.Compile
import Whittle.Proofs.Inline.Module
import Whittle.Proofs.Optimize.Rounds

/-!
# What modules publish

The modules of a project share one table of known exports.  Compiling a module reads all of it and writes only
under the key of its own path, so what another module has published stays as it is.

Main statements: `Pass.publishes_step` and `ProjectModule.publishes_lower`.
-/

namespace Whittle

namespace Ir

/-! ## The table -/

/-- The tables differ at most in what is published under a path. -/
def Constants.SameBut (path : String) (c c' : Constants) : Prop :=
  ∀ other, Path.key other ≠ Path.key path → c'.exportsOf? other = c.exportsOf? other

namespace Constants

variable {path : String} {c c' c'' : Constants}

theorem SameBut.refl (path : String) (c : Constants) : SameBut path c c := fun _ _ => rfl

theorem SameBut.trans (h : SameBut path c c') (h' : SameBut path c' c'') : SameBut path c c'' :=
  fun other hother => (h' other hother).trans (h other hother)

theorem SameBut.get? (h : SameBut path c c') {other : String} (hother : Path.key other ≠ Path.key path)
    (name : String) : c'.get? other name = c.get? other name := by
  rw [Constants.get?, h other hother, Constants.get?]

theorem sameBut_publish (c : Constants) (path name : String) (value : Value) :
    SameBut path c (c.publish path name value).2 :=
  fun _ hother => Table.get?_insert_ne _ _ hother

end Constants

theorem Module.sameBut_publishExports (m : Module) (env : Environment) (facts : Facts) (c : Constants) :
    Constants.SameBut m.path c (m.publishExports env facts c).2 := by
  refine List.foldlRecOn (motive := fun r : Bool × Constants => Constants.SameBut m.path c r.2) _ _
    (.refl _ c) ?_
  rintro ⟨changed, c'⟩ hc' e -
  dsimp only
  split
  · next value _ => exact hc'.trans (c'.sameBut_publish m.path e.1 value)
  · exact hc'

/-! ## Passes -/

/-- A workbench becomes another one on which the module has the same path and only this module has published
more. -/
structure Workbench.Publishes (w w' : Workbench) : Prop where
  path : w'.module.path = w.module.path
  others : Constants.SameBut w.module.path w.constants w'.constants

namespace Workbench.Publishes

variable {w w' w'' : Workbench}

theorem of_path (hpath : w'.module.path = w.module.path) (hconstants : w'.constants = w.constants) :
    w.Publishes w' :=
  ⟨hpath, hconstants ▸ .refl _ _⟩

theorem trans (h : w.Publishes w') (h' : w'.Publishes w'') : w.Publishes w'' :=
  ⟨h'.path.trans h.path, h.others.trans (h.path ▸ h'.others)⟩

end Workbench.Publishes

section Paths

variable (m : Module) (env : Environment)

theorem Module.Reworks.path {R : List Instr → List Instr → Prop} {m m' : Module} (h : m.Reworks R m') :
    m'.path = m.path := by
  obtain ⟨change, rfl, -⟩ := h
  rfl

theorem Module.path_inlineOne (cache : RecursionCache) : (m.inlineOne env cache).2.1.path = m.path := by
  rw [inlineOne]
  dsimp only
  split
  · next m' env' hreplaced =>
    obtain ⟨inl, -, hreplace⟩ := Option.bind_eq_some_iff.1 hreplaced
    obtain ⟨-, -, -, -, -, -, -, rfl, -⟩ := Inlining.replace?_eq_some hreplace
    rfl
  · rfl

theorem Module.path_sweepDead : (m.sweepDead env).2.path = m.path := by
  obtain ⟨_, hpath⟩ : ∃ _counts, (m.sweepDead env).2.path = m.path :=
    sweepDead_induction (P := fun m' _ => m'.path = m.path) (fun _ _ _ _ _ _ _ _ _ _ h _ _ _ _ => h) rfl
  exact hpath

theorem Module.path_mergeBlocks : (m.mergeBlocks env).2.1.path = m.path :=
  mergeBlocks_induction (P := fun m' _ => m'.path = m.path) (fun _ _ _ _ h _ => h)
    (fun _ _ _ _ _ _ _ h _ _ _ => h) rfl

end Paths

/-- A round of a pass publishes only what the module exports. -/
theorem Pass.publishes_step (pass : Pass) (w : Workbench) : w.Publishes (pass.step w).2 := by
  cases pass with
  | inlining => exact .of_path (w.module.path_inlineOne w.env w.recursion) rfl
  | propagation =>
    have hpath := (w.module.reworks_propagateConstants w.env w.constants).path
    exact ⟨hpath, hpath ▸ (w.module.propagateConstants w.env w.constants).2.1.sameBut_publishExports w.env
      (w.module.facts w.env) w.constants⟩
  | forwarding => exact .of_path (w.module.reworks_forwardStores w.env).path rfl
  | overwriting => exact .of_path (w.module.reworks_dropOverwritten w.env).path rfl
  | sweeping => exact .of_path (w.module.path_sweepDead w.env) rfl
  | merging => exact .of_path (w.module.path_mergeBlocks w.env) rfl

theorem Workbench.publishes_optimize (w : Workbench) (o : Options) : w.Publishes (w.optimize o) :=
  optimize_induction (P := w.Publishes) (fun pass w' h => h.trans (pass.publishes_step w'))
    (fun _ _ h => ⟨h.path, h.others⟩) o (.of_path rfl rfl)

end Ir

open Ir

/-! ## Modules -/

theorem Syntax.Module.path_lower {path : String} {tree : Syntax.Module} {env env' : Environment} {m : Ir.Module}
    (h : tree.lower path env = .ok (m, env')) : m.path = path := by
  simp only [lower, bind, Except.bind] at h
  split at h
  · cases h
  · obtain ⟨rfl, -⟩ := Prod.mk.inj (Except.ok.inj h)
    rfl

theorem Ir.Module.path_throughSsa {m m' : Module} {env env' : Environment}
    (h : m.throughSsa env = .ok (m', env')) : m'.path = m.path :=
  forFunctions_induction (P := fun m' _ => m'.path = m.path) (fun _ _ _ _ _ _ h _ _ => h) h rfl

/-- Compiling a module publishes only under its path. -/
theorem ProjectModule.publishes_lower {m : ProjectModule} {o : Options} {c : Constants} {w : Workbench}
    (h : m.lower o c = .ok w) : w.module.path = m.path ∧ Constants.SameBut m.path c w.constants := by
  simp only [lower, bind, Except.bind] at h
  split at h
  · cases h
  · next lowered hlowered =>
    have hpath := Syntax.Module.path_lower hlowered
    split at h
    · cases h
    · next through hthrough =>
      have hthere := Ir.Module.path_throughSsa hthrough
      rw [hpath] at hthere
      obtain rfl := Except.ok.inj h
      split
      · exact ⟨hthere, .refl _ _⟩
      · next w _ =>
        have hpublishes := Workbench.publishes_optimize
          { module := through.1, env := through.2, constants := c } o
        exact ⟨hpublishes.path.trans hthere, hthere ▸ hpublishes.others⟩

end Whittle
