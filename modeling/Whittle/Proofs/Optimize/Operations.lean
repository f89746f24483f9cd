import Mathlib.Tactic.Common
import Whittle.Project.Compile
import Whittle.Proofs.Optimize.Inlining

/-!
# Ways through the compiler

Joins come and go function by function, and passes change a module round by round.  A module is
reached when any such operations, in any order, lead to it from a lowered module; what lowered modules
have and every operation keeps, all reached modules have.
-/

namespace Whittle.Ir

/-- One thing that happens to a module and its environment. -/
inductive Operation : Module → Environment → Module → Environment → Prop
  /-- What imports refer to is found out. -/
  | resolve (m : Module) (env : Environment) (globals : Table String ImportBinding) :
      Operation m env { m with globals } env
  /-- One function is given its phis. -/
  | buildSsa {m : Module} {id : FuncId} {f : Function} (env : Environment) :
      m.functions.get? id = some f →
      Operation m env (m.setFunction id (f.buildSsa env).1) (f.buildSsa env).2
  /-- The phis of one function are removed. -/
  | eliminateSsa {m : Module} {id : FuncId} {f f' : Function} {env env' : Environment} :
      m.functions.get? id = some f → f.eliminateSsa env = .ok (f', env') →
      Operation m env (m.setFunction id f') env'
  /-- One round of a pass. -/
  | step (w : Workbench) (pass : Pass) :
      Operation w.module w.env (pass.step w).2.module (pass.step w).2.env

/-- The modules that operations lead to, with their environments. -/
inductive Module.Reached : Module → Environment → Prop
  | lower {path : String} {tree : Syntax.Module} {m : Module} {env : Environment} :
      tree.lower path {} = .ok (m, env) → Reached m env
  | next {m m' : Module} {env env' : Environment} :
      Reached m env → Operation m env m' env' → Reached m' env'

/-- Operations one after the other. -/
inductive Operations (m : Module) (env : Environment) : Module → Environment → Prop
  | none : Operations m env m env
  | next {m' m'' : Module} {env' env'' : Environment} :
      Operations m env m' env' → Operation m' env' m'' env'' → Operations m env m'' env''

namespace Operations

variable {start m m' : Module} {first env env' : Environment}

theorem reached (h : Operations start first m env) (hstart : start.Reached first) : m.Reached env := by
  induction h with
  | none => exact hstart
  | next _ hop ih => exact ih.next hop

theorem buildSsa (h : Operations start first m env) (hout : m.buildSsa env = .ok (m', env')) :
    Operations start first m' env' := by
  refine Module.forFunctions_induction (P := Operations start first) ?_ hout h
  intro m env id f f' env' h hf hone
  obtain ⟨rfl, rfl⟩ := Prod.mk.inj (Except.ok.inj hone)
  exact h.next (.buildSsa env hf)

theorem eliminateSsa (h : Operations start first m env) (hout : m.eliminateSsa env = .ok (m', env')) :
    Operations start first m' env' := by
  refine Module.forFunctions_induction (P := Operations start first) ?_ hout h
  intro m env id f f' env' h hf hone
  exact h.next (.eliminateSsa hf hone)

theorem throughSsa (h : Operations start first m env) (hout : m.throughSsa env = .ok (m', env')) :
    Operations start first m' env' := by
  refine Module.forFunctions_induction (P := Operations start first) ?_ hout h
  intro m env id f f' env' h hf hone
  have hbuilt := h.next (.buildSsa env hf)
  have hget : (m.setFunction id (f.buildSsa env).1).functions.get? id = some (f.buildSsa env).1 := by
    rw [Module.get?_setFunction, if_pos rfl]
  simpa only [Module.setFunction_setFunction] using hbuilt.next (.eliminateSsa hget hone)

end Operations

/-! ## Modules that compiling leads to -/

namespace Module.Reached

variable {m m' : Module} {env env' : Environment}

theorem buildSsa (h : m.Reached env) (hout : m.buildSsa env = .ok (m', env')) : m'.Reached env' :=
  (Operations.none.buildSsa hout).reached h

theorem eliminateSsa (h : m.Reached env) (hout : m.eliminateSsa env = .ok (m', env')) :
    m'.Reached env' :=
  (Operations.none.eliminateSsa hout).reached h

theorem throughSsa (h : m.Reached env) (hout : m.throughSsa env = .ok (m', env')) :
    m'.Reached env' :=
  (Operations.none.throughSsa hout).reached h

end Module.Reached

/-- Whatever compiling leads to, single operations lead to. -/
theorem Module.Arises.reached {m : Module} {env : Environment} (h : m.Arises env) :
    m.Reached env := by
  induction h with
  | lower hlower => exact .lower hlower
  | resolve globals _ ih => exact ih.next (.resolve _ _ globals)
  | buildSsa _ hbuild ih => exact ih.buildSsa hbuild
  | eliminateSsa _ heliminate ih => exact ih.eliminateSsa heliminate
  | throughSsa _ hthrough ih => exact ih.throughSsa hthrough
  | step pass _ ih => exact ih.next (.step _ pass)

theorem Workbench.reached_optimize {w : Workbench} (h : w.module.Reached w.env) (o : Options) :
    (w.optimize o).module.Reached (w.optimize o).env :=
  optimize_induction (P := fun w => w.module.Reached w.env) (fun pass w h => h.next (.step w pass))
    (fun _ _ h => h) o h

/-- Whatever the options are, a module that is compiled is reached. -/
theorem reached_of_compiled {p : ProjectModule} {o : Options} {constants : Constants} {w : Workbench}
    (h : p.lower o constants = .ok w) : w.module.Reached w.env := by
  rw [ProjectModule.lower] at h
  cases hlower : p.tree.lower p.path {} with
  | error e =>
    rw [hlower] at h
    cases h
  | ok t =>
    obtain ⟨m, env⟩ := t
    have hresolved := (Module.Reached.lower hlower).next
      (.resolve m env (m.globals.map fun _ b => { b with resolved := p.imports.get? b.source }))
    rw [hlower] at h
    dsimp only [bind, Except.bind] at h
    split at h
    · cases h
    · next t hthrough =>
      have hreached := hresolved.throughSsa hthrough
      obtain rfl := Except.ok.inj h
      split
      · exact hreached
      · exact Workbench.reached_optimize hreached o

/-! ## Cells -/

/-- Every operation takes the environment further, and all functions still fit in. -/
theorem Operation.advance {m m' : Module} {env env' : Environment} (h : Operation m env m' env')
    {cells : List Cell} (hall : m.AllUse env cells) (hlogs : env.Logs cells) :
    ∃ cells', Advance env cells env' cells' ∧ m'.AllUse env' cells' := by
  cases h with
  | resolve globals => exact ⟨cells, .refl hlogs, hall⟩
  | buildSsa _ hf =>
    obtain ⟨cells', hadvance, hfits⟩ := (hall _ _ hf).buildSsa hlogs
    exact ⟨cells', hadvance, (Module.AllUse.advance hall hadvance).setFunction hfits⟩
  | eliminateSsa hf hout =>
    obtain ⟨cells', hadvance, hfits⟩ := (hall _ _ hf).eliminateSsa hlogs hout
    exact ⟨cells', hadvance, (Module.AllUse.advance hall hadvance).setFunction hfits⟩
  | step w pass => exact pass.advance_step hall hlogs

theorem Module.Reached.coherent {m : Module} {env : Environment} (h : m.Reached env) :
    m.Coherent env := by
  induction h with
  | lower hlower => exact Syntax.Module.coherent_lower hlower
  | next _ hop ih =>
    obtain ⟨cells, hlogs, hall⟩ := ih
    obtain ⟨cells', hadvance, hall'⟩ := hop.advance hall hlogs
    exact ⟨cells', hadvance.logs, hall'⟩

/-- The tables of a pass, all by number, never mix up two cells. -/
theorem Module.Reached.discerns {m : Module} {env : Environment} (h : m.Reached env) : m.Discerns :=
  h.coherent.discerns

/-- Functions are bound only to declarations that there are. -/
theorem Module.Reached.bound {m : Module} {env : Environment} (h : m.Reached env) {d : DeclId}
    (hd : env.functions.contains d = true) : d.index < env.declarations.size := by
  induction h with
  | lower hlower => exact Syntax.Module.bound_lower hlower hd
  | next hreached hop ih =>
    obtain ⟨cells, hlogs, hall⟩ := hreached.coherent
    obtain ⟨cells', hadvance, -⟩ := hop.advance hall hlogs
    rcases hadvance.bound d hd with hd | hlt
    · exact (ih hd).trans_le hadvance.size
    · exact hlt

end Whittle.Ir
