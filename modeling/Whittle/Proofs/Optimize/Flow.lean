import Mathlib.Tactic.Common
import Whittle.Proofs.Optimize.Operations

/-!
# Stored control flow

Every function stores facts about the control flow of its blocks.  Joins and most passes only change
what is read and done inside of blocks, never how a block ends; merging, which removes blocks,
computes the facts anew.  So the facts stored are always those of the blocks that are there.

Main statement: `Module.flow_eq_compute`.
-/

namespace Whittle.Ir

/-- How a block ends, whatever it reads there. -/
def Block.ending (b : Block) : Option Terminal := b.terminal.map (·.mapReads fun _ => default)

theorem Terminal.mapReads_mapReads (g h : Place → Place) (t : Terminal) :
    (t.mapReads g).mapReads h = t.mapReads (h ∘ g) := by
  cases t <;> simp [mapReads]

theorem Block.ending_mapReads (g : Place → Place) (b : Block) : (b.mapReads g).ending = b.ending := by
  simp only [ending, mapReads, Option.map_map]
  congr 1
  ext1 t
  exact t.mapReads_mapReads g _

theorem Block.successors_eq (b : Block) :
    b.successors = (b.ending.map (·.successors)).getD [] := by
  obtain ⟨instructions, terminal⟩ := b
  cases terminal with
  | none => rfl
  | some t => exact (t.successors_mapReads _).symm

namespace Function

variable {f f' f'' : Function} {id : BlockId} {b : Block}

/-! ## Blocks that end as before -/

/-- The blocks of a function end as those of another one, and the same facts are stored. -/
structure SameFlow (f f' : Function) : Prop where
  entry : f'.entry = f.entry
  flow : f'.flow = f.flow
  endings : ∀ id, (f'.blocks.get? id).map (·.ending) = (f.blocks.get? id).map (·.ending)

theorem SameFlow.refl (f : Function) : f.SameFlow f := ⟨rfl, rfl, fun _ => rfl⟩

theorem SameFlow.trans (h : f.SameFlow f') (h' : f'.SameFlow f'') : f.SameFlow f'' :=
  ⟨h'.entry.trans h.entry, h'.flow.trans h.flow, fun id => (h'.endings id).trans (h.endings id)⟩

theorem SameFlow.edges (h : f.SameFlow f') : edgesOf f'.blocks = edgesOf f.blocks := by
  apply Table.ext_get?
  intro id
  have hending := h.endings id
  simp only [edgesOf, Table.get?_map]
  cases hb : f.blocks.get? id <;> cases hb' : f'.blocks.get? id <;> simp_all [Block.successors_eq]

theorem SameFlow.mapBlocks {g : BlockId → Block → Block}
    (hg : ∀ id b, f.blocks.get? id = some b → (g id b).ending = b.ending) :
    f.SameFlow (f.mapBlocks g) := by
  refine ⟨rfl, rfl, fun id => ?_⟩
  rw [Function.mapBlocks, Table.get?_map]
  cases hb : f.blocks.get? id with
  | none => rfl
  | some b => exact congrArg some (hg id b hb)

theorem SameFlow.withInstructions (hb : f.blocks.get? id = some b) (is : List Instr) :
    f.SameFlow (f.setBlock id { b with instructions := is }) := by
  refine ⟨rfl, rfl, fun id' => ?_⟩
  rw [get?_setBlock]
  split
  · next heq =>
    rw [heq, hb]
    rfl
  · rfl

/-! Joins. -/

theorem sameFlow_buildSsa (f : Function) (env : Environment) : f.SameFlow (f.buildSsa env).1 :=
  ⟨rfl, rfl, fun _ => rfl⟩

theorem sameFlow_withStore (f : Function) (first : VersionRecord) (store : Instr) :
    f.SameFlow (f.withStore first store) := by
  refine ⟨rfl, rfl, fun id => ?_⟩
  rw [withStore, Table.get?_modify]
  split
  · cases f.blocks.get? id <;> rfl
  · rfl

theorem sameFlow_redirectReads (f : Function) (env : Environment) (phi : Phi) :
    f.SameFlow (f.redirectReads env phi) := by
  apply SameFlow.mapBlocks
  intro id b _
  split
  · obtain ⟨instructions, terminal⟩ := b
    simp only [Block.ending, Option.map_map]
    congr 1
    ext1 t
    rw [Function.comp]
    split
    · exact t.mapReads_mapReads _ _
    · rfl
  · rfl

theorem sameFlow_eliminateSsa {env env' : Environment} (h : f.eliminateSsa env = .ok (f', env')) :
    f.SameFlow f' := by
  refine eliminateSsa_induction (P := fun g _ => f.SameFlow g) ?_ ⟨rfl, rfl, fun _ => rfl⟩ h
  intro phi _ _
  constructor
  case store =>
    intro g env first hg _
    exact hg.trans (g.sameFlow_withStore first _)
  case redirect =>
    intro g env hg
    exact hg.trans (g.sameFlow_redirectReads env phi)
  case copy =>
    intro g env predecessor operand b hg _ hb
    exact hg.trans (.withInstructions hb _)

/-! Passes. -/

theorem Reworks.sameFlow {R : List Instr → List Instr → Prop} (h : f.Reworks R f') :
    f.SameFlow f' := by
  obtain ⟨change, rfl, hchange⟩ := h
  apply SameFlow.mapBlocks
  intro id b hb
  rw [Block.ending, (hchange id b hb).1, Block.ending]

end Function

namespace Module

variable {m m' m'' : Module}

/-- The functions of a module have the blocks and the facts that they had in another one. -/
def SameFlow (m m' : Module) : Prop :=
  ∀ id f', m'.functions.get? id = some f' → ∃ f, m.functions.get? id = some f ∧ f.SameFlow f'

theorem SameFlow.refl (m : Module) : m.SameFlow m := fun _ f hf => ⟨f, hf, .refl f⟩

theorem SameFlow.trans (h : m.SameFlow m') (h' : m'.SameFlow m'') : m.SameFlow m'' := by
  intro id f'' hf''
  obtain ⟨f', hf', hsame'⟩ := h' id f'' hf''
  obtain ⟨f, hf, hsame⟩ := h id f' hf'
  exact ⟨f, hf, hsame.trans hsame'⟩

theorem SameFlow.setFunction {id : FuncId} {f f' : Function} (hf : m.functions.get? id = some f)
    (h : f.SameFlow f') : m.SameFlow (m.setFunction id f') := by
  intro id' g hg
  rw [get?_setFunction] at hg
  split at hg
  · next heq =>
    obtain rfl := Option.some.inj hg
    exact ⟨f, heq ▸ hf, h⟩
  · exact ⟨g, hg, .refl g⟩

theorem Reworks.sameFlow {R : List Instr → List Instr → Prop} (h : m.Reworks R m') :
    m.SameFlow m' := by
  intro id f' hf'
  obtain ⟨f, hf, hreworks⟩ := h.get? hf'
  exact ⟨f, hf, hreworks.sameFlow⟩

theorem sameFlow_sweepDead (m : Module) (env : Environment) : m.SameFlow (m.sweepDead env).2 := by
  obtain ⟨_, hswept⟩ : ∃ _counts, m.SameFlow (m.sweepDead env).2 := by
    apply Module.sweepDead_induction (P := fun m' _ => m.SameFlow m') _ (.refl m)
    intro m' _ _ id f block b _ _ _ hm' hf hb _ _
    exact hm'.trans (.setFunction hf (.withInstructions hb _))
  exact hswept

theorem sameFlow_inlineOne {env : Environment} (hids : ∀ id f, m.functions.get? id = some f → f.id = id)
    (cache : RecursionCache) : m.SameFlow (m.inlineOne env cache).2.1 := by
  rcases hinline : m.inlineOne env cache with ⟨changed, m', env', cache'⟩
  cases changed with
  | false =>
    obtain ⟨rfl, rfl⟩ := inlineOne_eq_false hinline
    exact .refl m
  | true =>
    obtain ⟨inl, ⟨id, hcaller⟩, -, -, -, hreplace⟩ := inlineOne_eq_true hinline
    obtain ⟨b, call, function, arguments, hb, -, -, rfl, -⟩ := Inlining.replace?_eq_some hreplace
    rw [← hids id _ hcaller] at hcaller
    apply SameFlow.setFunction hcaller
    apply Function.SameFlow.trans (.withInstructions hb _)
    apply Function.SameFlow.mapBlocks
    intro id' b' _
    exact b'.ending_mapReads _

end Module

/-- A round of any pass but merging leaves the blocks as they are. -/
theorem Pass.sameFlow_step {w : Workbench}
    (hids : ∀ id f, w.module.functions.get? id = some f → f.id = id) {pass : Pass}
    (hpass : pass ≠ .merging) : w.module.SameFlow (pass.step w).2.module := by
  cases pass with
  | inlining => exact Module.sameFlow_inlineOne hids w.recursion
  | propagation => exact (w.module.reworks_propagateConstants w.env w.constants).sameFlow
  | forwarding => exact (w.module.reworks_forwardStores w.env).sameFlow
  | overwriting => exact (w.module.reworks_dropOverwritten w.env).sameFlow
  | sweeping => exact w.module.sameFlow_sweepDead w.env
  | merging => exact absurd rfl hpass

/-! ## Facts that are up to date -/

namespace Function

variable {f f' : Function}

/-- The facts stored are those of the blocks. -/
def HasFlow (f : Function) : Prop := f.flow = Flow.compute f.entry (edgesOf f.blocks)

instance (f : Function) : Decidable f.HasFlow :=
  inferInstanceAs (Decidable (f.flow = Flow.compute f.entry (edgesOf f.blocks)))

theorem HasFlow.same (h : f.HasFlow) (hsame : f.SameFlow f') : f'.HasFlow := by
  rw [HasFlow, hsame.flow, hsame.entry, hsame.edges]
  exact h

theorem HasFlow.dropUnreachable (h : f.HasFlow) : f.dropUnreachable.2.HasFlow := by
  rw [Function.dropUnreachable]
  dsimp only
  split
  · exact h
  · rfl

end Function

namespace Module

variable {m m' : Module} {env env' : Environment}

theorem hasFlow_of_sameFlow (h : ∀ id f, m.functions.get? id = some f → f.HasFlow)
    (hsame : m.SameFlow m') : ∀ id f, m'.functions.get? id = some f → f.HasFlow := by
  intro id f' hf'
  obtain ⟨f, hf, hsame⟩ := hsame id f' hf'
  exact (h id f hf).same hsame

theorem hasFlow_setFunction (h : ∀ id f, m.functions.get? id = some f → f.HasFlow) {id : FuncId}
    {f : Function} (hf : f.HasFlow) :
    ∀ id' f', (m.setFunction id f).functions.get? id' = some f' → f'.HasFlow := by
  intro id' f' hf'
  rw [get?_setFunction] at hf'
  split at hf'
  · exact Option.some.inj hf' ▸ hf
  · exact h id' f' hf'

theorem hasFlow_mergeBlocks (h : ∀ id f, m.functions.get? id = some f → f.HasFlow) :
    ∀ id f, (m.mergeBlocks env).2.1.functions.get? id = some f → f.HasFlow := by
  refine mergeBlocks_induction
    (P := fun m _ => ∀ id f, m.functions.get? id = some f → f.HasFlow) ?_ ?_ h
  · intro m _ id f hm hf
    exact hasFlow_setFunction hm (hm id f hf).dropUnreachable
  · intro m _ id f target source merged hm _ _ _
    -- a merge ends by computing the facts
    exact hasFlow_setFunction hm rfl

theorem Reached.ids (h : m.Reached env) {id : FuncId} {f : Function}
    (hf : m.functions.get? id = some f) : f.id = id := by
  obtain ⟨_, _, hall⟩ := h.coherent
  exact (hall id f hf).id

theorem Reached.hasFlow (h : m.Reached env) :
    ∀ id f, m.functions.get? id = some f → f.HasFlow := by
  induction h with
  | lower hlower =>
    intro id f hf
    obtain ⟨home, -, hclosed⟩ := Syntax.Module.closed_lower hlower
    exact (hclosed id f hf).flow
  | next hreached hop ih =>
    cases hop with
    | resolve globals => exact ih
    | buildSsa _ hf => exact hasFlow_of_sameFlow ih (.setFunction hf (Function.sameFlow_buildSsa _ _))
    | eliminateSsa hf hout =>
      exact hasFlow_of_sameFlow ih (.setFunction hf (Function.sameFlow_eliminateSsa hout))
    | step w pass =>
      by_cases hpass : pass = .merging
      · subst hpass
        exact hasFlow_mergeBlocks ih
      · exact hasFlow_of_sameFlow ih (pass.sameFlow_step (fun _ _ => hreached.ids) hpass)

/-- Stored facts about control flow never go stale: whatever operations have led to a module, each of
its functions stores what computing the facts from its blocks gives. -/
theorem flow_eq_compute (h : m.Reached env) {id : FuncId} {f : Function}
    (hf : m.functions.get? id = some f) : f.flow = Flow.compute f.entry (edgesOf f.blocks) :=
  h.hasFlow id f hf

/-- A call is replaced, the called function loses the block behind its return, and its facts are those
of the block that is left. -/
theorem flow_eq_compute_takingFirst :
    ∃ (w : Workbench) (f : Function), joined? takingFirst = some (w.module, w.env) ∧
      w.module.Reached w.env ∧ (Pass.inlining.step w).1 = true ∧
      (Pass.merging.step (Pass.inlining.step w).2).1 = true ∧
      (Pass.merging.step (Pass.inlining.step w).2).2.module.functions.get? ⟨1⟩ = some f ∧
      f.blocks.size = 1 ∧ f.flow = Flow.compute f.entry (edgesOf f.blocks) := by
  obtain ⟨⟨m, env⟩, hjoined, hinlined, hmerged, f, hf, hsize⟩ : ∃ t ∈ joined? takingFirst,
      (Pass.inlining.step ⟨t.1, t.2, {}, ∅⟩).1 = true ∧
      (Pass.merging.step (Pass.inlining.step ⟨t.1, t.2, {}, ∅⟩).2).1 = true ∧
      ∃ f ∈ (Pass.merging.step (Pass.inlining.step ⟨t.1, t.2, {}, ∅⟩).2).2.module.functions.get? ⟨1⟩,
        f.blocks.size = 1 := by
    decide +kernel
  have hreached : m.Reached env := (arises_of_joined? hjoined).reached
  have hlater := (hreached.next (.step ⟨m, env, {}, ∅⟩ .inlining)).next
    (.step (Pass.inlining.step ⟨m, env, {}, ∅⟩).2 .merging)
  exact ⟨⟨m, env, {}, ∅⟩, f, hjoined, hreached, hinlined, hmerged, hf, hsize, flow_eq_compute hlater hf⟩

end Module

end Whittle.Ir
