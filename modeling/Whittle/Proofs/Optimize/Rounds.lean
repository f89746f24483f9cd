import Mathlib.Tactic.Common
import Std.Data.TreeMap.Lemmas
import Whittle.Optimize.Pipeline
import Whittle.Proofs.Ir.Functions

/-!
# Rounds taken apart

A round of a pass is a sequence of small changes: one block is appended to another one, one dead
instruction is removed.  What survives each of them survives the round.
-/

namespace Whittle.Ir

/-! ## Other instructions in the same blocks -/

/-- A function with other instructions in its blocks, related to those that were there. -/
def Function.Reworks (R : List Instr → List Instr → Prop) (f f' : Function) : Prop :=
  ∃ change : BlockId → Block → Block, f' = f.mapBlocks change ∧
    ∀ id b, f.blocks.get? id = some b →
      (change id b).terminal = b.terminal ∧ R b.instructions (change id b).instructions

/-- A module with other instructions in the blocks of its functions. -/
def Module.Reworks (R : List Instr → List Instr → Prop) (m m' : Module) : Prop :=
  ∃ change : Function → Function, m' = m.mapFunctions change ∧
    ∀ id f, m.functions.get? id = some f → f.Reworks R (change f)

section Reworks

variable {R : List Instr → List Instr → Prop} {f f' : Function} {m m' : Module}

theorem Function.reworks_blocks (f : Function) (change : BlockId → List Instr → Bool × List Instr)
    (h : ∀ id is, R is (change id is).2) :
    f.Reworks R { f with blocks := (f.blocks.map fun id b =>
      let (changed, instructions) := change id b.instructions
      (changed, { b with instructions })).map fun _ r => r.2 } := by
  refine ⟨fun id b => { b with instructions := (change id b.instructions).2 }, ?_, ?_⟩
  · rw [Table.map_map]
    rfl
  · intro id b _
    exact ⟨rfl, h id b.instructions⟩

theorem Module.reworks_functions {change : Function → Bool × Function}
    (h : ∀ f : Function, f.Reworks R (change f).2) (m : Module) :
    m.Reworks R { m with functions := (m.functions.map fun _ f => change f).map fun _ r => r.2 } := by
  refine ⟨fun f => (change f).2, ?_, fun id f _ => h f⟩
  rw [Table.map_map]
  rfl

theorem Module.Reworks.get? (h : m.Reworks R m') {id : FuncId} (hf' : m'.functions.get? id = some f') :
    ∃ f, m.functions.get? id = some f ∧ f.Reworks R f' := by
  obtain ⟨change, rfl, hchange⟩ := h
  rw [mapFunctions, Table.get?_map] at hf'
  obtain ⟨f, hf, rfl⟩ := Option.map_eq_some_iff.1 hf'
  exact ⟨f, hf, hchange id f hf⟩

theorem Function.Reworks.refl (hR : ∀ is, R is is) : f.Reworks R f := by
  have hsame : f.blocks.map (fun _ b => b) = f.blocks :=
    Table.ext_get? fun id => by simp [Table.get?_map]
  refine ⟨fun _ b => b, ?_, fun id b _ => ⟨rfl, hR b.instructions⟩⟩
  rw [mapBlocks, hsame]

theorem Function.Reworks.imp_mem {R' : List Instr → List Instr → Prop} (h : f.Reworks R f')
    (hR : ∀ id b, f.blocks.get? id = some b → ∀ is, R b.instructions is → R' b.instructions is) :
    f.Reworks R' f' := by
  obtain ⟨change, rfl, hchange⟩ := h
  exact ⟨change, rfl, fun id b hb => ⟨(hchange id b hb).1, hR id b hb _ (hchange id b hb).2⟩⟩

theorem Module.Reworks.imp_mem {R' : List Instr → List Instr → Prop} (h : m.Reworks R m')
    (hR : ∀ id f b block, m.functions.get? id = some f → f.blocks.get? b = some block →
      ∀ is, R block.instructions is → R' block.instructions is) : m.Reworks R' m' := by
  obtain ⟨change, rfl, hchange⟩ := h
  exact ⟨change, rfl, fun id f hf => (hchange id f hf).imp_mem fun b block => hR id f b block hf⟩

/-- Other instructions in one more block. -/
theorem Function.Reworks.setBlock {R' : List Instr → List Instr → Prop} (h : f.Reworks R f')
    {block : BlockId} {b' : Block} (hb' : f'.blocks.get? block = some b') {is : List Instr}
    (hR : ∀ js, R js b'.instructions → R' js is) (hR' : ∀ js js', R js js' → R' js js') :
    f.Reworks R' (f'.setBlock block { b' with instructions := is }) := by
  obtain ⟨change, rfl, hchange⟩ := h
  rw [mapBlocks, Table.get?_map] at hb'
  obtain ⟨b, hb, rfl⟩ := Option.map_eq_some_iff.1 hb'
  refine ⟨fun id b => if id = block then { change id b with instructions := is } else change id b,
    ?_, fun id b₁ hb₁ => ?_⟩
  · rw [Function.setBlock, mapBlocks, mapBlocks]
    congr 1
    refine Table.ext_get? fun id => ?_
    rw [Table.get?_insert, Table.get?_map, Table.get?_map]
    by_cases hid : id = block
    · subst hid
      simp [hb]
    · simp [hid]
  · obtain ⟨hterminal, hrel⟩ := hchange id b₁ hb₁
    by_cases hid : id = block
    · subst hid
      obtain rfl : b = b₁ := Option.some.inj (hb.symm.trans hb₁)
      simp only [if_true]
      exact ⟨hterminal, hR _ hrel⟩
    · simp only [if_neg hid]
      exact ⟨hterminal, hR' _ _ hrel⟩

end Reworks

/-! What the passes put in the place of the instructions of a block. -/

/-- Whether an operation does nothing but compute a value. -/
def Op.isFoldable : Op → Bool
  | .loadLocal .. | .loadGlobal .. | .binary .. | .unary .. | .logical .. | .conditional .. => true
  | _ => false

theorem isFoldable_of_instrValue? {m : Module} {env : Environment} {constants : Constants} {facts : Facts}
    {flow : Flow} {guarded : CellSet} {function : FuncId} {block : BlockId} (index : Nat) (i : Instr)
    (v : Value) (h : m.instrValue? env constants facts flow guarded ⟨function, block, index⟩ i = some v) :
    i.op.isFoldable = true := by
  rw [Module.instrValue?] at h
  cases hop : i.op <;> simp [hop, Op.value?] at h <;> rfl

/-- Some instructions that only compute have become literals. -/
def Folds (is is' : List Instr) : Prop :=
  ∃ value? : Nat → Instr → Option Value, (∀ index i v, value? index i = some v → i.op.isFoldable) ∧
    is' = (replaceKnown value? is).2

/-- Some stores take their values from elsewhere. -/
def Forwards (env : Environment) (is is' : List Instr) : Prop :=
  ∃ canSkip : Place → Place → Bool,
    (∀ target value, canSkip target value = true → env.isTemporary value.declaration = true) ∧
    is' = (forwardBlock canSkip {} is).2

/-- Some stores that nothing reads are gone. -/
def Overwrites (env : Environment) (isUnread : Place → Bool) (is is' : List Instr) : Prop :=
  is' = (dropOverwritten env isUnread is).2

namespace Module

variable (m : Module) (env : Environment)

theorem reworks_propagateConstants (constants : Constants) :
    m.Reworks Folds (m.propagateConstants env constants).2.1 := by
  refine reworks_functions (fun f => ?_) m
  apply f.reworks_blocks fun id => replaceKnown fun index =>
    m.instrValue? env constants (m.facts env) f.flow f.selfCopies ⟨f.id, some id, index⟩
  intro id is
  exact ⟨_, isFoldable_of_instrValue?, rfl⟩

theorem reworks_onBlocks {R : List Instr → List Instr → Prop} {change : List Instr → Bool × List Instr}
    (h : ∀ is, R is (change is).2) : m.Reworks R (m.onBlocks change).2 :=
  reworks_functions (fun f => f.reworks_blocks (fun _ => change) fun _ is => h is) m

theorem reworks_forwardStores : m.Reworks (Forwards env) (m.forwardStores env).2 := by
  apply reworks_onBlocks
  intro is
  refine ⟨_, ?_, rfl⟩
  intro target value hskip
  simp only [canSkip, Bool.and_eq_true] at hskip
  exact hskip.2

theorem reworks_dropOverwritten :
    m.Reworks (Overwrites env fun p => m.readCounts.getD p.cell.id 0 == 0) (m.dropOverwritten env).2 :=
  reworks_onBlocks m fun _ => rfl

end Module

/-! ## Merging blocks -/

namespace Function

variable {P : Function → Environment → Prop} {f : Function} {env : Environment} {B : Block → Prop}

/-- Only blocks go. -/
theorem dropUnreachable_eq (f : Function) : f.dropUnreachable.2 =
    { f with blocks := f.dropUnreachable.2.blocks, flow := f.dropUnreachable.2.flow } := by
  rw [dropUnreachable]
  dsimp only
  split <;> rfl

theorem forall_dropUnreachable (h : ∀ id b, f.blocks.get? id = some b → B b) :
    ∀ id b, f.dropUnreachable.2.blocks.get? id = some b → B b := by
  rw [dropUnreachable]
  dsimp only
  split
  · exact h
  · intro id b hb
    rw [recomputeFlow, Table.get?_filter] at hb
    exact h id b (Option.filter_eq_some_iff.1 hb).1

theorem forall_merge (h : ∀ id b, f.blocks.get? id = some b → B b) {target source : BlockId}
    {merged : Block} (hmerge : ∀ b, B b → B ⟨b.instructions ++ merged.instructions, merged.terminal⟩) :
    ∀ id b, (f.merge target source merged).blocks.get? id = some b → B b := by
  intro id b hb
  have hother (b : Block) (hb : (f.blocks.erase source).get? id = some b) : B b := by
    rw [Table.get?_erase] at hb
    split at hb
    · cases hb
    · exact h id b hb
  rw [merge, recomputeFlow, Table.get?_modify] at hb
  split at hb
  · obtain ⟨b₀, hb₀, rfl⟩ := Option.map_eq_some_iff.1 hb
    exact hmerge b₀ (hother b₀ hb₀)
  · exact hother b hb

theorem mergeAll_induction
    (hmerge : ∀ f env target source merged, P f env → f.mergeable? = some (target, source) →
      f.blocks.get? source = some merged → P (f.merge target source merged) (env.rehome source target))
    (fuel : Nat) (h : P f env) : P (f.mergeAll fuel env).2.1 (f.mergeAll fuel env).2.2 := by
  induction fuel generalizing f env with
  | zero => exact h
  | succ fuel ih =>
    rw [mergeAll]
    split
    · exact h
    · next target source hmergeable =>
      split
      · exact h
      · next merged hmerged => exact ih (hmerge f env target source merged h hmergeable hmerged)

end Function

/-- What survives the removal of unreachable blocks and every single merge survives a round of
merging. -/
theorem Module.mergeBlocks_induction {P : Module → Environment → Prop}
    (hdrop : ∀ m env id f, P m env → m.functions.get? id = some f →
      P (m.setFunction id f.dropUnreachable.2) env)
    (hmerge : ∀ m env id f target source merged, P m env → m.functions.get? id = some f →
      f.mergeable? = some (target, source) → f.blocks.get? source = some merged →
      P (m.setFunction id (f.merge target source merged)) (env.rehome source target))
    {m : Module} {env : Environment} (h : P m env) :
    P (m.mergeBlocks env).2.1 (m.mergeBlocks env).2.2 := by
  refine Module.foldl_functions (P := fun t : Bool × Module × Environment => P t.2.1 t.2.2)
    (fun t => t.2.1) _ (fun t e => ⟨(e.2.mergeBlocks t.2.2).2.1, rfl⟩) ?_ h
  rintro ⟨changed, m, env⟩ id f h hf
  change P (m.setFunction id (Function.mergeAll _ f.dropUnreachable.2 env).2.1)
    (Function.mergeAll _ f.dropUnreachable.2 env).2.2
  -- the function in its turn, inside of the module
  refine Function.mergeAll_induction (P := fun g env => P (m.setFunction id g) env) ?_ _
    (hdrop m env id f h hf)
  intro g env target source merged hg hmergeable hmerged
  have hget : (m.setFunction id g).functions.get? id = some g := by rw [get?_setFunction, if_pos rfl]
  simpa only [setFunction_setFunction] using
    hmerge (m.setFunction id g) env id g target source merged hg hget hmergeable hmerged

/-! ## Removing dead code -/

/-- A block is swept by removing one dead instruction after the other, the last one first. -/
theorem sweepBlock_induction {P : List Instr → ReadCounts → Prop} {env : Environment}
    {shapes : ArrayShapes}
    (hremove : ∀ before i after counts, P (before ++ i :: after) counts →
      i.isDead env shapes counts = true → P (before ++ after) (counts.release i.reads))
    {is : List Instr} {counts : ReadCounts} (h : P is counts) :
    P (sweepBlock env shapes is counts).1 (sweepBlock env shapes is counts).2 := by
  induction is generalizing P with
  | nil => exact h
  | cons i is ih =>
    -- the instructions behind the first one are swept first, with that one in front of them
    have hrest : P (i :: (sweepBlock env shapes is counts).1) (sweepBlock env shapes is counts).2 :=
      ih (P := fun is counts => P (i :: is) counts)
        (fun before j after counts h hdead => hremove (i :: before) j after counts h hdead) h
    rw [sweepBlock]
    dsimp only
    split
    · next hdead => exact hremove [] i _ _ hrest hdead
    · exact hrest

/-- A function is swept by removing one dead instruction after the other. -/
theorem Function.sweep_induction {P : Function → ReadCounts → Prop} {env : Environment} {f : Function}
    (hremove : ∀ (f' : Function) counts block b before i after, P f' counts →
      f'.blocks.get? block = some b → b.instructions = before ++ i :: after →
      i.isDead env f.arrayShapes counts = true →
      P (f'.setBlock block { b with instructions := before ++ after }) (counts.release i.reads))
    {counts : ReadCounts} (h : P f counts) : P (f.sweep env counts).1 (f.sweep env counts).2 := by
  rw [Function.sweep]
  dsimp only
  generalize f.arrayShapes = shapes at hremove
  generalize f.flow.postOrder = order
  induction order generalizing f counts with
  | nil => exact h
  | cons block order ih =>
    rw [List.foldl_cons]
    dsimp only
    split
    · exact ih h
    · next b hb =>
      apply ih
      -- one block in its turn, inside of the function
      refine sweepBlock_induction (P := fun is counts =>
        P (f.setBlock block { b with instructions := is }) counts) ?_ ?_
      · intro before i after counts h hdead
        have hremoved := hremove (f.setBlock block { b with instructions := before ++ i :: after })
          counts block _ before i after h (by rw [Function.get?_setBlock, if_pos rfl]) rfl hdead
        simpa only [Function.setBlock_setBlock] using hremoved
      · rwa [Function.setBlock_self hb]

/-- What survives the removal of any one dead instruction survives a round of removing dead code. -/
theorem Module.sweepDead_induction {P : Module → ReadCounts → Prop} {env : Environment}
    (hremove : ∀ (m : Module) counts shapes id f block b before i after, P m counts →
      m.functions.get? id = some f → f.blocks.get? block = some b →
      b.instructions = before ++ i :: after → i.isDead env shapes counts = true →
      P (m.setFunction id (f.setBlock block { b with instructions := before ++ after }))
        (counts.release i.reads))
    {m : Module} (h : P m m.readCounts) : ∃ counts, P (m.sweepDead env).2 counts := by
  refine ⟨_, Module.foldl_functions (P := fun t : Module × ReadCounts => P t.1 t.2) (fun t => t.1)
    (fun t e => (t.1.setFunction e.1 (e.2.sweep env t.2).1, (e.2.sweep env t.2).2))
    (fun t e => ⟨_, rfl⟩) ?_ (t := (m, m.readCounts)) h⟩
  rintro ⟨m, counts⟩ id f h hf
  refine Function.sweep_induction (P := fun f counts => P (m.setFunction id f) counts) ?_ ?_
  · intro f' counts block b before i after h hb hinstrs hdead
    have hremoved := hremove _ counts f.arrayShapes id f' block b before i after h
      (by rw [get?_setFunction, if_pos rfl]) hb hinstrs hdead
    simpa only [setFunction_setFunction] using hremoved
  · rwa [setFunction_self hf]

/-! ## Rounds of all passes -/

section Passes

variable {P : Workbench → Prop} {w : Workbench}

theorem Pass.repeat_induction {pass : Pass} (hstep : ∀ w, P w → P (pass.step w).2) (rounds : Nat) (h : P w) :
    P (pass.repeat rounds w).2 := by
  induction rounds generalizing w with
  | zero => exact h
  | succ rounds ih =>
    have hfirst := hstep w h
    rw [Pass.repeat]
    split
    next changed w' heq =>
      rw [heq] at hfirst
      split
      · exact ih hfirst
      · exact hfirst

theorem runPasses_induction (hstep : ∀ (pass : Pass) w, P w → P (pass.step w).2) (rounds : Nat)
    (passes : List Pass) (h : P w) : P (runPasses rounds passes w).2 :=
  List.foldlRecOn (motive := fun r : Bool × Workbench => P r.2) _ _ h
    fun _ hr pass _ => Pass.repeat_induction (hstep pass) rounds hr

theorem repeatPasses_induction (hstep : ∀ (pass : Pass) w, P w → P (pass.step w).2) (rounds : Nat)
    (passes : List Pass) (left : Nat) (h : P w) : P (repeatPasses rounds passes left w) := by
  induction left generalizing w with
  | zero => exact h
  | succ left ih =>
    have hround := runPasses_induction hstep rounds passes h
    rw [repeatPasses]
    split
    next changed w' heq =>
      rw [heq] at hround
      split
      · exact ih hround
      · exact hround

/-- What every round of every pass keeps, whatever is remembered of recursive functions, optimizing keeps. -/
theorem Workbench.optimize_induction (hstep : ∀ (pass : Pass) w, P w → P (pass.step w).2)
    (hcache : ∀ w recursion, P w → P { w with recursion }) (o : Options) (h : P w) : P (w.optimize o) :=
  hcache _ _ (repeatPasses_induction hstep o.maxRounds o.passes o.maxRounds (hcache _ _ h))

end Passes

end Whittle.Ir
