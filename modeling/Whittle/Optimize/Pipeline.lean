import Whittle.Optimize.Constants
import Whittle.Optimize.DeadCode
import Whittle.Optimize.Inline
import Whittle.Optimize.Merge
import Whittle.Optimize.Overwritten

/-!
# The pipeline of passes

Each pass is repeated until it changes nothing, and the sequence of passes is repeated until none of
them changes anything.  Both loops have a limit; reaching it is no error.
-/

namespace Whittle.Ir

/-- The passes. -/
inductive Pass where
  | inlining
  | propagation
  | forwarding
  | overwriting
  | sweeping
  | merging
deriving DecidableEq, Repr

namespace Pass

/-- All passes in the order in which they run. -/
def all : List Pass := [.inlining, .propagation, .forwarding, .overwriting, .sweeping, .merging]

end Pass

/-- Which passes run and how often. -/
structure Options where
  /-- Whether a pass runs. -/
  isEnabled : Pass → Bool
  /-- The limit of each loop. -/
  maxRounds : Nat

namespace Options

/-- All passes. -/
def default : Options := ⟨fun _ => true, 64⟩

/-- No pass. -/
def none : Options := ⟨fun _ => false, 64⟩

/-- Switches one pass on or off. -/
def set (o : Options) (pass : Pass) (isOn : Bool) : Options :=
  { o with isEnabled := fun p => if p == pass then isOn else o.isEnabled p }

/-- The passes that run, in order. -/
def passes (o : Options) : List Pass := Pass.all.filter o.isEnabled

end Options

/-- What the passes work on. -/
structure Workbench where
  /-- The module. -/
  module : Module
  /-- Its ids and declarations. -/
  env : Environment
  /-- What the modules of the project have published. -/
  constants : Constants
  /-- Which functions are known to be recursive. -/
  recursion : RecursionCache := ∅

/-- One round of a pass; tells whether it changed anything. -/
def Pass.step (pass : Pass) (w : Workbench) : Bool × Workbench :=
  match pass with
  | .inlining =>
    let (changed, module, env, recursion) := w.module.inlineOne w.env w.recursion
    (changed, { w with module, env, recursion })
  | .propagation =>
    let (changed, module, constants) := w.module.propagateConstants w.env w.constants
    (changed, { w with module, constants })
  | .forwarding =>
    let (changed, module) := w.module.forwardStores w.env
    (changed, { w with module })
  | .overwriting =>
    let (changed, module) := w.module.dropOverwritten w.env
    (changed, { w with module })
  | .sweeping =>
    let (changed, module) := w.module.sweepDead w.env
    (changed, { w with module })
  | .merging =>
    let (changed, module, env) := w.module.mergeBlocks w.env
    (changed, { w with module, env })

/-- Repeats a pass until it changes nothing, within a limit; tells whether anything changed. -/
def Pass.repeat (pass : Pass) : (rounds : Nat) → Workbench → Bool × Workbench
  | 0, w => (false, w)
  | rounds + 1, w =>
    let (changed, w) := pass.step w
    if changed then (true, (pass.repeat rounds w).2) else (false, w)

/-- Runs passes one after the other, each until it changes nothing; tells whether any changed
anything. -/
def runPasses (rounds : Nat) (passes : List Pass) (w : Workbench) : Bool × Workbench :=
  passes.foldl
    (fun (changed, w) pass =>
      let (c, w) := pass.repeat rounds w
      (changed || c, w))
    (false, w)

/-- Repeats the sequence of passes until nothing changes, within a limit. -/
def repeatPasses (rounds : Nat) (passes : List Pass) : (left : Nat) → Workbench → Workbench
  | 0, w => w
  | left + 1, w =>
    let (changed, w) := runPasses rounds passes w
    if changed then repeatPasses rounds passes left w else w

/-- Optimizes a module.  Recursive functions are looked for anew. -/
def Workbench.optimize (o : Options) (w : Workbench) : Workbench :=
  let result := repeatPasses o.maxRounds o.passes o.maxRounds { w with recursion := ∅ }
  { result with recursion := w.recursion }

end Whittle.Ir
