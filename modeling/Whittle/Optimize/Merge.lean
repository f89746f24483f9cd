import Whittle.Optimize.Site

/-!
# Merging blocks

A block that only a plain jump enters becomes part of the block that jumps.  Blocks that no path
reaches go, unless they are where the arms of a conditional meet: code generation places those.
-/

namespace Whittle.Ir

/-- The blocks where the arms of conditionals meet. -/
def Function.fallthroughs (f : Function) : KeySet BlockId :=
  KeySet.ofList <| f.terminals.filterMap fun
    | .branch _ _ _ fallthrough => some fallthrough
    | _ => none

/-- The first block that ends in a plain jump to a block nothing else enters, and that block. -/
def Function.mergeable? (f : Function) : Option (BlockId × BlockId) :=
  let fallthroughs := f.fallthroughs
  f.blocks.entries.findSome? fun e =>
    match e.2.terminal with
    | some (.jump target) =>
      if target != e.1 && target != f.entry && f.flow.predecessorsOf target == [e.1] &&
          !fallthroughs.contains target then
        some (e.1, target)
      else none
    | _ => none

/-- Appends a block to another one. -/
def Function.merge (f : Function) (target source : BlockId) (merged : Block) : Function :=
  let blocks := (f.blocks.erase source).modify target fun b =>
    ⟨b.instructions ++ merged.instructions, merged.terminal⟩
  ({ f with blocks } : Function).recomputeFlow

/-- Merges blocks while there are any to merge.  Each merge removes a block. -/
def Function.mergeAll : (fuel : Nat) → Function → Environment → Bool × Function × Environment
  | 0, f, env => (false, f, env)
  | fuel + 1, f, env =>
    match f.mergeable? with
    | none => (false, f, env)
    | some (target, source) =>
      match f.blocks.get? source with
      | none => (false, f, env)
      | some merged =>
        let (_, f, env) := mergeAll fuel (f.merge target source merged) (env.rehome source target)
        (true, f, env)

/-- Removes unreachable blocks; tells whether there were any. -/
def Function.dropUnreachable (f : Function) : Bool × Function :=
  let fallthroughs := f.fallthroughs
  let isKept (id : BlockId) : Bool := f.flow.isReachable id || fallthroughs.contains id
  if f.blocks.keys.all isKept then (false, f)
  else
    (true, ({ f with blocks := f.blocks.filter fun id _ => isKept id } : Function).recomputeFlow)

/-- Removes and merges the blocks of one function. -/
def Function.mergeBlocks (f : Function) (env : Environment) : Bool × Function × Environment :=
  let (dropped, f) := f.dropUnreachable
  let (merged, f, env) := mergeAll f.blocks.size f env
  (dropped || merged, f, env)

/-- One round of merging blocks. -/
def Module.mergeBlocks (m : Module) (env : Environment) : Bool × Module × Environment :=
  m.functions.entries.foldl
    (fun (changed, m, env) e =>
      let (c, f, env) := e.2.mergeBlocks env
      (changed || c, Module.setFunction m e.1 f, env))
    (false, m, env)

end Whittle.Ir
