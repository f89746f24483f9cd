import Whittle.Error
import Whittle.Ir.Id
import Whittle.Table

/-!
# Control flow facts

What follows from the edges between blocks: predecessors and successors, dominators and immediate
dominators, dominance frontiers and back edges.  All of it is computed anew from a table that gives
the blocks that may follow each block.  A block that no path from the entry reaches counts as having
no predecessors, and an edge out of it counts for nothing.
-/

namespace Whittle.Ir

/-- Blocks that may follow each block. -/
abbrev Edges := Table BlockId (List BlockId)

/-- A set of blocks for each block. -/
abbrev BlockSets := Table BlockId (KeySet BlockId)

/-- Facts about the control flow of a function. -/
structure Flow where
  /-- Where execution starts. -/
  entry : BlockId
  /-- Reachable blocks with an edge to each block. -/
  predecessors : BlockSets
  /-- Blocks that each reachable block has an edge to. -/
  successors : BlockSets
  /-- Blocks on every path to each block. -/
  dominators : BlockSets
  /-- The closest of the other dominators. -/
  immediate : Table BlockId BlockId
  /-- Where the dominance of each block ends. -/
  frontier : BlockSets
  /-- Sources of back edges by the loop header they lead to. -/
  backEdges : BlockSets
deriving DecidableEq

namespace Flow

/-- The facts about no blocks at all. -/
def empty : Flow := ⟨⟨0⟩, ∅, ∅, ∅, ∅, ∅, ∅⟩

instance : Inhabited Flow := ⟨empty⟩

/-- Adds a member to the set of a block. -/
def addTo (sets : BlockSets) (block member : BlockId) : BlockSets :=
  sets.insert block (KeySet.add (sets.getD block ∅) member)

/-! ## Computing the facts -/

/-- The number of edges. -/
def edgeCount (edges : Edges) : Nat := edges.total (·.length)

/-- The blocks that a walk from the stack reaches.  Every block is expanded once, so no more rounds
are needed than there are edges and stack entries. -/
def reach (edges : Edges) : (fuel : Nat) → (stack : List BlockId) → (seen : KeySet BlockId) →
    KeySet BlockId
  | 0, _, seen => seen
  | _, [], seen => seen
  | fuel + 1, block :: stack, seen =>
    if seen.contains block then reach edges fuel stack seen
    else reach edges fuel (edges.getD block [] ++ stack) (KeySet.add seen block)

/-- Reachable blocks with an edge to each block. -/
def predecessorSets (entry : BlockId) (edges : Edges) : BlockSets :=
  let reached := reach edges (edgeCount edges + 2) [entry] ∅
  let start : BlockSets := edges.map fun _ _ => ∅
  edges.entries.foldl
    (fun sets e =>
      if reached.contains e.1 then e.2.foldl (fun sets s => addTo sets s e.1) sets else sets)
    start

/-- Every edge turned round. -/
def transpose (sets : BlockSets) : BlockSets :=
  sets.entries.foldl (fun acc e => e.2.keys.foldl (fun acc p => addTo acc p e.1) acc)
    (sets.map fun _ _ => ∅)

/-- The members common to all sets of a list; nothing is common to none. -/
def commonTo : List (KeySet BlockId) → KeySet BlockId
  | [] => ∅
  | s :: ss => ss.foldl KeySet.inter s

/-- Corrects the dominators of one block: itself and what dominates all its predecessors. -/
def refine (entry : BlockId) (acc : BlockSets × Bool) (e : BlockId × KeySet BlockId) :
    BlockSets × Bool :=
  let (sets, changed) := acc
  if e.1 == entry || e.2.isEmpty then acc
  else
    let set := KeySet.add (commonTo (e.2.keys.map fun p => sets.getD p ∅)) e.1
    if set.entries == (sets.getD e.1 ∅).entries then (sets, changed)
    else (sets.insert e.1 set, true)

/-- Corrects all dominators until nothing changes.  A set that changes loses a member. -/
def settle (entry : BlockId) (predecessors : BlockSets) : (fuel : Nat) → BlockSets → BlockSets
  | 0, sets => sets
  | fuel + 1, sets =>
    let (sets, changed) := predecessors.entries.foldl (refine entry) (sets, false)
    if changed then settle entry predecessors fuel sets else sets

/-- Blocks on every path to each block. -/
def dominatorSets (entry : BlockId) (predecessors : BlockSets) : BlockSets :=
  let everything : KeySet BlockId := predecessors.map fun _ _ => ()
  let start : BlockSets := predecessors.map fun block preds =>
    if block == entry || preds.isEmpty then KeySet.add ∅ block else everything
  settle entry predecessors (predecessors.size * predecessors.size + 1) start

/-- The candidate with the largest size; of equals the last. -/
def largest (candidates : List (BlockId × Nat)) : Option BlockId :=
  (candidates.foldl
    (fun best c =>
      match best with
      | none => some c
      | some b => if b.2 ≤ c.2 then some c else some b)
    none).map (·.1)

/-- The closest of the other dominators of each block.  They form a chain, so the closest is the one
with most dominators of its own. -/
def immediateDominators (dominators : BlockSets) : Table BlockId BlockId :=
  let sizes := dominators.map fun _ s => s.size
  dominators.entries.foldl
    (fun acc e =>
      match largest ((sizes.meet e.2).entries.filter (·.1 != e.1)) with
      | some d => acc.insert e.1 d
      | none => acc)
    ∅

/-- Adds `join` to the frontier of a block and of its dominators below `stop`. -/
def climb (immediate : Table BlockId BlockId) (join : BlockId) (stop : Option BlockId) :
    (fuel : Nat) → Option BlockId → BlockSets → BlockSets
  | 0, _, sets => sets
  | _, none, sets => sets
  | fuel + 1, some block, sets =>
    if some block == stop then sets
    else climb immediate join stop fuel (immediate.get? block) (addTo sets block join)

/-- Where the dominance of each block ends. -/
def frontiers (predecessors : BlockSets) (immediate : Table BlockId BlockId) : BlockSets :=
  predecessors.entries.foldl
    (fun sets e =>
      if e.2.size < 2 then sets
      else
        e.2.keys.foldl
          (fun sets p =>
            climb immediate e.1 (immediate.get? e.1) (predecessors.size + 1) (some p) sets)
          sets)
    (predecessors.map fun _ _ => ∅)

/-- Edges that lead to a dominator of their source. -/
def backEdgeSets (predecessors dominators : BlockSets) : BlockSets :=
  predecessors.entries.foldl
    (fun sets e =>
      e.2.keys.foldl
        (fun sets p => if (dominators.getD p ∅).contains e.1 then addTo sets e.1 p else sets)
        sets)
    ∅

/-- All facts about a table of edges. -/
def compute (entry : BlockId) (edges : Edges) : Flow :=
  let predecessors := predecessorSets entry edges
  let dominators := dominatorSets entry predecessors
  let immediate := immediateDominators dominators
  { entry
    predecessors
    successors := transpose predecessors
    dominators
    immediate
    frontier := frontiers predecessors immediate
    backEdges := backEdgeSets predecessors dominators }

/-! ## Reading the facts -/

/-- Reachable blocks with an edge to a block, increasing. -/
def predecessorsOf (flow : Flow) (block : BlockId) : List BlockId :=
  (flow.predecessors.getD block ∅).keys

/-- Blocks that a block has an edge to, increasing. -/
def successorsOf (flow : Flow) (block : BlockId) : List BlockId :=
  (flow.successors.getD block ∅).keys

/-- Whether every path to `b` passes through `a`. -/
def dominates (flow : Flow) (a b : BlockId) : Bool := (flow.dominators.getD b ∅).contains a

/-- Whether every path to `b` passes through `a` before. -/
def strictlyDominates (flow : Flow) (a b : BlockId) : Bool := a != b && flow.dominates a b

/-- Whether a path leads to a block. -/
def isReachable (flow : Flow) (block : BlockId) : Bool :=
  block == flow.entry || !(flow.predecessorsOf block).isEmpty

/-- The one block that jumps back to a loop header. -/
def backEdge (flow : Flow) (header : BlockId) : Outcome (Option BlockId) :=
  match (flow.backEdges.getD header ∅).keys with
  | [] => .ok none
  | [source] => .ok (some source)
  | _ => .error (.multipleBackEdges header.text)

/-- Whether an edge leads back to a loop header. -/
def isBackEdge (flow : Flow) (source target : BlockId) : Bool :=
  (flow.backEdges.getD target ∅).contains source

/-- Goes on with a walk in depth.  The stack holds the open blocks, the latest first, each with the
successors still to go to; the list holds the finished blocks, the last one first.  A round goes to a
successor or finishes a block. -/
def descend (flow : Flow) : (fuel : Nat) → (stack : List (BlockId × List BlockId)) →
    KeySet BlockId × List BlockId → KeySet BlockId × List BlockId
  | 0, _, acc => acc
  | _, [], acc => acc
  | fuel + 1, (block, []) :: stack, (seen, done) => descend flow fuel stack (seen, block :: done)
  | fuel + 1, (block, s :: later) :: stack, (seen, done) =>
    if seen.contains s then descend flow fuel ((block, later) :: stack) (seen, done)
    else
      descend flow fuel ((s, flow.successorsOf s) :: (block, later) :: stack) (KeySet.add seen s, done)

/-- Walks from a block, depth first, unless it has been seen.  A round goes along an edge or finishes a
block, and an edge has led to every block but the first. -/
def walkFrom (flow : Flow) (acc : KeySet BlockId × List BlockId) (root : BlockId) :
    KeySet BlockId × List BlockId :=
  if acc.1.contains root then acc
  else
    flow.descend (2 * flow.successors.total (·.size) + 1) [(root, flow.successorsOf root)]
      (KeySet.add acc.1 root, acc.2)

/-- Blocks in reverse depth-first post-order: from the entry, then from every block not reached
yet. -/
def reversePostOrder (flow : Flow) : List BlockId :=
  ((flow.entry :: flow.predecessors.keys).foldl flow.walkFrom (∅, [])).2

/-- Blocks in depth-first post-order. -/
def postOrder (flow : Flow) : List BlockId := flow.reversePostOrder.reverse

end Flow

end Whittle.Ir
