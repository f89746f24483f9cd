import Whittle.Ir.Environment
import Whittle.Ir.Module

/-!
# Joins

Lowering gives every write a version of its own, so what is left is to find where versions meet.  A
variable that several blocks write needs a phi in every block of the iterated dominance frontier of
those blocks; each phi takes from a predecessor the version that reaches its end.
-/

namespace Whittle.Ir

/-- The blocks that need a join of versions created in `sites`, in the order in which they are found:
the frontier of the sites, then of what was found, until nothing new is found. -/
def joinsFrom (frontier : BlockSets) (sites : KeySet BlockId) :
    (fuel : Nat) → (queue joins : List BlockId) → List BlockId
  | 0, _, joins => joins
  | _, [], joins => joins
  | fuel + 1, block :: queue, joins =>
    let new := (frontier.getD block ∅).keys.filter (!joins.contains ·)
    joinsFrom frontier sites fuel (queue ++ new.filter (!sites.contains ·)) (joins ++ new)

/-- The iterated dominance frontier of the sites.  A block joins the queue when it is a site or when
it is found first, so no more rounds are needed than there are sites and members of frontiers. -/
def iteratedFrontier (frontier : BlockSets) (sites : KeySet BlockId) : List BlockId :=
  joinsFrom frontier sites (sites.size + frontier.total (·.size) + 1) sites.keys []

/-- The version that a block leaves: the last one that a write of it created, else the last of its
joins. -/
def leftBy (records : List VersionRecord) (block : BlockId) : Option Place :=
  let here := (records.filter (·.block == block)).map (·.place)
  let written := here.filter fun p => match p.cell.version with
    | .numbered _ => true
    | .phi _ => false
  written.getLast?.or here.getLast?

/-- The version that reaches the end of a block: what it leaves, else what reaches the end of its
immediate dominator. -/
def reachingVersion (immediate : Table BlockId BlockId) (records : List VersionRecord) :
    (fuel : Nat) → BlockId → Option Place
  | 0, _ => none
  | fuel + 1, block =>
    match leftBy records block with
    | some place => some place
    | none => (immediate.get? block).bind (reachingVersion immediate records fuel)

namespace Function

/-- The blocks of a function that record versions, for every variable with at least two. -/
def meetings (f : Function) (env : Environment) : List (DeclId × KeySet BlockId) :=
  env.versions.entries.filterMap fun e =>
    let sites := KeySet.ofList ((e.2.map (·.block)).filter f.blocks.contains)
    if !env.isTemporary e.1 && 1 < sites.size then some (e.1, sites) else none

/-- Creates phis of a declaration in the given blocks and records them. -/
def addPhis (d : DeclId) : List BlockId → Environment → List Phi × Environment
  | [], env => ([], env)
  | block :: blocks, env =>
    let (id, place, env) := env.newPhi d
    let (phis, env) := addPhis d blocks (env.record d block place)
    (⟨id, block, place, ∅⟩ :: phis, env)

/-- Creates the phis of all given variables. -/
def placePhis (frontier : BlockSets) :
    List (DeclId × KeySet BlockId) → Environment → List Phi × Environment
  | [], env => ([], env)
  | (d, sites) :: more, env =>
    let (phis, env) := addPhis d (iteratedFrontier frontier sites) env
    let (others, env) := placePhis frontier more env
    (phis ++ others, env)

/-- Gives a phi its operands: from each predecessor the version that reaches its end. -/
def fillPhi (flow : Flow) (env : Environment) (phi : Phi) : Phi :=
  let reaching := reachingVersion flow.immediate (env.versionsOf phi.declaration)
    (flow.immediate.size + 1)
  { phi with
    operands := Table.ofList <| (flow.predecessorsOf phi.block).filterMap fun p =>
      (reaching p).map (p, ·) }

/-- Gives a function its phis.  Operands are looked up once every phi is recorded, so a phi can be
what reaches another. -/
def buildSsa (f : Function) (env : Environment) : Function × Environment :=
  let (phis, env) := placePhis f.flow.frontier (f.meetings env) env
  ({ f with phis := phis.map (fillPhi f.flow env) }, env)

end Function

end Whittle.Ir
