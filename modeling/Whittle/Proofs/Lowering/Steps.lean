import Mathlib.Logic.Relation
import Mathlib.Tactic.Common
import Whittle.Lowering.Build
import Whittle.Proofs.Flow.Reducible
import Whittle.Proofs.Table

/-!
# Steps of lowering

Lowering a module is a sequence of small steps: an instruction is added, a version is handed out, a
block ends, a function begins.  The steps are stated on configurations, which hold beside the state of
lowering what the walk over the tree keeps in its variables: the blocks that are set aside, the tests
of the loops around, the versions that are about to be written, and the functions that wait until a
nested one is done.

What holds of all lowered code is proved from the steps alone; the walk over the tree is looked at once,
to see that it takes no others.
-/

namespace Whittle.Lowering

open Ir

/-! ## What steps do to the state -/

/-- Adds an instruction to the header or to the current block. -/
def Frame.put (frame : Frame) (i : Instr) : Frame :=
  if frame.inHeader then
    { frame with function := { frame.function with header := frame.function.header ++ [i] } }
  else { frame with filled := i :: frame.filled }

/-- The state after an instruction that defines the given place. -/
def State.put (s : State) (place : Place) (op : Op) (origin : Option Nat) : State :=
  { s with
    env := (s.env.newInstrAt place origin op).2
    frame := s.frame.put (s.env.newInstrAt place origin op).1 }

/-- The place of the next temporary. -/
def State.temporary (s : State) : Place := (s.env.newTemporary s.frame.function.id).1

/-- The state after an instruction that defines a new temporary. -/
def State.emit (s : State) (op : Op) (origin : Option Nat) : State :=
  State.put { s with env := (s.env.newTemporary s.frame.function.id).2 } s.temporary op origin

/-- The next version of a declaration. -/
def State.version (s : State) (d : DeclId) : Place := (s.env.newPlace d).1

/-- The state after a version was handed out and recorded in the current block. -/
def State.withVersion (s : State) (d : DeclId) : State :=
  let env := (s.env.newPlace d).2.record d s.frame.block (s.version d)
  if env.ownerOf d == some s.frame.function.id then
    { s with
      env := env
      frame := { s.frame with versions := s.frame.versions.insert d (s.version d) } }
  else { s with env := env.capture d }

/-- The state after a declaring occurrence: the declaration may be used from now on. -/
def State.assigned (s : State) (d : DeclId) : State :=
  { s with frame := { s.frame with
    uninitialized := s.frame.uninitialized.erase d, unclaimed := s.frame.unclaimed.erase d } }

/-- The state after a declaration was added. -/
def State.declare (s : State) (name : String) (kind : DeclKind) : State :=
  { s with env := (s.env.declare (some name) kind s.frame.function.id).2 }

/-- The next declaration. -/
def State.nextDeclaration (s : State) : DeclId := ⟨s.env.declarations.size⟩

/-- The state after a declaration was added, bound in the given scopes and given its first version. -/
def State.introduce (s : State) (name : String) (kind : DeclKind) (scopes : Scopes) : State :=
  State.withVersion { s.declare name kind with scopes } s.nextDeclaration

/-- The first version of the next declaration. -/
def State.firstVersion (s : State) (name : String) (kind : DeclKind) : Place :=
  (s.declare name kind).version s.nextDeclaration

/-- The state at the start of a function. -/
def State.enter (s : State) (name : Option String) (kind : FunctionKind) (origin : Option Nat)
    (outer : List (FuncId × Versions)) : State :=
  { s with
    env := s.env.newFunc.2.newBlock.2
    outer := outer
    frame := Frame.start (Function.start s.env.nextFunc name (some s.frame.function.id) kind origin
      s.env.nextBlock) }

/-- The state after a function, back in the one around it. -/
def State.leave (s : State) (around : Frame) (outer : List (FuncId × Versions)) : State :=
  { s with
    frame := around
    outer := outer
    functions := s.functions.insert s.frame.function.id (s.frame.close (.ret none)).recomputeFlow }

/-- Some open scope binds a name to the declaration. -/
def Scopes.Binds (scopes : Scopes) (d : DeclId) : Prop :=
  ∃ scope ∈ scopes, ∃ name, scope.bindings.get? name = some d

/-- A change of nothing but what guides the lowering: scopes, current versions, captures. -/
structure Quiet (s s' : State) : Prop where
  env : ∃ captured functions, s'.env = { s.env with captured, functions } ∧
    ∀ d, s.env.captured.contains d = true → captured.contains d = true
  /-- Only declarations are bound. -/
  scopes : ∀ d, Scopes.Binds s'.scopes d → Scopes.Binds s.scopes d ∨ s.env.declares d = true
  function : ∃ isConcise, s'.frame.function = { s.frame.function with isConcise }
  block : s'.frame.block = s.frame.block
  filled : s'.frame.filled = s.frame.filled
  inHeader : s'.frame.inHeader = s.frame.inHeader
  exits : s'.frame.loops.map (·.exit) = s.frame.loops.map (·.exit)
  /-- First versions are not offered again. -/
  unclaimed : ∀ d, s'.frame.unclaimed.contains d = true → s.frame.unclaimed.contains d = true
  functions : s'.functions = s.functions

/-! ## Steps -/

/-- What the walk over the tree has in mind for the function being filled. -/
structure Plan where
  /-- Blocks set aside for later. -/
  reserved : List BlockId := []
  /-- The tests of the loops around, the innermost first. -/
  heads : List BlockId := []
  /-- The only versions of functions that are yet to be built. -/
  hoisted : List (DeclId × Place) := []
  /-- The version that is written next. -/
  due : Option (DeclId × Place) := none

/-- A state of lowering with everything around it. -/
structure Config where
  /-- The state. -/
  state : State
  /-- What the walk has in mind. -/
  plan : Plan
  /-- The functions around the current one, the innermost first, as they will go on. -/
  saved : List (Frame × Plan)
  /-- The function that each block belongs to. -/
  home : Table BlockId FuncId

/-- One step of lowering. -/
inductive Step : Config → Config → Prop
  | quiet {s s' plan saved home} : Quiet s s' → Step ⟨s, plan, saved, home⟩ ⟨s', plan, saved, home⟩
  | newBlock {s plan saved home} :
      Step ⟨s, plan, saved, home⟩
        ⟨{ s with env := s.env.newBlock.2 },
          { plan with reserved := s.env.nextBlock :: plan.reserved }, saved,
          home.insert s.env.nextBlock s.frame.function.id⟩
  | declare {s plan saved home} (name : String) (kind : DeclKind) :
      Step ⟨s, plan, saved, home⟩ ⟨s.declare name kind, plan, saved, home⟩
  /-- A version is handed out to be written. -/
  | version {s reserved heads hoisted saved home} (d : DeclId) : s.env.declares d = true →
      (∀ e ∈ hoisted, e.1 ≠ d) →
      Step ⟨s, ⟨reserved, heads, hoisted, none⟩, saved, home⟩
        ⟨s.withVersion d, ⟨reserved, heads, hoisted, some (d, s.version d)⟩, saved, home⟩
  /-- The first version is taken that nobody has written yet. -/
  | claim {s reserved heads saved home} {d : DeclId} {place : Place} :
      s.env.versionsOf d = [⟨s.frame.block, place⟩] → s.frame.unclaimed.contains d = true →
      Step ⟨s, ⟨reserved, heads, [], none⟩, saved, home⟩
        ⟨s.assigned d, ⟨reserved, heads, [], some (d, place)⟩, saved, home⟩
  /-- The first version is left to a later statement. -/
  | offer {s reserved heads hoisted saved home} {d : DeclId} {place : Place} :
      s.env.versionsOf d = [⟨s.frame.block, place⟩] →
      Step ⟨s, ⟨reserved, heads, hoisted, some (d, place)⟩, saved, home⟩
        ⟨{ s with frame := { s.frame with unclaimed := KeySet.add s.frame.unclaimed d } },
          ⟨reserved, heads, hoisted, none⟩, saved, home⟩
  /-- The first version is never written. -/
  | drop {s reserved heads hoisted saved home} {d : DeclId} {place : Place} :
      s.env.versionsOf d = [⟨s.frame.block, place⟩] →
      Step ⟨s, ⟨reserved, heads, hoisted, some (d, place)⟩, saved, home⟩
        ⟨s, ⟨reserved, heads, hoisted, none⟩, saved, home⟩
  /-- The first version is kept for a function. -/
  | hoist {s reserved heads hoisted saved home} {d : DeclId} {place : Place} :
      s.env.versionsOf d = [⟨s.frame.block, place⟩] →
      Step ⟨s, ⟨reserved, heads, hoisted, some (d, place)⟩, saved, home⟩
        ⟨s, ⟨reserved, heads, hoisted ++ [(d, place)], none⟩, saved, home⟩
  /-- A function is built whose version was kept. -/
  | unhoist {s reserved heads hoisted saved home} {e : DeclId × Place} :
      Step ⟨s, ⟨reserved, heads, e :: hoisted, none⟩, saved, home⟩
        ⟨s, ⟨reserved, heads, hoisted, some e⟩, saved, home⟩
  /-- No function comes for a version that was kept. -/
  | unkeep {s reserved heads hoisted saved home} :
      Step ⟨s, ⟨reserved, heads, hoisted, none⟩, saved, home⟩
        ⟨s, ⟨reserved, heads, [], none⟩, saved, home⟩
  /-- An instruction writes the version that is due as its own place. -/
  | bind {s reserved heads hoisted saved home} {d : DeclId} {place : Place} (op : Op)
      (origin : Option Nat) : op.target? = none →
      Step ⟨s, ⟨reserved, heads, hoisted, some (d, place)⟩, saved, home⟩
        ⟨s.put place op origin, ⟨reserved, heads, hoisted, none⟩, saved, home⟩
  /-- An instruction stores into the version that is due. -/
  | store {s reserved heads hoisted saved home} {d : DeclId} {place : Place} (op : Op)
      (origin : Option Nat) : op.target? = some place →
      Step ⟨s, ⟨reserved, heads, hoisted, some (d, place)⟩, saved, home⟩
        ⟨s.emit op origin, ⟨reserved, heads, hoisted, none⟩, saved, home⟩
  | emit {s plan saved home} (op : Op) (origin : Option Nat) : op.target? = none →
      Step ⟨s, plan, saved, home⟩ ⟨s.emit op origin, plan, saved, home⟩
  /-- A block ends and one begins that was set aside since the test of the innermost loop. -/
  | endBlock {s reserved reserved' heads saved home} {terminal : Terminal} {next : BlockId} :
      s.frame.inHeader = false → reserved.Perm (next :: reserved') →
      next ∉ s.frame.loops.map (·.exit) → (∀ t ∈ terminal.mentions, t ∈ reserved) →
      (∀ h ∈ heads, h.index < next.index) →
      Step ⟨s, ⟨reserved, heads, [], none⟩, saved, home⟩
        ⟨{ s with frame := s.frame.endBlock terminal next }, ⟨reserved', heads, [], none⟩, saved, home⟩
  /-- The test of a loop ends and its body begins, to which no edge leads yet. -/
  | openLoop {s reserved reserved' heads saved home} {test : Place} {body exit : BlockId} :
      s.frame.inHeader = false → s.frame.function.entry.index < s.frame.block.index →
      reserved.Perm (body :: reserved') → body ∉ s.frame.loops.map (·.exit) →
      exit ∈ reserved' → exit ∉ s.frame.loops.map (·.exit) → s.frame.block.index < body.index →
      (∀ b block, s.frame.function.blocks.get? b = some block →
        ∀ t ∈ block.successors, t.index ≤ s.frame.block.index) →
      Step ⟨s, ⟨reserved, heads, [], none⟩, saved, home⟩
        ⟨{ s with frame := { s.frame.endBlock (.branch test body exit exit) body with
            loops := ⟨exit, []⟩ :: s.frame.loops } },
          ⟨reserved', s.frame.block :: heads, [], none⟩, saved, home⟩
  /-- The body of a loop leads back to its test, and the loop is over. -/
  | closeLoop {s reserved reserved' head heads saved home} {inner : LoopFrame}
      {loops : List LoopFrame} : s.frame.inHeader = false → s.frame.loops = inner :: loops →
      reserved.Perm (inner.exit :: reserved') → (∀ h ∈ heads, h.index < inner.exit.index) →
      Step ⟨s, ⟨reserved, head :: heads, [], none⟩, saved, home⟩
        ⟨{ s with frame := { s.frame.endBlock (.jump head) inner.exit with loops } },
          ⟨reserved', heads, [], none⟩, saved, home⟩
  /-- The parameters of a function begin. -/
  | openHeader {s plan saved home} : s.frame.block = s.frame.function.entry → s.frame.filled = [] →
      Step ⟨s, plan, saved, home⟩
        ⟨{ s with frame := { s.frame with inHeader := true } }, plan, saved, home⟩
  | closeHeader {s plan saved home} (params : List Place) :
      Step ⟨s, plan, saved, home⟩
        ⟨{ s with frame := { s.frame with
            inHeader := false, function := { s.frame.function with params } } }, plan, saved, home⟩
  /-- A function begins; the one around it waits. -/
  | enter {s reserved heads hoisted saved home} (name : Option String) (kind : FunctionKind)
      (origin : Option Nat) (outer : List (FuncId × Versions)) :
      Step ⟨s, ⟨reserved, heads, hoisted, none⟩, saved, home⟩
        ⟨s.enter name kind origin outer, {}, (s.frame, ⟨reserved, heads, hoisted, none⟩) :: saved,
          home.insert s.env.nextBlock s.env.nextFunc⟩
  | leave {s around plan saved home} (outer : List (FuncId × Versions)) :
      Step ⟨s, {}, (around, plan) :: saved, home⟩ ⟨s.leave around outer, plan, saved, home⟩

/-- Any number of steps. -/
abbrev Steps := Relation.ReflTransGen Step

end Whittle.Lowering
