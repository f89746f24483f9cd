import Whittle.Ir.Instr

/-!
# The environment of a module

Counters that hand out ids, never the same one twice, and what is known about the declarations of a
module: their kinds and owners, the versions recorded for them, and which of them code outside their
function can see.
-/

namespace Whittle.Ir

/-- What introduced a declaration. -/
inductive DeclKind where
  | varKind
  | letKind
  | constKind
  | functionKind
  | classKind
  | parameter
  /-- A value without a name. -/
  | temporary
deriving DecidableEq, Repr, Inhabited

/-- Whether a declaration may be written again after its first value. -/
def DeclKind.isMutable : DeclKind → Bool
  | .constKind | .temporary => false
  | _ => true

/-- A variable of the program, or a value without a name. -/
structure Declaration where
  /-- The name in the source. -/
  name : Option String
  /-- What introduced it. -/
  kind : DeclKind
  /-- The function in whose scope it lives. -/
  owner : FuncId
  /-- The number of its next version. -/
  nextVersion : Nat
deriving DecidableEq, Repr, Inhabited

/-- A version and the block that created it. -/
structure VersionRecord where
  /-- The block. -/
  block : BlockId
  /-- The version. -/
  place : Place
deriving DecidableEq, Repr

/-- Counters and declarations of one module. -/
structure Environment where
  /-- The next block. -/
  nextBlock : BlockId := ⟨0⟩
  /-- The next place. -/
  nextPlace : PlaceId := ⟨0⟩
  /-- The next cell. -/
  nextCell : CellId := ⟨0⟩
  /-- The next instruction. -/
  nextInstr : InstrId := ⟨0⟩
  /-- The next join. -/
  nextPhi : PhiId := ⟨0⟩
  /-- The next function. -/
  nextFunc : FuncId := ⟨0⟩
  /-- All declarations by number. -/
  declarations : Array Declaration := #[]
  /-- The versions recorded for each declaration, oldest first. -/
  versions : Table DeclId (List VersionRecord) := ∅
  /-- How many places some instruction defines. -/
  definedPlaces : Nat := 0
  /-- Declarations that a nested function, kept source or an importer can see. -/
  captured : KeySet DeclId := ∅
  /-- Functions by the declaration that a function statement binds. -/
  functions : Table DeclId FuncId := ∅
deriving Inhabited

namespace Environment

/-- A new block. -/
def newBlock (env : Environment) : BlockId × Environment :=
  (env.nextBlock, { env with nextBlock := env.nextBlock.next })

/-- A new instruction number. -/
def newInstrId (env : Environment) : InstrId × Environment :=
  (env.nextInstr, { env with nextInstr := env.nextInstr.next })

/-- A new function number. -/
def newFunc (env : Environment) : FuncId × Environment :=
  (env.nextFunc, { env with nextFunc := env.nextFunc.next })

/-- What is known about a declaration. -/
def declaration? (env : Environment) (d : DeclId) : Option Declaration := env.declarations[d.index]?

/-- Whether the declaration exists. -/
def declares (env : Environment) (d : DeclId) : Bool := (env.declaration? d).isSome

/-- The name of a declaration. -/
def nameOf (env : Environment) (d : DeclId) : Option String :=
  (env.declaration? d).bind (·.name)

/-- The kind of a declaration; what does not exist counts as a temporary. -/
def kindOf (env : Environment) (d : DeclId) : DeclKind :=
  ((env.declaration? d).map (·.kind)).getD .temporary

/-- The function that owns a declaration. -/
def ownerOf (env : Environment) (d : DeclId) : Option FuncId :=
  (env.declaration? d).map (·.owner)

/-- Adds a declaration. -/
def declare (env : Environment) (name : Option String) (kind : DeclKind) (owner : FuncId) :
    DeclId × Environment :=
  (⟨env.declarations.size⟩,
    { env with declarations := env.declarations.push ⟨name, kind, owner, 0⟩ })

/-- A new occurrence of a cell. -/
def newPlaceFor (env : Environment) (cell : Cell) : Place × Environment :=
  (⟨env.nextPlace, cell⟩, { env with nextPlace := env.nextPlace.next })

/-- A new cell of a declaration with the given version, and its first place. -/
def newCell (env : Environment) (d : DeclId) (version : Version) : Place × Environment :=
  newPlaceFor { env with nextCell := env.nextCell.next } ⟨env.nextCell, version, d⟩

/-- The next numbered version of a declaration. -/
def newPlace (env : Environment) (d : DeclId) : Place × Environment :=
  let version := ((env.declaration? d).map (·.nextVersion)).getD 0
  newCell
    { env with
      declarations :=
        env.declarations.modify d.index fun e => { e with nextVersion := version + 1 } }
    d (.numbered version)

/-- A new value without a name. -/
def newTemporary (env : Environment) (owner : FuncId) : Place × Environment :=
  let (d, env) := env.declare none .temporary owner
  env.newPlace d

/-- A new instruction that defines the given place. -/
def newInstrAt (env : Environment) (place : Place) (origin : Option Nat) (op : Op) :
    Instr × Environment :=
  let (id, env) := env.newInstrId
  (⟨id, place, origin, op⟩, { env with definedPlaces := env.definedPlaces + 1 })

/-- A new instruction that defines a new temporary. -/
def newInstr (env : Environment) (owner : FuncId) (op : Op) : Instr × Environment :=
  let (place, env) := env.newTemporary owner
  env.newInstrAt place none op

/-- A new join of a declaration. -/
def newPhi (env : Environment) (d : DeclId) : PhiId × Place × Environment :=
  let id := env.nextPhi
  let (place, env) := newCell { env with nextPhi := id.next } d (.phi id)
  (id, place, env)

/-- The versions recorded for a declaration, oldest first. -/
def versionsOf (env : Environment) (d : DeclId) : List VersionRecord := env.versions.getD d []

/-- Records a version of a declaration. -/
def record (env : Environment) (d : DeclId) (block : BlockId) (place : Place) : Environment :=
  { env with versions := env.versions.insert d (env.versionsOf d ++ [⟨block, place⟩]) }

/-- The version recorded last. -/
def latest? (env : Environment) (d : DeclId) : Option Place :=
  (env.versionsOf d).getLast?.map (·.place)

/-- Marks a declaration as visible outside its function. -/
def capture (env : Environment) (d : DeclId) : Environment :=
  { env with captured := KeySet.add env.captured d }

/-- Whether code outside its function may write a declaration, so that its value cannot be
followed. -/
def isCapturedMutable (env : Environment) (d : DeclId) : Bool :=
  env.captured.contains d && (env.kindOf d).isMutable

/-- Whether a declaration has no name. -/
def isTemporary (env : Environment) (d : DeclId) : Bool := env.kindOf d == .temporary

/-- Notes which function a declaration is bound to. -/
def bindFunction (env : Environment) (d : DeclId) (f : FuncId) : Environment :=
  { env with functions := env.functions.insert d f }

/-- Moves the records of a block to another one. -/
def rehome (env : Environment) (source target : BlockId) : Environment :=
  { env with
    versions := env.versions.map fun _ records =>
      records.map fun r => if r.block == source then { r with block := target } else r }

end Environment

end Whittle.Ir
