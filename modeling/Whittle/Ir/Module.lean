import Whittle.Ir.Flow
import Whittle.Ir.Instr

/-!
# Functions and modules of intermediate code

A function is a graph of blocks; a block is a list of instructions and a terminal that says where
execution goes on.  A module is a table of functions, one of which holds its top-level statements.
-/

namespace Whittle.Ir

/-- How a block ends. -/
inductive Terminal where
  | jump (target : BlockId)
  /-- The fallthrough is where both arms meet again. -/
  | branch (test : Place) (consequent alternate fallthrough : BlockId)
  | ret (value : Option Place)
deriving DecidableEq

namespace Terminal

/-- The places that a terminal reads. -/
def reads : Terminal → List Place
  | .jump _ => []
  | .branch test _ _ _ => [test]
  | .ret value => value.toList

/-- Replaces the places that a terminal reads. -/
def mapReads (f : Place → Place) : Terminal → Terminal
  | .jump target => .jump target
  | .branch test consequent alternate fallthrough =>
    .branch (f test) consequent alternate fallthrough
  | .ret value => .ret (value.map f)

/-- Where execution may go on.  The fallthrough of a branch is no edge. -/
def successors : Terminal → List BlockId
  | .jump target => [target]
  | .branch _ consequent alternate _ => [consequent, alternate]
  | .ret _ => []

end Terminal

/-- A basic block. -/
structure Block where
  /-- What is executed, in order. -/
  instructions : List Instr
  /-- How it ends; nothing while the block is being filled. -/
  terminal : Option Terminal

namespace Block

/-- Where execution may go on. -/
def successors (b : Block) : List BlockId :=
  match b.terminal with
  | some t => t.successors
  | none => []

/-- Replaces the places that a block reads. -/
def mapReads (f : Place → Place) (b : Block) : Block :=
  ⟨b.instructions.map (·.mapReads f), b.terminal.map (·.mapReads f)⟩

end Block

/-- The blocks that may follow each block. -/
def edgesOf (blocks : Table BlockId Block) : Edges := blocks.map fun _ b => b.successors

/-- What a function was written as. -/
inductive FunctionKind where
  /-- The top-level statements of a module. -/
  | module
  | declaration
  | expression
  | arrow
  | method
deriving DecidableEq, Repr, Inhabited

/-- What dumps call a function without a name. -/
def FunctionKind.text : FunctionKind → String
  | .module => "module"
  | .declaration => "declaration"
  | .expression => "expression"
  | .arrow => "arrow"
  | .method => "method"

/-- A join of the versions of one declaration at the start of a block. -/
structure Phi where
  /-- Its number. -/
  id : PhiId
  /-- The block it stands in. -/
  block : BlockId
  /-- The place that it defines. -/
  place : Place
  /-- What it takes from each predecessor. -/
  operands : Table BlockId Place

/-- The declaration whose versions a phi joins. -/
def Phi.declaration (p : Phi) : DeclId := p.place.declaration

/-- A function. -/
structure Function where
  /-- Its number. -/
  id : FuncId
  /-- Its name. -/
  name : Option String
  /-- The function that it stands in. -/
  parent : Option FuncId
  /-- What it was written as. -/
  kind : FunctionKind
  /-- The number of the tree node that it comes from. -/
  origin : Option Nat
  /-- Where execution starts. -/
  entry : BlockId
  /-- The blocks. -/
  blocks : Table BlockId Block
  /-- Instructions that bind the parameters before the entry. -/
  header : List Instr
  /-- One pattern for each parameter. -/
  params : List Place
  /-- Whether the body is a single expression. -/
  isConcise : Bool
  /-- The joins, from their construction to their removal. -/
  phis : List Phi
  /-- Facts about the control flow of the blocks. -/
  flow : Flow

namespace Function

/-- A function without blocks. -/
def start (id : FuncId) (name : Option String) (parent : Option FuncId) (kind : FunctionKind)
    (origin : Option Nat) (entry : BlockId) : Function :=
  { id, name, parent, kind, origin, entry, blocks := ∅, header := [], params := [],
    isConcise := false, phis := [], flow := Flow.empty }

/-- Brings the control flow facts up to date with the blocks. -/
def recomputeFlow (f : Function) : Function :=
  { f with flow := Flow.compute f.entry (edgesOf f.blocks) }

/-- All instructions: the header, then block by block. -/
def instructions (f : Function) : List Instr :=
  f.header ++ f.blocks.values.flatMap (·.instructions)

/-- The terminals of all blocks. -/
def terminals (f : Function) : List Terminal := f.blocks.values.filterMap (·.terminal)

/-- All places that the function reads: instructions, then terminals. -/
def reads (f : Function) : List Place :=
  f.instructions.flatMap (·.reads) ++ f.terminals.flatMap (·.reads)

/-- Applies `g` to the instructions of every block, the header left out. -/
def mapBlocks (g : BlockId → Block → Block) (f : Function) : Function :=
  { f with blocks := f.blocks.map g }

/-- Replaces the block of the given number. -/
def setBlock (f : Function) (id : BlockId) (block : Block) : Function :=
  { f with blocks := f.blocks.insert id block }

end Function

/-- A name that an import binds. -/
structure ImportBinding where
  /-- The specifier of the other module. -/
  source : String
  /-- The name over there; nothing when the whole module is taken. -/
  imported : Option String
  /-- The path of the other module, once known. -/
  resolved : Option String
deriving DecidableEq

/-- A module. -/
structure Module where
  /-- The path of its file. -/
  path : String
  /-- The function that holds the top-level statements. -/
  entry : FuncId
  /-- All functions. -/
  functions : Table FuncId Function
  /-- What its imports bind, by the name bound here. -/
  globals : Table String ImportBinding
  /-- Its export instructions, by the name for importers. -/
  exports : Table String InstrId

namespace Module

/-- All places that the functions read. -/
def reads (m : Module) : List Place := m.functions.values.flatMap (·.reads)

/-- All instructions of the functions. -/
def instructions (m : Module) : List Instr := m.functions.values.flatMap (·.instructions)

/-- The cells that are read somewhere, by number. -/
def usedCells (m : Module) : Table CellId Cell :=
  Table.ofList (m.reads.map fun p => (p.cell.id, p.cell))

/-- Applies `g` to every function. -/
def mapFunctions (g : Function → Function) (m : Module) : Module :=
  { m with functions := m.functions.map fun _ f => g f }

/-- Replaces the function of the given number. -/
def setFunction (m : Module) (id : FuncId) (f : Function) : Module :=
  { m with functions := m.functions.insert id f }

end Module

end Whittle.Ir
