import Whittle.Ir.Id
import Whittle.Number.Decimal
import Whittle.Syntax.Tree
import Whittle.Table
import Whittle.Text.Quoted

/-!
# Instructions

An instruction does one thing, defines one place and reads others.  `Op.reads` lists the places that
an instruction reads and `Op.mapReads` replaces them; both visit the operands in the same order.
-/

namespace Whittle.Ir

open Syntax (BinaryOp UnaryOp LogicalOp)

/-- Tells the cells of one declaration apart. -/
inductive Version where
  /-- Created by a write. -/
  | numbered (n : Nat)
  /-- Created by a join. -/
  | phi (id : PhiId)
deriving DecidableEq, Repr, Inhabited

/-- The version as dumps write it. -/
def Version.text : Version → String
  | .numbered n => toString n
  | .phi id => id.text

/-- One version of a declaration: something that can hold a value. -/
structure Cell where
  /-- The number of the cell. -/
  id : CellId
  /-- Which version it is. -/
  version : Version
  /-- Of which declaration. -/
  declaration : DeclId
deriving DecidableEq, Repr, Inhabited

/-- The cell as dumps write it. -/
def Cell.text (c : Cell) : String := c.id.text ++ c.declaration.text ++ "." ++ c.version.text

/-- One occurrence of a cell. -/
structure Place where
  /-- The number of the occurrence. -/
  id : PlaceId
  /-- The cell. -/
  cell : Cell
deriving DecidableEq, Repr, Inhabited

/-- The declaration that a place belongs to. -/
def Place.declaration (p : Place) : DeclId := p.cell.declaration

/-- How a write introduces its variable. -/
inductive StoreKind where
  | letKind
  | constKind
  | varKind
  /-- The variable exists already. -/
  | reassign
deriving DecidableEq, Repr, Inhabited

namespace StoreKind

/-- Whether the write declares the variable. -/
def isDeclaration (k : StoreKind) : Bool := k != .reassign

/-- The write of a declaration with the given word. -/
def ofVarKind : Syntax.VarKind → StoreKind
  | .varKind => .varKind
  | .letKind => .letKind
  | .constKind => .constKind

/-- The declaring word. -/
def varKind? : StoreKind → Option Syntax.VarKind
  | .letKind => some .letKind
  | .constKind => some .constKind
  | .varKind => some .varKind
  | .reassign => none

/-- The kind as dumps write it. -/
def text : StoreKind → String
  | .letKind => "let"
  | .constKind => "const"
  | .varKind => "var"
  | .reassign => "reassign"

end StoreKind

/-- Values known to the compiler. -/
inductive Value where
  | number (value : Number)
  | string (value : String)
  | boolean (value : Bool)
  | null
  | undefined
deriving DecidableEq, Inhabited

namespace Value

/-- The value of a literal. -/
def ofLiteral : Syntax.Literal → Value
  | .number value => .number value
  | .string value => .string value
  | .boolean value => .boolean value
  | .null => .null

/-- Whether two values are taken for the same; numbers are compared as the language compares them. -/
def same : Value → Value → Bool
  | .number a, .number b => a.same b
  | a, b => a == b

/-- The value as dumps write it. -/
def text : Value → String
  | .number value => value.text
  | .string value => Text.shown value
  | .boolean value => if value then "true" else "false"
  | .null => "null"
  | .undefined => "undefined"

end Value

/-- Keys of the properties of objects. -/
inductive Key where
  | name (text : String)
  | string (text : String)
  | number (value : Number)
  | computed (place : Place)
deriving DecidableEq

/-- Properties of objects. -/
inductive Property where
  | keyValue (key : Key) (value : Place) (shorthand : Bool)
  | method (key : Key) (function : FuncId)
  | spread (value : Place)
deriving DecidableEq

/-- Properties of object patterns. -/
inductive PatternProperty where
  | keyValue (key : Key) (value : Place)
  | rest (place : Place)
deriving DecidableEq

/-- Source kept as it stands because no instruction expresses it. -/
inductive Verbatim where
  | statement (value : Syntax.Stmt)
  | expression (value : Syntax.Expr)

/-- What dumps call the source. -/
def Verbatim.kindName : Verbatim → String
  | .statement value => value.kindName
  | .expression value => value.kindName

/-- What an instruction does. -/
inductive Op where
  /-- Reads a variable. -/
  | loadLocal (place : Place)
  /-- Writes a new version of a variable. -/
  | storeLocal (target value : Place) (kind : StoreKind)
  | loadGlobal (name : String)
  | storeGlobal (name : String) (value : Place)
  | propertyLoad (object : Place) (property : String)
  | propertyStore (object : Place) (property : String) (value : Place)
  | computedLoad (object property : Place)
  | computedStore (object property value : Place)
  /-- Writes the cell of a join at the end of a predecessor. -/
  | copy (target value : Place)
  | literal (value : Value)
  | binary (op : BinaryOp) (left right : Place)
  | unary (op : UnaryOp) (argument : Place)
  /-- Evaluating the right operand early cannot be told. -/
  | logical (op : LogicalOp) (left right : Place)
  /-- Evaluating both arms early cannot be told. -/
  | conditional (test consequent alternate : Place)
  | call (callee : Place) (arguments : List Place)
  | construct (callee : Place) (arguments : List Place)
  | array (elements : List Place)
  | object (properties : List Property)
  | functionExpression (function : FuncId)
  /-- A name inside a pattern; the defined place is what the pattern binds. -/
  | binding (name : String)
  | arrayPattern (elements : List (Option Place))
  | objectPattern (properties : List PatternProperty)
  | defaultPattern (target value : Place)
  | spread (argument : Place)
  | rest (argument : Place)
  /-- Binds all names of a pattern from a value. -/
  | destructure (pattern value : Place) (kind : StoreKind)
  | functionDeclaration (function : FuncId)
  | importDeclaration (source : String) (specifiers : List Place)
  | importSpecifier (kind : Syntax.ImportKind) (bound : String)
  | exportSpecifier (bound : Place) (exported : String)
  | exportNames (specifiers : List Place)
  | exportDefault (value : Place)
  /-- A value that is evaluated for its effects only. -/
  | expressionStatement (expression : Place)
  /-- Kept source, with the variables it mentions. -/
  | unsupported (source : Verbatim) (bindings : List (String × Place))

/-- Kinds of operations. -/
inductive Category where
  | memory
  | value
  | pattern
  | declaration
  | module
  | statement
  | unsupported
deriving DecidableEq, Repr

namespace Key

/-- The places that a key reads. -/
def reads : Key → List Place
  | .computed place => [place]
  | _ => []

/-- Replaces the places that a key reads. -/
def mapReads (f : Place → Place) : Key → Key
  | .computed place => .computed (f place)
  | key => key

theorem reads_mapReads (f : Place → Place) (key : Key) :
    (key.mapReads f).reads = key.reads.map f := by
  cases key <;> rfl

end Key

namespace Property

/-- The places that a property reads. -/
def reads : Property → List Place
  | .keyValue key value _ => key.reads ++ [value]
  | .method key _ => key.reads
  | .spread value => [value]

/-- Replaces the places that a property reads. -/
def mapReads (f : Place → Place) : Property → Property
  | .keyValue key value shorthand => .keyValue (key.mapReads f) (f value) shorthand
  | .method key function => .method (key.mapReads f) function
  | .spread value => .spread (f value)

theorem reads_mapReads (f : Place → Place) (p : Property) :
    (p.mapReads f).reads = p.reads.map f := by
  cases p <;> simp [mapReads, reads, Key.reads_mapReads]

end Property

namespace PatternProperty

/-- The places that a property reads. -/
def reads : PatternProperty → List Place
  | .keyValue key value => key.reads ++ [value]
  | .rest place => [place]

/-- Replaces the places that a property reads. -/
def mapReads (f : Place → Place) : PatternProperty → PatternProperty
  | .keyValue key value => .keyValue (key.mapReads f) (f value)
  | .rest place => .rest (f place)

theorem reads_mapReads (f : Place → Place) (p : PatternProperty) :
    (p.mapReads f).reads = p.reads.map f := by
  cases p <;> simp [mapReads, reads, Key.reads_mapReads]

end PatternProperty

namespace Op

/-- The kind of an operation. -/
def category : Op → Category
  | .loadLocal .. | .storeLocal .. | .loadGlobal .. | .storeGlobal .. | .propertyLoad ..
  | .propertyStore .. | .computedLoad .. | .computedStore .. | .copy .. => .memory
  | .literal .. | .binary .. | .unary .. | .logical .. | .conditional .. | .call ..
  | .construct .. | .array .. | .object .. | .functionExpression .. => .value
  | .binding .. | .arrayPattern .. | .objectPattern .. | .defaultPattern .. | .spread ..
  | .rest .. | .destructure .. => .pattern
  | .functionDeclaration .. => .declaration
  | .importDeclaration .. | .importSpecifier .. | .exportSpecifier .. | .exportNames ..
  | .exportDefault .. => .module
  | .expressionStatement .. => .statement
  | .unsupported .. => .unsupported

/-- Whether an operation may be dropped when nobody reads its result. -/
def isPure : Op → Bool
  | .loadLocal .. | .storeLocal .. | .copy .. | .literal .. | .logical .. | .conditional ..
  | .array .. | .object .. | .functionExpression .. | .binding .. | .arrayPattern ..
  | .objectPattern .. | .defaultPattern .. | .spread .. | .rest .. => true
  | .binary op _ _ => op.isPure
  | .unary op _ => op != .delete
  | _ => false

/-- Whether an operation may write, or see writes to, memory other than its own place. -/
def hasMemoryEffects : Op → Bool
  | .storeGlobal .. | .propertyStore .. | .computedStore .. | .call .. | .construct ..
  | .destructure .. | .unsupported .. => true
  | _ => false

/-- The places that an operation reads, in the order of its operands. -/
def reads : Op → List Place
  | .loadLocal place => [place]
  | .storeLocal _ value _ => [value]
  | .copy _ value => [value]
  | .storeGlobal _ value => [value]
  | .propertyLoad base _ => [base]
  | .propertyStore base _ value => [base, value]
  | .computedLoad base property => [base, property]
  | .computedStore base property value => [base, property, value]
  | .binary _ left right => [left, right]
  | .logical _ left right => [left, right]
  | .unary _ argument => [argument]
  | .spread argument => [argument]
  | .rest argument => [argument]
  | .conditional test consequent alternate => [test, consequent, alternate]
  | .call callee arguments => callee :: arguments
  | .construct callee arguments => callee :: arguments
  | .array elements => elements
  | .object properties => properties.flatMap Property.reads
  | .arrayPattern elements => elements.flatMap Option.toList
  | .objectPattern properties => properties.flatMap PatternProperty.reads
  | .defaultPattern target value => [target, value]
  | .destructure pattern value _ => [pattern, value]
  | .importDeclaration _ specifiers => specifiers
  | .exportNames specifiers => specifiers
  | .exportSpecifier bound _ => [bound]
  | .exportDefault value => [value]
  | .expressionStatement expression => [expression]
  | .unsupported _ bindings => bindings.map (·.2)
  | .loadGlobal _ | .literal _ | .functionExpression _ | .binding _ | .functionDeclaration _
  | .importSpecifier _ _ => []

/-- Replaces the places that an operation reads. -/
def mapReads (f : Place → Place) : Op → Op
  | .loadLocal place => .loadLocal (f place)
  | .storeLocal target value kind => .storeLocal target (f value) kind
  | .copy target value => .copy target (f value)
  | .storeGlobal name value => .storeGlobal name (f value)
  | .propertyLoad base property => .propertyLoad (f base) property
  | .propertyStore base property value => .propertyStore (f base) property (f value)
  | .computedLoad base property => .computedLoad (f base) (f property)
  | .computedStore base property value => .computedStore (f base) (f property) (f value)
  | .binary op left right => .binary op (f left) (f right)
  | .logical op left right => .logical op (f left) (f right)
  | .unary op argument => .unary op (f argument)
  | .spread argument => .spread (f argument)
  | .rest argument => .rest (f argument)
  | .conditional test consequent alternate => .conditional (f test) (f consequent) (f alternate)
  | .call callee arguments => .call (f callee) (arguments.map f)
  | .construct callee arguments => .construct (f callee) (arguments.map f)
  | .array elements => .array (elements.map f)
  | .object properties => .object (properties.map (Property.mapReads f))
  | .arrayPattern elements => .arrayPattern (elements.map (Option.map f))
  | .objectPattern properties => .objectPattern (properties.map (PatternProperty.mapReads f))
  | .defaultPattern target value => .defaultPattern (f target) (f value)
  | .destructure pattern value kind => .destructure (f pattern) (f value) kind
  | .importDeclaration source specifiers => .importDeclaration source (specifiers.map f)
  | .exportNames specifiers => .exportNames (specifiers.map f)
  | .exportSpecifier bound exported => .exportSpecifier (f bound) exported
  | .exportDefault value => .exportDefault (f value)
  | .expressionStatement expression => .expressionStatement (f expression)
  | .unsupported source bindings => .unsupported source (bindings.map fun b => (b.1, f b.2))
  | op => op

private theorem flatMap_reads_map {α : Type} (reads : α → List Place) (g : α → α)
    (f : Place → Place) (h : ∀ a, reads (g a) = (reads a).map f) (l : List α) :
    (l.map g).flatMap reads = (l.flatMap reads).map f := by
  induction l with
  | nil => rfl
  | cons a l ih => simp [h, ih]

/-- Replacing reads replaces each read and nothing else. -/
theorem reads_mapReads (f : Place → Place) (op : Op) :
    (op.mapReads f).reads = op.reads.map f := by
  cases op <;> simp only [mapReads, reads, List.map_cons, List.map_nil]
  case object properties => exact flatMap_reads_map _ _ f (Property.reads_mapReads f) _
  case objectPattern properties => exact flatMap_reads_map _ _ f (PatternProperty.reads_mapReads f) _
  case arrayPattern elements =>
    exact flatMap_reads_map _ _ f (fun o => by cases o <;> rfl) _
  case unsupported source bindings => simp

/-- The functions that an operation refers to. -/
def functions : Op → List FuncId
  | .functionExpression function => [function]
  | .functionDeclaration function => [function]
  | .object properties => properties.filterMap fun
    | .method _ function => some function
    | _ => none
  | _ => []

/-- The variable place that a write binds. -/
def target? : Op → Option Place
  | .storeLocal target _ _ => some target
  | .copy target _ => some target
  | _ => none

end Op

/-- An instruction. -/
structure Instr where
  /-- Its number. -/
  id : InstrId
  /-- The place that it defines. -/
  place : Place
  /-- The number of the tree node that it comes from. -/
  origin : Option Nat
  /-- What it does. -/
  op : Op

namespace Instr

/-- The places that an instruction reads. -/
def reads (i : Instr) : List Place := i.op.reads

/-- The places that an instruction writes: its own, and the variable of a write. -/
def defined (i : Instr) : List Place := i.place :: i.op.target?.toList

/-- Replaces the places that an instruction reads. -/
def mapReads (f : Place → Place) (i : Instr) : Instr := { i with op := i.op.mapReads f }

end Instr

/-- Places that stand for cells. -/
abbrev Substitution := Table CellId Place

/-- The place that stands for a place. -/
def Substitution.apply (s : Substitution) (p : Place) : Place := s.getD p.cell.id p

end Whittle.Ir
