import Whittle.Emit.Names
import Whittle.Optimize.Site

/-!
# Pending values

A value read once gets no statement of its own: it waits as an expression until its reader takes it.
A statement that may change what a waiting expression evaluates to first turns that expression into a
`const` of its own, and so does a second reader.
-/

namespace Whittle.Emit

open Ir Syntax

/-! ## Trees without a source -/

/-- The expression of a name. -/
def nameExpr (name : String) : Expr := .name Node.synthetic (Ident.synthetic name)

/-- The pattern of a name. -/
def namePattern (name : String) : Pattern := .name Node.synthetic (Ident.synthetic name)

/-- An assignment. -/
def assignExpr (target : Pattern) (value : Expr) : Expr := .assign Node.synthetic .set target value

/-- The declaration of one pattern. -/
def declareStmt (kind : VarKind) (target : Pattern) (value : Option Expr) : Stmt :=
  .declaration Node.synthetic kind [.mk Node.synthetic target value]

/-- An expression as a statement. -/
def exprStmt (e : Expr) : Stmt := .expression Node.synthetic e

/-- The negation of a test. -/
def negated (e : Expr) : Expr := .unary Node.synthetic .not e

/-- The literal of a value; a negative number is written as a negation. -/
def valueExpr : Value → Expr
  | .number n =>
    if n.lt Number.zero then
      .unary Node.synthetic .minus (.literal Node.synthetic (.number n.neg))
    else .literal Node.synthetic (.number n)
  | .string s => .literal Node.synthetic (.string s)
  | .boolean b => .literal Node.synthetic (.boolean b)
  | .null => .literal Node.synthetic .null
  | .undefined => nameExpr "undefined"

/-- Whether an expression is the given name. -/
def isName (name : String) : Expr → Bool
  | .name _ ident => ident.name == name
  | _ => false

/-! ## Values -/

/-- A write to a variable, as it is written when nobody reads its value. -/
structure Store where
  /-- The variable. -/
  declaration : DeclId
  /-- How the write introduces it. -/
  kind : StoreKind
  /-- What is written. -/
  value : Expr
  /-- Whether evaluating that has effects. -/
  hasEffects : Bool

/-- An expression that waits for its reader. -/
structure Pending where
  /-- The expression. -/
  expr : Expr
  /-- The declarations that it reads by name. -/
  names : KeySet DeclId := ∅
  /-- Whether evaluating it has effects. -/
  hasEffects : Bool := false
  /-- Whether it reads a global by name. -/
  readsGlobals : Bool := false
  /-- Whether it may be repeated at every reader. -/
  isRepeatable : Bool := false
  /-- The write that it is, if it is one. -/
  store : Option Store := none
  /-- Whether it writes a variable into itself, which is written as nothing. -/
  isSelfCopy : Bool := false

namespace Pending

/-- A value that also does what its operands do. -/
def reading (p : Pending) (operands : List Pending) : Pending :=
  { p with
    names := operands.foldl (fun names o => KeySet.addAll names o.names.keys) p.names
    hasEffects := p.hasEffects || operands.any (·.hasEffects)
    readsGlobals := p.readsGlobals || operands.any (·.readsGlobals) }

end Pending

/-- What a statement may change. -/
inductive Writes where
  | names (declarations : List DeclId)
  | anything

namespace Writes

/-- What evaluating a value and writing a variable may change. -/
def of (hasEffects : Bool) (d : Option DeclId) : Writes :=
  if hasEffects then .anything else .names d.toList

/-- Whether a waiting value has to be evaluated before. -/
def disturbs (w : Writes) (p : Pending) : Bool :=
  p.hasEffects ||
    match w with
    | .anything => !p.names.isEmpty || p.readsGlobals
    | .names ds => ds.any p.names.contains

end Writes

/-! ## The state of emission -/

/-- A loop around the code being emitted. -/
structure LoopContext where
  /-- Its header. -/
  header : BlockId
  /-- Where it is left to. -/
  exit : BlockId

/-- A way through nested statement lists, outermost first. -/
abbrev Region := List Nat

/-- What is known while a function is emitted. -/
structure State where
  /-- The names of the output. -/
  names : Names
  /-- The statements of the current list, the latest first. -/
  out : List Stmt := []
  /-- The waiting values, the latest first. -/
  values : List (CellId × Pending) := []
  /-- Patterns that wait for their reader, and what they bind. -/
  patterns : CellMap (Pattern × List DeclId) := ∅
  /-- Spreads that wait for their reader. -/
  spreads : CellMap Pending := ∅
  /-- Import specifiers that wait for their declaration. -/
  imports : CellMap Syntax.ImportSpecifier := ∅
  /-- Export specifiers that wait for their declaration. -/
  exports : CellMap Syntax.ExportSpecifier := ∅
  /-- The variables that are declared. -/
  declared : KeySet DeclId
  /-- The blocks that are emitted. -/
  emitted : KeySet BlockId := ∅
  /-- The blocks that are emitted behind the conditional that leads around them. -/
  reserved : KeySet BlockId := ∅
  /-- The loops around, the innermost first. -/
  loops : List LoopContext := []
  /-- Where the current list is. -/
  region : Region := []
  /-- The number of the last region. -/
  lastRegion : Nat := 0
  /-- Where each block was emitted. -/
  blockRegions : Table BlockId Region := ∅
  /-- Where the word that declares each variable stands. -/
  firstDeclared : Table DeclId Region := ∅

/-- What does not change while a function is emitted. -/
structure Context where
  /-- The module. -/
  module : Ir.Module
  /-- Its declarations. -/
  env : Environment
  /-- How often each cell is read. -/
  counts : CellMap Nat
  /-- The function. -/
  function : Function
  /-- Emits a nested function. -/
  nested : FuncId → Names → Outcome (Func × Names)

/-- A step of emission. -/
abbrev Step := ReaderT Context (StateT State (Except Error))

/-- Stops with a broken promise. -/
def broken {α : Type} (message : String) : Step α := throw (.invariantViolation message)

/-- Adds a statement. -/
def push (s : Stmt) : Step Unit := modify fun st => { st with out := s :: st.out }

/-- The name of a declaration. -/
def nameOf (d : DeclId) : Step String := do
  match (← get).names.get? (← read).env d with
  | some name => pure name
  | none => broken ("declaration " ++ d.text ++ " has no name")

/-- How often the cell of a place is read. -/
def readCount (p : Place) : Step Nat := return (← read).counts.getD p.cell.id 0

/-- A name for a temporary. -/
def freshName : Step String :=
  modifyGet fun st =>
    let (name, names) := st.names.temporary
    (name, { st with names })

/-! ## Waiting values -/

/-- Lets a value wait. -/
def wait (cell : CellId) (p : Pending) : Step Unit :=
  modify fun st => { st with values := (cell, p) :: st.values.filter (·.1 != cell) }

/-- Takes a value out of the waiting ones. -/
def dropValue (cell : CellId) : Step Unit :=
  modify fun st => { st with values := st.values.filter (·.1 != cell) }

/-- The value under a temporary's name: never written again, so it can be read any number of times. -/
def namedValue (name : String) : Pending := { expr := nameExpr name, isRepeatable := true }

/-- Gives each of the values a `const` of its own. -/
def settleAll : List (CellId × Pending) → Step Unit
  | [] => pure ()
  | (cell, p) :: more => do
    let name ← freshName
    push (declareStmt .constKind (namePattern name) (some p.expr))
    wait cell (namedValue name)
    settleAll more

/-- Settles the waiting values that `which` holds for, the earliest first. -/
def settle (which : Pending → Bool) : Step Unit := do
  let values := (← get).values
  settleAll (values.filter fun v => !v.2.isRepeatable && !v.2.isSelfCopy && which v.2).reverse

/-- Settles all waiting values. -/
def settleEverything : Step Unit := settle fun _ => true

/-- Adds a statement behind the waiting values that it disturbs. -/
def statement (s : Stmt) (writes : Writes) : Step Unit := do
  settle writes.disturbs
  push s

/-- The value of a variable by name. -/
def readName (d : DeclId) : Step Pending := do
  return { expr := nameExpr (← nameOf d), names := KeySet.add ∅ d }

/-- Takes the value of a place. -/
def take (p : Place) : Step Pending := do
  match (← get).values.lookup p.cell.id with
  | some value =>
    if !value.isRepeatable then dropValue p.cell.id
    pure value
  | none =>
    if (← read).env.isTemporary p.declaration then throw (.placeNotFound p.id.text)
    readName p.declaration

/-- Takes the pattern of a place, and what it binds. -/
def takePattern (p : Place) : Step (Pattern × List DeclId) := do
  match (← get).patterns.get? p.cell.id with
  | some r =>
    modify fun st => { st with patterns := st.patterns.erase p.cell.id }
    pure r
  | none => throw (.placeNotFound p.id.text)

/-- Lets a pattern wait. -/
def waitPattern (place : Place) (pattern : Pattern) (bound : List DeclId) : Step Unit :=
  modify fun st => { st with patterns := st.patterns.insert place.cell.id (pattern, bound) }

/-- Takes array elements or arguments. -/
def takeElements : List Place → Step (List Element × List Pending)
  | [] => pure ([], [])
  | p :: ps => do
    match (← get).spreads.get? p.cell.id with
    | some value =>
      modify fun st => { st with spreads := st.spreads.erase p.cell.id }
      let (elements, values) ← takeElements ps
      pure (.spread value.expr :: elements, value :: values)
    | none =>
      let value ← take p
      let (elements, values) ← takeElements ps
      pure (.one value.expr :: elements, value :: values)

/-! ## Declaring and writing variables -/

/-- The word with which a write declares its variable; none if the variable exists. -/
def declaringWord (d : DeclId) (kind : StoreKind) : Step (Option VarKind) := do
  let ctx ← read
  if (← get).declared.contains d || ctx.env.ownerOf d != some ctx.function.id then pure none
  else
    pure <| some <| kind.varKind?.getD <|
      match ctx.env.kindOf d with
      | .varKind => .varKind
      | .constKind => .constKind
      | _ => .letKind

/-- Notes where a variable is declared. -/
def markDeclared (d : DeclId) (word : VarKind) : Step Unit :=
  modify fun st =>
    { st with
      declared := KeySet.add st.declared d
      firstDeclared :=
        if word == .varKind then st.firstDeclared else st.firstDeclared.insert d st.region }

/-- Declares a variable ahead of an assignment whose value is read. -/
def ensureDeclared (d : DeclId) : Step Unit := do
  match ← declaringWord d .reassign with
  | none => pure ()
  | some word =>
    let word := if word == .constKind then .letKind else word
    let name ← nameOf d
    markDeclared d word
    statement (declareStmt word (namePattern name) none) (.names [])

/-- Declares variables one after the other. -/
def ensureAll : List DeclId → Step Unit
  | [] => pure ()
  | d :: ds => do
    ensureDeclared d
    ensureAll ds

/-- Writes a store as a statement. -/
def storeStmt (s : Store) : Step Unit := do
  let name ← nameOf s.declaration
  let writes := Writes.of s.hasEffects (some s.declaration)
  match ← declaringWord s.declaration s.kind with
  | none => statement (exprStmt (assignExpr (namePattern name) s.value)) writes
  | some word =>
    let value := if isName "undefined" s.value && word != .constKind then none else some s.value
    markDeclared s.declaration word
    statement (declareStmt word (namePattern name) value) writes

/-- Writes a value as a statement, if anyone could tell.  Reading a global can fail. -/
def valueStmt (p : Pending) : Step Unit := do
  if p.isSelfCopy then pure ()
  else
    match p.store with
    | some s => storeStmt s
    | none =>
      if p.hasEffects || p.readsGlobals then
        statement (exprStmt p.expr) (.of p.hasEffects none)

/-- Gives a value a `const` of its own. -/
def materialize (p : Pending) : Step Pending := do
  let name ← freshName
  statement (declareStmt .constKind (namePattern name) (some p.expr)) (.of p.hasEffects none)
  pure (namedValue name)

/-- Defines a place: a value nobody reads is written down at once, one read once waits. -/
def define (place : Place) (p : Pending) : Step Unit := do
  match ← readCount place with
  | 0 => valueStmt p
  | 1 => wait place.cell.id p
  | _ =>
    if p.isRepeatable || p.isSelfCopy then wait place.cell.id p
    else wait place.cell.id (← materialize p)

end Whittle.Emit
