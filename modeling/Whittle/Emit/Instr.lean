import Whittle.Emit.Pending

/-!
# Emission of instructions

What each instruction becomes: a value that waits, a pattern that waits, or a statement.
-/

namespace Whittle.Emit

open Ir Syntax

/-- A value with effects. -/
def effectful (e : Expr) (operands : List Pending) : Pending :=
  ({ expr := e, hasEffects := true } : Pending).reading operands

/-- A value without effects of its own. -/
def pureValue (e : Expr) (operands : List Pending) : Pending :=
  ({ expr := e } : Pending).reading operands

/-- The target of an assignment to a property. -/
def memberPattern (e : Expr) : Pattern := .expression Node.synthetic e

/-- Takes a key, with the operands that it reads. -/
def takeKey : Key → Step (PropertyKey × List Pending)
  | .name text => pure (.name text, [])
  | .string text => pure (.string text, [])
  | .number value => pure (.number value, [])
  | .computed p => do
    let value ← take p
    pure (.computed value.expr, [value])

/-- Emits a nested function. -/
def nestedFunction (id : FuncId) : Step Func := do
  let (f, names) ← (← read).nested id (← get).names
  modify fun st => { st with names }
  pure f

/-- Whether a property with one word for key and value may be written as that word. -/
def isShort (shorthand : Bool) (key : PropertyKey) (value : Expr) : Bool :=
  shorthand && match key with
    | .name text => isName text value
    | _ => false

/-- Takes the properties of an object, with the operands that they read. -/
def takeProperties : List Ir.Property → Step (List Syntax.Property × List Pending)
  | [] => pure ([], [])
  | .keyValue key value shorthand :: ps => do
    let (k, keyReads) ← takeKey key
    let v ← take value
    let (properties, reads) ← takeProperties ps
    pure (.keyValue k v.expr (isShort shorthand k v.expr) :: properties, keyReads ++ v :: reads)
  | .method key id :: ps => do
    let (k, keyReads) ← takeKey key
    let f ← nestedFunction id
    let (properties, reads) ← takeProperties ps
    pure (.method k f :: properties, keyReads ++ reads)
  | .spread value :: ps => do
    let v ← take value
    let (properties, reads) ← takeProperties ps
    pure (.spread v.expr :: properties, v :: reads)

/-- Takes the elements of an array pattern, and what they bind. -/
def takeHoles : List (Option Place) → Step (List (Option Pattern) × List DeclId)
  | [] => pure ([], [])
  | none :: ps => do
    let (patterns, bound) ← takeHoles ps
    pure (none :: patterns, bound)
  | some p :: ps => do
    let (pattern, here) ← takePattern p
    let (patterns, bound) ← takeHoles ps
    pure (some pattern :: patterns, here ++ bound)

/-- Takes the properties of an object pattern, and what they bind. -/
def takePatternProperties :
    List Ir.PatternProperty → Step (List Syntax.PatternProperty × List DeclId)
  | [] => pure ([], [])
  | .keyValue key value :: ps => do
    let (k, _) ← takeKey key
    let (pattern, here) ← takePattern value
    let (properties, bound) ← takePatternProperties ps
    pure (.keyValue k pattern :: properties, here ++ bound)
  | .rest p :: ps => do
    let (pattern, here) ← takePattern p
    let (properties, bound) ← takePatternProperties ps
    pure (.rest pattern :: properties, here ++ bound)

/-- Takes the specifiers of an import. -/
def takeImports : List Place → Step (List Syntax.ImportSpecifier)
  | [] => pure []
  | p :: ps => do
    match (← get).imports.get? p.cell.id with
    | none => throw (.placeNotFound p.id.text)
    | some specifier =>
      modify fun st => { st with imports := st.imports.erase p.cell.id }
      return specifier :: (← takeImports ps)

/-- Takes the specifiers of an export. -/
def takeExports : List Place → Step (List Syntax.ExportSpecifier)
  | [] => pure []
  | p :: ps => do
    match (← get).exports.get? p.cell.id with
    | none => throw (.placeNotFound p.id.text)
    | some specifier =>
      modify fun st => { st with exports := st.exports.erase p.cell.id }
      return specifier :: (← takeExports ps)

/-- A write to a variable.  Writing a variable into itself is written as nothing. -/
def emitStore (place target value : Place) (kind : StoreKind) : Step Unit := do
  let stored ← take value
  let d := target.declaration
  let name ← nameOf d
  if isName name stored.expr then
    define place { ← readName d with isSelfCopy := true }
  else
    if 0 < (← readCount place) then ensureDeclared d
    define place
      { expr := assignExpr (namePattern name) stored.expr
        names := KeySet.add stored.names d
        hasEffects := true
        store := some ⟨d, kind, stored.expr, stored.hasEffects⟩ }

/-- Binds the names of a pattern: as a declaration where none of them exists, else as an
assignment. -/
def emitDestructure (place pattern value : Place) (kind : StoreKind) : Step Unit := do
  let v ← take value
  let (target, bound) ← takePattern pattern
  let ctx ← read
  let declared := (← get).declared
  let isNew (d : DeclId) : Bool :=
    !declared.contains d && ctx.env.ownerOf d == some ctx.function.id
  match kind.varKind? with
  | some word =>
    if bound.all isNew && (← readCount place) == 0 then
      for d in bound do markDeclared d word
      statement (declareStmt word target (some v.expr)) .anything
    else assign v target bound
  | none => assign v target bound
where
  assign (v : Pending) (target : Pattern) (bound : List DeclId) : Step Unit := do
    ensureAll bound
    define place
      { expr := assignExpr target v.expr, names := KeySet.addAll v.names bound, hasEffects := true }

/-- The names that the variables of kept source are written under, where they differ. -/
def renamings : List (String × Place) → Step (List (String × String))
  | [] => pure []
  | (name, p) :: more => do
    let written ← nameOf p.declaration
    return (name, written) :: (← renamings more)

/-- The renaming of a list of pairs; of two pairs for one name the later one counts. -/
def renamedBy (pairs : List (String × String)) (name : String) : String :=
  (pairs.reverse.lookup name).getD name

/-- Writes kept source down, with its variables renamed. -/
def emitVerbatim (place : Place) (source : Verbatim) (bindings : List (String × Place)) :
    Step Unit := do
  let env := (← read).env
  let d := place.declaration
  let pairs ← renamings bindings
  let own ←
    if env.isTemporary d then pure []
    else
      let own ← match env.nameOf d with
        | some name => pure [(name, ← nameOf d)]
        | none => pure []
      modify fun st => { st with declared := KeySet.add st.declared d }
      pure own
  let r := renamedBy ((pairs ++ own).filter fun p => p.1 != p.2)
  match source with
  | .statement s => statement (s.rename r) .anything
  | .expression e =>
    define place
      { expr := e.rename r
        names := KeySet.ofList (bindings.map (·.2.declaration))
        hasEffects := true }

/-- Emits an instruction. -/
def emitInstr (i : Instr) : Step Unit := do
  let place := i.place
  let node := Node.synthetic
  match i.op with
  | .loadLocal source => define place (← take source)
  | .storeLocal target value kind => emitStore place target value kind
  | .copy target value => emitStore place target value .reassign
  | .loadGlobal name => define place { expr := nameExpr name, readsGlobals := true }
  | .storeGlobal name value =>
    let v ← take value
    define place (effectful (assignExpr (namePattern name) v.expr) [v])
  | .propertyLoad base property =>
    let b ← take base
    define place (effectful (.member node b.expr property) [b])
  | .propertyStore base property value =>
    let b ← take base
    let v ← take value
    let target := memberPattern (.member node b.expr property)
    define place (effectful (assignExpr target v.expr) [b, v])
  | .computedLoad base property =>
    let b ← take base
    let p ← take property
    define place (effectful (.index node b.expr p.expr) [b, p])
  | .computedStore base property value =>
    let b ← take base
    let p ← take property
    let v ← take value
    let target := memberPattern (.index node b.expr p.expr)
    define place (effectful (assignExpr target v.expr) [b, p, v])
  | .literal value => define place { expr := valueExpr value, isRepeatable := true }
  | .binary op left right =>
    let l ← take left
    let r ← take right
    let value := pureValue (.binary node op l.expr r.expr) [l, r]
    define place { value with hasEffects := value.hasEffects || !op.isPure }
  | .unary op argument =>
    let a ← take argument
    let value := pureValue (.unary node op a.expr) [a]
    define place { value with hasEffects := value.hasEffects || op == .delete }
  | .logical op left right =>
    let l ← take left
    let r ← take right
    define place (pureValue (.logical node op l.expr r.expr) [l, r])
  | .conditional test consequent alternate =>
    let t ← take test
    let c ← take consequent
    let a ← take alternate
    define place (pureValue (.conditional node t.expr c.expr a.expr) [t, c, a])
  | .call callee arguments =>
    let c ← take callee
    let (elements, operands) ← takeElements arguments
    define place (effectful (.call node c.expr elements) (c :: operands))
  | .construct callee arguments =>
    let c ← take callee
    let (elements, operands) ← takeElements arguments
    define place (effectful (.construct node c.expr elements) (c :: operands))
  | .array elements =>
    let (elements, operands) ← takeElements elements
    define place (pureValue (.array node elements) operands)
  | .object properties =>
    let (properties, operands) ← takeProperties properties
    define place (pureValue (.object node properties) operands)
  | .functionExpression id =>
    let f ← nestedFunction id
    define place { expr := .function node f }
  | .binding _ =>
    let d := place.declaration
    waitPattern place (namePattern (← nameOf d)) [d]
  | .arrayPattern elements =>
    let (patterns, bound) ← takeHoles elements
    waitPattern place (.array node patterns) bound
  | .objectPattern properties =>
    let (properties, bound) ← takePatternProperties properties
    waitPattern place (.object node properties) bound
  | .defaultPattern target value =>
    let v ← take value
    let (pattern, bound) ← takePattern target
    waitPattern place (.withDefault node pattern v.expr) bound
  | .rest argument =>
    let (pattern, bound) ← takePattern argument
    waitPattern place (.rest node pattern) bound
  | .spread argument =>
    let v ← take argument
    modify fun st => { st with spreads := st.spreads.insert place.cell.id v }
  | .destructure pattern value kind => emitDestructure place pattern value kind
  | .functionDeclaration id =>
    let d := place.declaration
    let f ← nestedFunction id
    let name ← nameOf d
    modify fun st => { st with declared := KeySet.add st.declared d }
    let named := Func.mk f.node (some (Ident.synthetic name)) f.params f.body f.isArrow
    statement (.function node named) (.names [])
  | .importDeclaration source specifiers =>
    let specifiers ← takeImports specifiers
    statement (.importFrom node specifiers source) (.names [])
  | .importSpecifier kind bound =>
    let specifier : Syntax.ImportSpecifier := ⟨kind, Ident.synthetic bound⟩
    modify fun st => { st with imports := st.imports.insert place.cell.id specifier }
  | .exportSpecifier bound exported =>
    let name ← nameOf bound.declaration
    let specifier : Syntax.ExportSpecifier := ⟨Ident.synthetic name, exported⟩
    modify fun st => { st with exports := st.exports.insert place.cell.id specifier }
  | .exportNames specifiers =>
    let specifiers ← takeExports specifiers
    statement (.exportNames node specifiers none) (.names [])
  | .exportDefault value =>
    let v ← take value
    statement (.exportDefault node v.expr) (.of v.hasEffects none)
  | .expressionStatement expression => valueStmt (← take expression)
  | .unsupported source bindings => emitVerbatim place source bindings

/-- Emits instructions in order. -/
def emitInstrs : List Instr → Step Unit
  | [] => pure ()
  | i :: is => do
    emitInstr i
    emitInstrs is

end Whittle.Emit
