import Whittle.Lowering.State

/-!
# From syntax trees to intermediate code

The walk over the tree of a module.  Every function of the tree becomes a graph of blocks; every
write of a variable becomes a new version of it.  `Module.lower` is the whole of it.
-/

namespace Whittle.Lowering

open Ir Syntax

/-- How the value of an expression is used. -/
inductive Use where
  /-- Someone reads it. -/
  | value
  /-- Only its effects matter. -/
  | effect
deriving DecidableEq, Repr

/-- Ends an expression: where only effects matter, its value is marked as one nobody reads. -/
def Use.finish (use : Use) (node : Node) (place : Place) : Lower Place :=
  match use with
  | .value => pure place
  | .effect => emit (.expressionStatement place) node.id

/-- Ends a sequence without expressions, which has no value. -/
def Use.finishEmpty (use : Use) : Lower Place :=
  match use with
  | .value => refuse "empty sequence expression"
  | .effect => pure default

/-- The value that an assignment stores: of a compound one, the operator applied to the current value
and the new one. -/
def combined (node : Node) (op : AssignOp) (current value : Lower Place) : Lower Place := do
  match op.binary? with
  | some binary =>
    let left ← current
    let right ← value
    emit (.binary binary left right) node.id
  | none => value

/-- The operator that steps a value. -/
def stepOp : UpdateOp → BinaryOp
  | .increment => .add
  | .decrement => .sub

/-- Steps a value by one, stores it, and answers the value before or after. -/
def stepped (node : Node) (op : UpdateOp) (before : Bool) (load : Lower Place)
    (store : Place → Lower Place) : Lower Place := do
  let old ← load
  let one ← emit (.literal (.number Number.one)) none
  let new ← emit (.binary (stepOp op) old one) node.id
  let stored ← store new
  pure (if before then stored else old)

/-- Whether all names that a pattern binds are variables of the module. -/
def allLocal (pattern : Pattern) : Lower Bool := do
  let scopes := (← get).scopes
  return pattern.bound.all fun ident => (scopes.find? ident.name).isSome

/-- A loop: a block for the test, which leads to the body or to the exit, and a body whose end leads
back to the test. -/
def loopOver (test : Lower Place) (body : Lower Unit) : Lower Unit := do
  let testBlock ← newBlock
  let bodyBlock ← newBlock
  let exit ← newBlock
  endBlock (.jump testBlock) testBlock
  let base := (← getFrame).path
  let t ← test
  endBlock (.branch t bodyBlock exit exit) bodyBlock
  onFrame fun frame => { frame with loops := ⟨exit, []⟩ :: frame.loops }
  body
  let bodyPath := (← getFrame).path
  endBlock (.jump testBlock) exit
  match (← getFrame).loops with
  | [] => broken "loop frame vanished while lowering its body"
  | inner :: loops =>
    onFrame ({ · with loops })
    let breaks := inner.breaks.reverse.map fun versions => Path.mk versions true
    resume ⟨mergeVersions base.versions (bodyPath :: breaks), base.isReachable⟩

/-- Leaves the innermost loop. -/
def leaveLoop : Lower Unit := do
  let frame ← getFrame
  match frame.loops with
  | [] => refuse "break statement outside of a loop"
  | inner :: loops =>
    if frame.isReachable then
      onFrame ({ · with loops := { inner with breaks := frame.versions :: inner.breaks } :: loops })
    endUnreachable (.jump inner.exit)

/-- Binds a variable to a value. -/
def bindVariable (name : String) (kind : VarKind) (value : Place) (origin : Option Nat) :
    Lower Unit := do
  let target ← bindingPlace (← declared name)
  let _ ← emit (.storeLocal target value (.ofVarKind kind)) origin

/-- The specifiers of an import. -/
def importAll (origin : Option Nat) : List Syntax.ImportSpecifier → Lower (List Place)
  | [] => pure []
  | specifier :: more => do
    let place ← emit (.importSpecifier specifier.kind specifier.bound.name) origin
    return place :: (← importAll origin more)

/-- The variables behind exported names, if all of them are variables of the module. -/
def Scopes.exported? (scopes : Scopes) (specifiers : List Syntax.ExportSpecifier) :
    Option (List (DeclId × String)) :=
  specifiers.mapM fun s => (scopes.find? s.bound.name).map (·, s.exported)

/-- The names that an exported declaration publishes. -/
def publishedNames : Stmt → List String
  | .declaration _ _ declarators => (Declarator.boundAll declarators).map (·.name)
  | s => s.lexical.map (·.ident.name)

/-- The declarations of names. -/
def declaredAll : List String → Lower (List (DeclId × String))
  | [] => pure []
  | name :: names => do
    let d ← declared name
    return (d, name) :: (← declaredAll names)

mutual

/-- Lowers an expression and answers its value; where only effects matter, the answer means
nothing. -/
def lowerExpr (use : Use) : Expr → Lower Place
  | .name n ident => do use.finish n (← loadName ident)
  | .literal n value => do use.finish n (← emit (.literal (.ofLiteral value)) n.id)
  | .array n elements => do
    let places ← lowerElements elements
    use.finish n (← emit (.array places) n.id)
  | .object n properties => do
    let lowered ← lowerProperties properties
    use.finish n (← emit (.object lowered) n.id)
  | .function n f => do
    let id ← lowerFunc (if f.isArrow then .arrow else .expression) f
    use.finish n (← emit (.functionExpression id) n.id)
  | .unary n op argument => do
    if op == .delete then use.finish n (← keepExpr (.unary n op argument))
    else
      let place ← lowerExpr .value argument
      use.finish n (← emit (.unary op place) n.id)
  | .update n op before argument =>
    match argument with
    | .name _ ident => stepped n op before (loadName ident) (storeName ident · n.id)
    | .member _ base property => do
      let place ← lowerExpr .value base
      stepped n op before (emit (.propertyLoad place property) n.id)
        fun value => emit (.propertyStore place property value) n.id
    | .index m base property => do
      let _ ← lowerExpr .value base
      keepExpr (.update n op before (.index m base property))
    | _ => refuse "update of a non-reference expression"
  | .binary n op left right => do
    let l ← lowerExpr .value left
    let r ← lowerExpr .value right
    use.finish n (← emit (.binary op l r) n.id)
  | .logical n op left right => do
    if right.isSimple then
      let l ← lowerExpr .value left
      let r ← lowerExpr .value right
      use.finish n (← emit (.logical op l r) n.id)
    else use.finish n (← keepExpr (.logical n op left right))
  | .assign n op target value => do
    if op.isLogical then use.finish n (← keepExpr (.assign n op target value))
    else
      match target with
      | .name _ ident =>
        let place ← combined n op (loadName ident) (lowerExpr .value value)
        storeName ident place n.id
      | .expression _ (.member _ base property) =>
        let b ← lowerExpr .value base
        let place ← combined n op (emit (.propertyLoad b property) n.id) (lowerExpr .value value)
        emit (.propertyStore b property place) n.id
      | .expression _ (.index _ base property) =>
        let b ← lowerExpr .value base
        let p ← lowerExpr .value property
        let place ← combined n op (emit (.computedLoad b p) n.id) (lowerExpr .value value)
        emit (.computedStore b p place) n.id
      | target =>
        if op == .set && target.isPlain && (← allLocal target) then
          let place ← lowerExpr .value value
          let pattern ← lowerPattern .assignment target
          emit (.destructure pattern place .reassign) n.id
        else keepExpr (.assign n op target value)
  | .conditional n test consequent alternate => do
    if consequent.isSimple && alternate.isSimple then
      let t ← lowerExpr .value test
      let c ← lowerExpr .value consequent
      let a ← lowerExpr .value alternate
      use.finish n (← emit (.conditional t c a) n.id)
    else use.finish n (← keepExpr (.conditional n test consequent alternate))
  | .call n callee arguments => do
    let c ← lowerExpr .value callee
    let places ← lowerElements arguments
    use.finish n (← emit (.call c places) n.id)
  | .construct n callee arguments => do
    let c ← lowerExpr .value callee
    let places ← lowerElements arguments
    use.finish n (← emit (.construct c places) n.id)
  | .member n base property => do
    let b ← lowerExpr .value base
    use.finish n (← emit (.propertyLoad b property) n.id)
  | .index n base property => do
    let b ← lowerExpr .value base
    let p ← lowerExpr .value property
    use.finish n (← emit (.computedLoad b p) n.id)
  | .sequence _ expressions => lowerSequence use expressions
  | .this n => do use.finish n (← keepExpr (.this n))

/-- Lowers a sequence: of all but the last expression only the effects matter. -/
def lowerSequence (use : Use) : List Expr → Lower Place
  | [] => use.finishEmpty
  | [e] => lowerExpr use e
  | e :: es => do
    let _ ← lowerExpr .effect e
    lowerSequence use es

/-- Lowers array elements or arguments. -/
def lowerElements : List Element → Lower (List Place)
  | [] => pure []
  | .one e :: es => do
    let place ← lowerExpr .value e
    return place :: (← lowerElements es)
  | .spread e :: es => do
    let place ← lowerExpr .value e
    let spread ← emit (.spread place) none
    return spread :: (← lowerElements es)

/-- Lowers a key. -/
def lowerKey : PropertyKey → Lower Key
  | .name text => pure (.name text)
  | .string text => pure (.string text)
  | .number value => pure (.number value)
  | .computed e => return .computed (← lowerExpr .value e)

/-- Lowers the properties of an object. -/
def lowerProperties : List Syntax.Property → Lower (List Ir.Property)
  | [] => pure []
  | .keyValue key value shorthand :: ps => do
    let k ← lowerKey key
    let place ← lowerExpr .value value
    return .keyValue k place shorthand :: (← lowerProperties ps)
  | .method key f :: ps => do
    let k ← lowerKey key
    let id ← lowerFunc .method f
    return .method k id :: (← lowerProperties ps)
  | .spread value :: ps => do
    let place ← lowerExpr .value value
    return .spread place :: (← lowerProperties ps)

/-- Lowers a pattern. -/
def lowerPattern (use : PatternUse) : Pattern → Lower Place
  | .name n ident => do
    let place ← use.target ident.name
    let _ ← put place (.binding ident.name) n.id
    pure place
  | .array n elements => do
    let places ← lowerHoles use elements
    emit (.arrayPattern places) n.id
  | .object n properties => do
    let lowered ← lowerPatternProperties use properties
    emit (.objectPattern lowered) n.id
  | .withDefault n target value => do
    let place ← lowerExpr .value value
    let t ← lowerPattern use target
    emit (.defaultPattern t place) n.id
  | .rest n argument => do
    let place ← lowerPattern use argument
    emit (.rest place) n.id
  | .expression _ _ => refuse "member expression in a binding pattern"

/-- Lowers the elements of an array pattern. -/
def lowerHoles (use : PatternUse) : List (Option Pattern) → Lower (List (Option Place))
  | [] => pure []
  | none :: ps => return none :: (← lowerHoles use ps)
  | some p :: ps => do
    let place ← lowerPattern use p
    return some place :: (← lowerHoles use ps)

/-- Lowers the properties of an object pattern. -/
def lowerPatternProperties (use : PatternUse) :
    List Syntax.PatternProperty → Lower (List Ir.PatternProperty)
  | [] => pure []
  | .keyValue key value :: ps => do
    let k ← lowerKey key
    let place ← lowerPattern use value
    return .keyValue k place :: (← lowerPatternProperties use ps)
  | .rest argument :: ps => do
    let place ← lowerPattern use argument
    return .rest place :: (← lowerPatternProperties use ps)

/-- Lowers parameters. -/
def lowerParams : List Pattern → Lower (List Place)
  | [] => pure []
  | p :: ps => do
    let place ← lowerPattern .parameter p
    return place :: (← lowerParams ps)

/-- Lowers a function and answers its number.  A function expression can name itself. -/
def lowerFunc (kind : FunctionKind) : Func → Lower FuncId
  | .mk node name params body _ => do
    let id ← onEnv (·.newFunc)
    inFunction id (name.map (·.name)) kind node.id do
      match kind, name with
      | .expression, some ident =>
        let d ← newDeclaration ident.name .constKind
        onScopes (Scopes.bind? ident.name d)
        let _ ← newVersion d
      | _, _ => pure ()
      onFrame ({ · with inHeader := true })
      let places ← lowerParams params
      onFrame fun frame =>
        { frame with inHeader := false, function := { frame.function with params := places } }
      lowerBody body

/-- Lowers the body of a function. -/
def lowerBody : Body → Lower Unit
  | .block statements => do
    declareHoisted (Stmt.hoisted statements)
    let functions ← declareLexical (statements.flatMap Stmt.lexical)
    lowerHoisted functions statements
    lowerAll statements
  | .expression value => do
    let place ← lowerExpr .value value
    onFrame fun frame => { frame with function := { frame.function with isConcise := true } }
    endUnreachable (.ret (some place))

/-- Builds the function that a statement declares, if it declares one, for the first of the given
declarations; answers the others. -/
def lowerHoistedOne (functions : List (DeclId × Place)) : Stmt → Lower (List (DeclId × Place))
  | .function _ f =>
    match functions with
    | [] => pure []
    | (d, place) :: functions => do
      if f.name.isSome then
        let id ← lowerFunc .declaration f
        modify fun s => { s with env := s.env.bindFunction d id }
        let _ ← put place (.functionDeclaration id) f.node.id
        pure functions
      else pure ((d, place) :: functions)
  | .exportDeclaration _ inner => lowerHoistedOne functions inner
  | _ => pure functions

/-- Builds the functions that statements declare. -/
def lowerHoisted (functions : List (DeclId × Place)) : List Stmt → Lower Unit
  | [] => pure ()
  | s :: ss => do
    let functions ← lowerHoistedOne functions s
    lowerHoisted functions ss

/-- Lowers declarators. -/
def lowerDeclarators (kind : VarKind) (origin : Option Nat) : List Declarator → Lower Unit
  | [] => pure ()
  | .mk n target value :: ds => do
    match target, value with
    | .name _ ident, some value =>
      let place ← lowerExpr .value value
      bindVariable ident.name kind place origin
    | .name _ ident, none =>
      if kind != .varKind then
        let place ← emit (.literal .undefined) n.id
        bindVariable ident.name kind place origin
    | target, some value =>
      let place ← lowerExpr .value value
      let pattern ← lowerPattern .declaration target
      let _ ← emit (.destructure pattern place (.ofVarKind kind)) origin
    | _, none => refuse "destructuring declaration without initializer"
    lowerDeclarators kind origin ds

/-- Lowers the head of a `for` statement. -/
def lowerHead : Option ForHead → Lower Unit
  | none => pure ()
  | some (.declaration kind declarators) => do
    let _ ← declareLexical (Stmt.declaration Node.synthetic kind declarators).lexical
    lowerDeclarators kind none declarators
  | some (.expression value) => do
    let _ ← lowerExpr .effect value

/-- Lowers the test of a loop; a missing one holds always. -/
def lowerTest : Option Expr → Lower Place
  | none => emit (.literal (.boolean true)) none
  | some e => lowerExpr .value e

/-- Lowers what a loop does between its rounds. -/
def lowerUpdate : Option Expr → Lower Unit
  | none => pure ()
  | some e => do
    let _ ← lowerExpr .effect e

/-- Lowers the value of a `return`. -/
def lowerResult : Option Expr → Lower (Option Place)
  | none => pure none
  | some e => return some (← lowerExpr .value e)

/-- Lowers the other arm of an `if` and answers the path through it. -/
def lowerElse (base : Path) (alternate join : BlockId) : Option Stmt → Lower Path
  | none => pure base
  | some s => do
    endBlock (.jump join) alternate
    resume base
    lowerStmt true s
    return (← getFrame).path

/-- Lowers a statement.  A block that is the arm of an `if` or the body of a loop (`isArm`) has a
scope but no block of its own. -/
def lowerStmt (isArm : Bool) : Stmt → Lower Unit
  | .declaration n kind declarators => lowerDeclarators kind n.id declarators
  | .function _ _ => pure ()
  | .classDeclaration n cls => do
    let defines ← match cls.name with
      | some ident => some <$> declared ident.name
      | none => pure none
    keepStmt (.classDeclaration n cls) defines
  | .return _ value => do
    let place ← lowerResult value
    endUnreachable (.ret place)
  | .ifElse _ test consequent alternate => do
    let t ← lowerExpr .value test
    let c ← newBlock
    let join ← newBlock
    let a ← if alternate.isSome then newBlock else pure join
    endBlock (.branch t c a join) c
    let base := (← getFrame).path
    lowerStmt true consequent
    let first := (← getFrame).path
    let second ← lowerElse base a join alternate
    endBlock (.jump join) join
    resume ⟨mergeVersions base.versions [first, second], first.isReachable || second.isReachable⟩
  | .while _ test body => loopOver (lowerExpr .value test) (lowerStmt true body)
  | .for _ head test update body =>
    inScope .block do
      let start ← newBlock
      endBlock (.jump start) start
      lowerHead head
      loopOver (lowerTest test) do
        lowerStmt true body
        lowerUpdate update
  | .block _ statements => do
    if !isArm then
      let start ← newBlock
      endBlock (.jump start) start
    inScope .block do
      let functions ← declareLexical (statements.flatMap Stmt.lexical)
      lowerHoisted functions statements
      lowerAll statements
  | .break _ none => leaveLoop
  | .break _ (some _) => refuse "labeled break statement"
  | .continue _ _ => refuse "continue statement"
  | .expression _ value => do
    let _ ← lowerExpr .effect value
  | .importFrom n specifiers source => do
    let places ← importAll n.id specifiers
    let _ ← emit (.importDeclaration source places) n.id
  | .exportNames n specifiers source => do
    match source, Scopes.exported? (← get).scopes specifiers with
    | none, some locals => exportAll n.id locals
    | source, _ => keepStmt (.exportNames n specifiers source) none
  | .exportDeclaration n inner => do
    lowerStmt false inner
    exportAll n.id (← declaredAll (publishedNames inner))
  | .exportDefault n value => do
    let place ← lowerExpr .value value
    let _ ← emitExport (.exportDefault place) "default" n.id
  | .empty _ => pure ()
  | .doWhile n body test => keepStmt (.doWhile n body test) none
  | .forEach n head isOf subject body => keepStmt (.forEach n head isOf subject body) none
  | .throw n value => keepStmt (.throw n value) none

/-- Lowers statements in order. -/
def lowerAll : List Stmt → Lower Unit
  | [] => pure ()
  | s :: ss => do
    lowerStmt false s
    lowerAll ss

end

/-- What the imports of a module bind, by name. -/
def importsOf (statements : List Stmt) : Table String ImportBinding :=
  Table.ofList <| statements.flatMap fun
    | .importFrom _ specifiers source =>
      specifiers.map fun s => (s.bound.name, ⟨source, s.kind.imported?, none⟩)
    | _ => []

end Whittle.Lowering

namespace Whittle.Syntax.Module

open Ir Lowering

/-- Lowers a module: its top-level statements become the entry function. -/
def lower (path : String) (m : Syntax.Module) (env : Environment) :
    Outcome (Ir.Module × Environment) := do
  let (entry, env) := env.newFunc
  let (block, env) := env.newBlock
  let start : State :=
    { env, scopes := [], outer := [], functions := ∅, exports := ∅
      frame := Frame.start (Function.start entry none none .module none block)
      globals := importsOf m.body }
  let (_, s) ← (inScope .function (lowerBody (.block m.body))).run start
  let function := (s.frame.close (.ret none)).recomputeFlow
  return ({ path, entry, functions := s.functions.insert entry function, globals := s.globals,
            exports := s.exports }, s.env)

end Whittle.Syntax.Module
