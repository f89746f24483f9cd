import Whittle.Syntax.Tree

/-!
# Names in a tree

`names` lists the variable names of a tree in the order of a walk from left to right; a loop's test
comes before its body, also where the text has them the other way round.  Property names, labels and
the names of a re-export are no variables and are left out.

`rename` replaces the same names.  A property written in short form says its name twice, so it gets
the long form when its value is renamed.
-/

namespace Whittle.Syntax

mutual

/-- Variable names of an expression. -/
def Expr.names : Expr → List Ident
  | .name _ ident => [ident]
  | .literal _ _ => []
  | .array _ elements => Element.namesAll elements
  | .object _ properties => Property.namesAll properties
  | .function _ f => f.names
  | .unary _ _ argument => argument.names
  | .update _ _ _ argument => argument.names
  | .binary _ _ left right => left.names ++ right.names
  | .logical _ _ left right => left.names ++ right.names
  | .assign _ _ target value => target.names ++ value.names
  | .conditional _ test consequent alternate =>
    test.names ++ consequent.names ++ alternate.names
  | .call _ callee arguments => callee.names ++ Element.namesAll arguments
  | .construct _ callee arguments => callee.names ++ Element.namesAll arguments
  | .member _ object _ => object.names
  | .index _ object property => object.names ++ property.names
  | .sequence _ expressions => Expr.namesAll expressions
  | .this _ => []

/-- Variable names of expressions. -/
def Expr.namesAll : List Expr → List Ident
  | [] => []
  | e :: es => e.names ++ Expr.namesAll es

/-- Variable names of an expression that may be missing. -/
def Expr.namesOpt : Option Expr → List Ident
  | none => []
  | some e => e.names

/-- Variable names of elements. -/
def Element.namesAll : List Element → List Ident
  | [] => []
  | .one e :: es => e.names ++ Element.namesAll es
  | .spread e :: es => e.names ++ Element.namesAll es

/-- Variable names of a key. -/
def PropertyKey.names : PropertyKey → List Ident
  | .name _ => []
  | .string _ => []
  | .number _ => []
  | .computed e => e.names

/-- Variable names of properties. -/
def Property.namesAll : List Property → List Ident
  | [] => []
  | .keyValue key value _ :: ps => key.names ++ value.names ++ Property.namesAll ps
  | .method key function :: ps => key.names ++ function.names ++ Property.namesAll ps
  | .spread e :: ps => e.names ++ Property.namesAll ps

/-- Variable names of a pattern. -/
def Pattern.names : Pattern → List Ident
  | .name _ ident => [ident]
  | .array _ elements => Pattern.namesHoles elements
  | .object _ properties => PatternProperty.namesAll properties
  | .withDefault _ target value => target.names ++ value.names
  | .rest _ argument => argument.names
  | .expression _ e => e.names

/-- Variable names of patterns. -/
def Pattern.namesAll : List Pattern → List Ident
  | [] => []
  | p :: ps => p.names ++ Pattern.namesAll ps

/-- Variable names of the elements of an array pattern. -/
def Pattern.namesHoles : List (Option Pattern) → List Ident
  | [] => []
  | none :: ps => Pattern.namesHoles ps
  | some p :: ps => p.names ++ Pattern.namesHoles ps

/-- Variable names of the properties of an object pattern. -/
def PatternProperty.namesAll : List PatternProperty → List Ident
  | [] => []
  | .keyValue key value :: ps => key.names ++ value.names ++ PatternProperty.namesAll ps
  | .rest argument :: ps => argument.names ++ PatternProperty.namesAll ps

/-- Variable names of a function body. -/
def Body.names : Body → List Ident
  | .block statements => Stmt.namesAll statements
  | .expression e => e.names

/-- Variable names of a function, its own name first. -/
def Func.names : Func → List Ident
  | .mk _ name params body _ => name.toList ++ Pattern.namesAll params ++ body.names

/-- Variable names of declarators. -/
def Declarator.namesAll : List Declarator → List Ident
  | [] => []
  | .mk _ target value :: ds => target.names ++ Expr.namesOpt value ++ Declarator.namesAll ds

/-- Variable names of a loop head. -/
def ForHead.names : ForHead → List Ident
  | .declaration _ declarators => Declarator.namesAll declarators
  | .expression e => e.names

/-- Variable names of a loop head that may be missing. -/
def ForHead.namesOpt : Option ForHead → List Ident
  | none => []
  | some head => head.names

/-- Variable names of methods. -/
def Method.namesAll : List Method → List Ident
  | [] => []
  | .mk _ key function :: ms => key.names ++ function.names ++ Method.namesAll ms

/-- Variable names of a class, its own name first. -/
def Class.names : Class → List Ident
  | .mk _ name parent methods => name.toList ++ Expr.namesOpt parent ++ Method.namesAll methods

/-- Variable names of a statement. -/
def Stmt.names : Stmt → List Ident
  | .declaration _ _ declarators => Declarator.namesAll declarators
  | .function _ f => f.names
  | .classDeclaration _ cls => cls.names
  | .return _ value => Expr.namesOpt value
  | .ifElse _ test consequent alternate =>
    test.names ++ consequent.names ++ Stmt.namesOpt alternate
  | .while _ test body => test.names ++ body.names
  | .doWhile _ body test => test.names ++ body.names
  | .for _ head test update body =>
    ForHead.namesOpt head ++ Expr.namesOpt test ++ Expr.namesOpt update ++ body.names
  | .forEach _ head _ subject body => head.names ++ subject.names ++ body.names
  | .block _ statements => Stmt.namesAll statements
  | .break _ _ => []
  | .continue _ _ => []
  | .throw _ e => e.names
  | .expression _ e => e.names
  | .importFrom _ specifiers _ => specifiers.map (·.bound)
  | .exportNames _ specifiers source =>
    if source.isNone then specifiers.map (·.bound) else []
  | .exportDeclaration _ inner => inner.names
  | .exportDefault _ e => e.names
  | .empty _ => []

/-- Variable names of a statement that may be missing. -/
def Stmt.namesOpt : Option Stmt → List Ident
  | none => []
  | some s => s.names

/-- Variable names of statements. -/
def Stmt.namesAll : List Stmt → List Ident
  | [] => []
  | s :: ss => s.names ++ Stmt.namesAll ss

end

/-! ## Renaming -/

/-- Replaces the name of one occurrence. -/
def Ident.rename (r : String → String) (ident : Ident) : Ident := ⟨ident.node, r ident.name⟩

/-- Whether a property may be written in short form: the key is the name that is its value. -/
def PropertyKey.isNamed (key : PropertyKey) (value : Expr) : Bool :=
  match key, value with
  | .name k, .name _ ident => k == ident.name
  | _, _ => false

mutual

/-- Renames the variables of an expression. -/
def Expr.rename (r : String → String) : Expr → Expr
  | .name n ident => .name n (ident.rename r)
  | .literal n value => .literal n value
  | .array n elements => .array n (Element.renameAll r elements)
  | .object n properties => .object n (Property.renameAll r properties)
  | .function n f => .function n (f.rename r)
  | .unary n op argument => .unary n op (argument.rename r)
  | .update n op before argument => .update n op before (argument.rename r)
  | .binary n op left right => .binary n op (left.rename r) (right.rename r)
  | .logical n op left right => .logical n op (left.rename r) (right.rename r)
  | .assign n op target value => .assign n op (target.rename r) (value.rename r)
  | .conditional n test consequent alternate =>
    .conditional n (test.rename r) (consequent.rename r) (alternate.rename r)
  | .call n callee arguments => .call n (callee.rename r) (Element.renameAll r arguments)
  | .construct n callee arguments =>
    .construct n (callee.rename r) (Element.renameAll r arguments)
  | .member n object property => .member n (object.rename r) property
  | .index n object property => .index n (object.rename r) (property.rename r)
  | .sequence n expressions => .sequence n (Expr.renameAll r expressions)
  | .this n => .this n

/-- Renames the variables of expressions. -/
def Expr.renameAll (r : String → String) : List Expr → List Expr
  | [] => []
  | e :: es => e.rename r :: Expr.renameAll r es

/-- Renames the variables of an expression that may be missing. -/
def Expr.renameOpt (r : String → String) : Option Expr → Option Expr
  | none => none
  | some e => some (e.rename r)

/-- Renames the variables of elements. -/
def Element.renameAll (r : String → String) : List Element → List Element
  | [] => []
  | .one e :: es => .one (e.rename r) :: Element.renameAll r es
  | .spread e :: es => .spread (e.rename r) :: Element.renameAll r es

/-- Renames the variables of a key. -/
def PropertyKey.rename (r : String → String) : PropertyKey → PropertyKey
  | .name text => .name text
  | .string text => .string text
  | .number value => .number value
  | .computed e => .computed (e.rename r)

/-- Renames the variables of properties. -/
def Property.renameAll (r : String → String) : List Property → List Property
  | [] => []
  | .keyValue key value shorthand :: ps =>
    let key := key.rename r
    let value := value.rename r
    .keyValue key value (shorthand && key.isNamed value) :: Property.renameAll r ps
  | .method key function :: ps =>
    .method (key.rename r) (function.rename r) :: Property.renameAll r ps
  | .spread e :: ps => .spread (e.rename r) :: Property.renameAll r ps

/-- Renames the variables of a pattern. -/
def Pattern.rename (r : String → String) : Pattern → Pattern
  | .name n ident => .name n (ident.rename r)
  | .array n elements => .array n (Pattern.renameHoles r elements)
  | .object n properties => .object n (PatternProperty.renameAll r properties)
  | .withDefault n target value => .withDefault n (target.rename r) (value.rename r)
  | .rest n argument => .rest n (argument.rename r)
  | .expression n e => .expression n (e.rename r)

/-- Renames the variables of patterns. -/
def Pattern.renameAll (r : String → String) : List Pattern → List Pattern
  | [] => []
  | p :: ps => p.rename r :: Pattern.renameAll r ps

/-- Renames the variables of the elements of an array pattern. -/
def Pattern.renameHoles (r : String → String) : List (Option Pattern) → List (Option Pattern)
  | [] => []
  | none :: ps => none :: Pattern.renameHoles r ps
  | some p :: ps => some (p.rename r) :: Pattern.renameHoles r ps

/-- Renames the variables of the properties of an object pattern. -/
def PatternProperty.renameAll (r : String → String) : List PatternProperty → List PatternProperty
  | [] => []
  | .keyValue key value :: ps =>
    .keyValue (key.rename r) (value.rename r) :: PatternProperty.renameAll r ps
  | .rest argument :: ps => .rest (argument.rename r) :: PatternProperty.renameAll r ps

/-- Renames the variables of a function body. -/
def Body.rename (r : String → String) : Body → Body
  | .block statements => .block (Stmt.renameAll r statements)
  | .expression e => .expression (e.rename r)

/-- Renames the variables of a function. -/
def Func.rename (r : String → String) : Func → Func
  | .mk n name params body isArrow =>
    .mk n (name.map (·.rename r)) (Pattern.renameAll r params) (body.rename r) isArrow

/-- Renames the variables of declarators. -/
def Declarator.renameAll (r : String → String) : List Declarator → List Declarator
  | [] => []
  | .mk n target value :: ds =>
    .mk n (target.rename r) (Expr.renameOpt r value) :: Declarator.renameAll r ds

/-- Renames the variables of a loop head. -/
def ForHead.rename (r : String → String) : ForHead → ForHead
  | .declaration kind declarators => .declaration kind (Declarator.renameAll r declarators)
  | .expression e => .expression (e.rename r)

/-- Renames the variables of a loop head that may be missing. -/
def ForHead.renameOpt (r : String → String) : Option ForHead → Option ForHead
  | none => none
  | some head => some (head.rename r)

/-- Renames the variables of methods. -/
def Method.renameAll (r : String → String) : List Method → List Method
  | [] => []
  | .mk isStatic key function :: ms =>
    .mk isStatic (key.rename r) (function.rename r) :: Method.renameAll r ms

/-- Renames the variables of a class. -/
def Class.rename (r : String → String) : Class → Class
  | .mk n name parent methods =>
    .mk n (name.map (·.rename r)) (Expr.renameOpt r parent) (Method.renameAll r methods)

/-- Renames the variables of a statement. -/
def Stmt.rename (r : String → String) : Stmt → Stmt
  | .declaration n kind declarators => .declaration n kind (Declarator.renameAll r declarators)
  | .function n f => .function n (f.rename r)
  | .classDeclaration n cls => .classDeclaration n (cls.rename r)
  | .return n value => .return n (Expr.renameOpt r value)
  | .ifElse n test consequent alternate =>
    .ifElse n (test.rename r) (consequent.rename r) (Stmt.renameOpt r alternate)
  | .while n test body => .while n (test.rename r) (body.rename r)
  | .doWhile n body test => .doWhile n (body.rename r) (test.rename r)
  | .for n head test update body =>
    .for n (ForHead.renameOpt r head) (Expr.renameOpt r test) (Expr.renameOpt r update)
      (body.rename r)
  | .forEach n head isOf subject body =>
    .forEach n (head.rename r) isOf (subject.rename r) (body.rename r)
  | .block n statements => .block n (Stmt.renameAll r statements)
  | .break n label => .break n label
  | .continue n label => .continue n label
  | .throw n e => .throw n (e.rename r)
  | .expression n e => .expression n (e.rename r)
  | .importFrom n specifiers source =>
    .importFrom n (specifiers.map fun s => ⟨s.kind, s.bound.rename r⟩) source
  | .exportNames n specifiers source =>
    if source.isNone then
      .exportNames n (specifiers.map fun s => ⟨s.bound.rename r, s.exported⟩) source
    else .exportNames n specifiers source
  | .exportDeclaration n inner => .exportDeclaration n (inner.rename r)
  | .exportDefault n e => .exportDefault n (e.rename r)
  | .empty n => .empty n

/-- Renames the variables of a statement that may be missing. -/
def Stmt.renameOpt (r : String → String) : Option Stmt → Option Stmt
  | none => none
  | some s => some (s.rename r)

/-- Renames the variables of statements. -/
def Stmt.renameAll (r : String → String) : List Stmt → List Stmt
  | [] => []
  | s :: ss => s.rename r :: Stmt.renameAll r ss

end

end Whittle.Syntax
