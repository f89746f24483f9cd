import Whittle.Syntax.Tree

/-!
# What statements and patterns bind

The names that a pattern binds, the variables that a function body hoists, and the shapes of
expressions and patterns that lowering treats specially.
-/

namespace Whittle.Syntax

mutual

/-- The names that a pattern binds, in source order. -/
def Pattern.bound : Pattern → List Ident
  | .name _ ident => [ident]
  | .array _ elements => Pattern.boundHoles elements
  | .object _ properties => PatternProperty.boundAll properties
  | .withDefault _ target _ => target.bound
  | .rest _ argument => argument.bound
  | .expression _ _ => []

/-- The names that the elements of an array pattern bind. -/
def Pattern.boundHoles : List (Option Pattern) → List Ident
  | [] => []
  | none :: ps => Pattern.boundHoles ps
  | some p :: ps => p.bound ++ Pattern.boundHoles ps

/-- The names that the properties of an object pattern bind. -/
def PatternProperty.boundAll : List PatternProperty → List Ident
  | [] => []
  | .keyValue _ value :: ps => value.bound ++ PatternProperty.boundAll ps
  | .rest argument :: ps => argument.bound ++ PatternProperty.boundAll ps

end

mutual

/-- Whether every target of a pattern is a name. -/
def Pattern.isPlain : Pattern → Bool
  | .name _ _ => true
  | .array _ elements => Pattern.isPlainHoles elements
  | .object _ properties => PatternProperty.isPlainAll properties
  | .withDefault _ target _ => target.isPlain
  | .rest _ argument => argument.isPlain
  | .expression _ _ => false

/-- Whether every target of the elements of an array pattern is a name. -/
def Pattern.isPlainHoles : List (Option Pattern) → Bool
  | [] => true
  | none :: ps => Pattern.isPlainHoles ps
  | some p :: ps => p.isPlain && Pattern.isPlainHoles ps

/-- Whether every target of the properties of an object pattern is a name. -/
def PatternProperty.isPlainAll : List PatternProperty → Bool
  | [] => true
  | .keyValue _ value :: ps => value.isPlain && PatternProperty.isPlainAll ps
  | .rest argument :: ps => argument.isPlain && PatternProperty.isPlainAll ps

end

/-- Expressions that may be evaluated early because nobody can tell. -/
def Expr.isSimple : Expr → Bool
  | .name _ _ => true
  | .literal _ _ => true
  | .unary _ op argument => op != .delete && argument.isSimple
  | .binary _ op left right => op.isPure && left.isSimple && right.isSimple
  | .logical _ _ left right => left.isSimple && right.isSimple
  | _ => false

/-- The names that declarators bind. -/
def Declarator.boundAll (declarators : List Declarator) : List Ident :=
  declarators.flatMap fun d => d.target.bound

/-- Adds the names that are not there yet. -/
def addNew (names more : List Ident) : List Ident :=
  more.foldl (fun ns i => if ns.any (·.name == i.name) then ns else ns ++ [i]) names

/-- Adds the names of a `var` declaration that are not there yet. -/
def addVars (names : List Ident) (kind : VarKind) (declarators : List Declarator) : List Ident :=
  if kind == .varKind then addNew names (Declarator.boundAll declarators) else names

/-- Adds the variables that a loop head declares for the whole function. -/
def ForHead.addHoisted (names : List Ident) : ForHead → List Ident
  | .declaration kind declarators => addVars names kind declarators
  | .expression _ => names

mutual

/-- Adds the variables that a statement declares for the whole function: `var` anywhere outside
nested functions. -/
def Stmt.addHoisted (names : List Ident) : Stmt → List Ident
  | .declaration _ kind declarators => addVars names kind declarators
  | .ifElse _ _ consequent alternate =>
    Stmt.addHoistedOpt (consequent.addHoisted names) alternate
  | .while _ _ body => body.addHoisted names
  | .doWhile _ body _ => body.addHoisted names
  | .for _ head _ _ body =>
    let names := match head with
      | some h => h.addHoisted names
      | none => names
    body.addHoisted names
  | .forEach _ head _ _ body => body.addHoisted (head.addHoisted names)
  | .block _ statements => Stmt.addHoistedAll names statements
  | .exportDeclaration _ inner => inner.addHoisted names
  | _ => names

/-- Adds the variables of a statement that may be missing. -/
def Stmt.addHoistedOpt (names : List Ident) : Option Stmt → List Ident
  | none => names
  | some s => s.addHoisted names

/-- Adds the variables of statements. -/
def Stmt.addHoistedAll (names : List Ident) : List Stmt → List Ident
  | [] => names
  | s :: ss => Stmt.addHoistedAll (s.addHoisted names) ss

end

/-- The variables that statements declare for the whole function, each once. -/
def Stmt.hoisted (statements : List Stmt) : List Ident := Stmt.addHoistedAll [] statements

/-- What declares a name for the statement list it stands in. -/
inductive LexicalKind where
  | letBinding
  | constBinding
  | classBinding
  | functionBinding
deriving DecidableEq, Repr

/-- A name declared for a statement list. -/
structure LexicalBinding where
  /-- What declares it. -/
  kind : LexicalKind
  /-- Where it is declared. -/
  ident : Ident
deriving DecidableEq

/-- The names that one statement declares for the list it stands in. -/
def Stmt.lexical : Stmt → List LexicalBinding
  | .declaration _ kind declarators =>
    match kind with
    | .varKind => []
    | .letKind => (Declarator.boundAll declarators).map (⟨.letBinding, ·⟩)
    | .constKind => (Declarator.boundAll declarators).map (⟨.constBinding, ·⟩)
  | .function _ f => f.name.toList.map (⟨.functionBinding, ·⟩)
  | .classDeclaration _ cls => cls.name.toList.map (⟨.classBinding, ·⟩)
  | .exportDeclaration _ inner => inner.lexical
  | _ => []

end Whittle.Syntax
