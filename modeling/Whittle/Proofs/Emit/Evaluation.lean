import Whittle.Proofs.Emit.Effects

/-!
# Effects in the order of evaluation

What code does when it is evaluated from left to right.  The operands of an expression come before its
own effect; an assignment evaluates the object and the key of its target first, then the value, and
writes last.  Both arms of a conditional are listed, and the body of a loop once.
-/

namespace Whittle

namespace Syntax

mutual

/-- The effects of an expression. -/
def Expr.effects : Expr → List Effect
  | .name _ _ | .literal _ _ | .function _ _ | .this _ => []
  | .array _ elements => Element.effectsAll elements
  | .object _ properties => Property.effectsAll properties
  | .unary _ _ argument | .update _ _ _ argument => argument.effects
  | .binary _ _ left right | .logical _ _ left right => left.effects ++ right.effects
  | .assign _ _ (.name _ ident) value => value.effects ++ [.write ident.name]
  | .assign _ _ (.expression _ (.member _ object property)) value =>
    object.effects ++ value.effects ++ [.store property]
  | .assign _ _ (.expression _ (.index _ object property)) value =>
    object.effects ++ property.effects ++ value.effects ++ [.storeAt]
  | .assign _ _ target value => value.effects ++ target.effects
  | .conditional _ test consequent alternate =>
    test.effects ++ consequent.effects ++ alternate.effects
  | .call _ callee arguments => callee.effects ++ Element.effectsAll arguments ++ [.call]
  | .construct _ callee arguments => callee.effects ++ Element.effectsAll arguments ++ [.construct]
  | .member _ object property => object.effects ++ [.load property]
  | .index _ object property => object.effects ++ property.effects ++ [.loadAt]
  | .sequence _ expressions => Expr.effectsAll expressions

/-- The effects of expressions. -/
def Expr.effectsAll : List Expr → List Effect
  | [] => []
  | e :: es => e.effects ++ Expr.effectsAll es

/-- The effects of an expression that may be missing. -/
def Expr.effectsOpt : Option Expr → List Effect
  | none => []
  | some e => e.effects

/-- The effects of elements. -/
def Element.effectsAll : List Element → List Effect
  | [] => []
  | .one e :: es | .spread e :: es => e.effects ++ Element.effectsAll es

/-- The effects of a key. -/
def PropertyKey.effects : PropertyKey → List Effect
  | .name _ | .string _ | .number _ => []
  | .computed e => e.effects

/-- The effects of properties. -/
def Property.effectsAll : List Property → List Effect
  | [] => []
  | .keyValue key value _ :: ps => key.effects ++ value.effects ++ Property.effectsAll ps
  | .method key _ :: ps => key.effects ++ Property.effectsAll ps
  | .spread e :: ps => e.effects ++ Property.effectsAll ps

/-- The effects of taking a value apart; that the variables of the pattern are written is left out. -/
def Pattern.effects : Pattern → List Effect
  | .name _ _ => []
  | .array _ elements => Pattern.effectsHoles elements
  | .object _ properties => PatternProperty.effectsAll properties
  | .withDefault _ target value => value.effects ++ target.effects
  | .rest _ argument => argument.effects
  | .expression _ (.member _ object property) => object.effects ++ [.store property]
  | .expression _ (.index _ object property) => object.effects ++ property.effects ++ [.storeAt]
  | .expression _ e => e.effects

/-- The effects of the elements of an array pattern. -/
def Pattern.effectsHoles : List (Option Pattern) → List Effect
  | [] => []
  | none :: ps => Pattern.effectsHoles ps
  | some p :: ps => p.effects ++ Pattern.effectsHoles ps

/-- The effects of the properties of an object pattern. -/
def PatternProperty.effectsAll : List PatternProperty → List Effect
  | [] => []
  | .keyValue key value :: ps => key.effects ++ value.effects ++ PatternProperty.effectsAll ps
  | .rest argument :: ps => argument.effects ++ PatternProperty.effectsAll ps

/-- The effects of declarators. -/
def Declarator.effectsAll : List Declarator → List Effect
  | [] => []
  | .mk _ target value :: ds =>
    Expr.effectsOpt value ++ target.effects ++ Declarator.effectsAll ds

/-- The effects of a loop head. -/
def ForHead.effects : ForHead → List Effect
  | .declaration _ declarators => Declarator.effectsAll declarators
  | .expression e => e.effects

/-- The effects of a loop head that may be missing. -/
def ForHead.effectsOpt : Option ForHead → List Effect
  | none => []
  | some head => head.effects

/-- The effects of the keys of methods. -/
def Method.effectsAll : List Method → List Effect
  | [] => []
  | .mk _ key _ :: ms => key.effects ++ Method.effectsAll ms

/-- The effects of a class. -/
def Class.effects : Class → List Effect
  | .mk _ _ parent methods => Expr.effectsOpt parent ++ Method.effectsAll methods

/-- The effects of a statement. -/
def Stmt.effects : Stmt → List Effect
  | .declaration _ _ declarators => Declarator.effectsAll declarators
  | .function _ _ => []
  | .classDeclaration _ cls => cls.effects
  | .return _ value => Expr.effectsOpt value
  | .ifElse _ test consequent alternate =>
    test.effects ++ consequent.effects ++ Stmt.effectsOpt alternate
  | .while _ test body => test.effects ++ body.effects
  | .doWhile _ body test => body.effects ++ test.effects
  | .for _ head test update body =>
    ForHead.effectsOpt head ++ Expr.effectsOpt test ++ body.effects ++ Expr.effectsOpt update
  | .forEach _ head _ subject body => subject.effects ++ head.effects ++ body.effects
  | .block _ statements => Stmt.effectsAll statements
  | .break _ _ | .continue _ _ | .importFrom _ _ _ | .exportNames _ _ _ | .empty _ => []
  | .throw _ e | .expression _ e | .exportDefault _ e => e.effects
  | .exportDeclaration _ inner => inner.effects

/-- The effects of a statement that may be missing. -/
def Stmt.effectsOpt : Option Stmt → List Effect
  | none => []
  | some s => s.effects

/-- The effects of statements. -/
def Stmt.effectsAll : List Stmt → List Effect
  | [] => []
  | s :: ss => s.effects ++ Stmt.effectsAll ss

end

theorem Stmt.effectsAll_append (ss ts : List Stmt) :
    Stmt.effectsAll (ss ++ ts) = Stmt.effectsAll ss ++ Stmt.effectsAll ts := by
  induction ss with
  | nil => rfl
  | cons s ss ih => rw [List.cons_append, Stmt.effectsAll, Stmt.effectsAll, ih, List.append_assoc]

end Syntax

namespace Emit

open Ir Syntax

/-- The effects of kept source once its variables are renamed. -/
def keptEffects (r : String → String) : Verbatim → List Effect
  | .statement s => (s.rename r).effects
  | .expression e => (e.rename r).effects

/-- The effects of an instruction, in the order in which kept source has them. -/
def effectsOf (written : DeclId → Option String) (env : Environment) (i : Instr) : List Effect :=
  match i.op with
  | .unsupported source bindings => keptEffects (keptRenaming written env i.place bindings) source
  | _ => instrEffects written env i

end Emit

end Whittle
