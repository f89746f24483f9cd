import Mathlib.Algebra.GroupWithZero.Nat
import Mathlib.Tactic.Common
import Whittle.Emit.Instr

/-!
# Marks of code

What stands in a syntax tree, as a list of marks: the effects of its evaluation, and what it declares.
The code of a function leaves no marks where the function is created: it runs when the function is
called.  Counting and weighing code is done on its marks.
-/

namespace Whittle

/-- What the evaluation of code does that can be seen from outside. -/
inductive Effect where
  | call
  | construct
  /-- A property of a fixed name is read. -/
  | load (property : String)
  /-- A property of a fixed name is written. -/
  | store (property : String)
  /-- A property of a computed name is read. -/
  | loadAt
  /-- A property of a computed name is written. -/
  | storeAt
  /-- A variable is written by its name. -/
  | write (name : String)
deriving DecidableEq

namespace Syntax

/-- What stands in code. -/
inductive Mark where
  | call (callee : Expr)
  | construct
  | load (property : String)
  | store (property : String)
  | loadAt
  | storeAt
  | write (name : String)
  /-- A declaration of one pattern. -/
  | declare (kind : VarKind) (target : Pattern) (value : Option Expr)

/-- The effect that a mark stands for. -/
def Mark.effect? : Mark → Option Effect
  | .call _ => some .call
  | .construct => some .construct
  | .load property => some (.load property)
  | .store property => some (.store property)
  | .loadAt => some .loadAt
  | .storeAt => some .storeAt
  | .write name => some (.write name)
  | .declare .. => none

/-- The marks of the assignment to a plain target. -/
def Pattern.writes : Pattern → List Mark
  | .name _ ident => [.write ident.name]
  | _ => []

mutual

/-- The marks of an expression. -/
def Expr.marks : Expr → List Mark
  | .name _ _ | .literal _ _ | .function _ _ | .this _ => []
  | .array _ elements => Element.marksAll elements
  | .object _ properties => Property.marksAll properties
  | .unary _ _ argument => argument.marks
  | .update _ _ _ argument => argument.marks
  | .binary _ _ left right => left.marks ++ right.marks
  | .logical _ _ left right => left.marks ++ right.marks
  | .assign _ _ target value => target.marks ++ target.writes ++ value.marks
  | .conditional _ test consequent alternate => test.marks ++ consequent.marks ++ alternate.marks
  | .call _ callee arguments => callee.marks ++ Element.marksAll arguments ++ [.call callee]
  | .construct _ callee arguments => callee.marks ++ Element.marksAll arguments ++ [.construct]
  | .member _ object property => object.marks ++ [.load property]
  | .index _ object property => object.marks ++ property.marks ++ [.loadAt]
  | .sequence _ expressions => Expr.marksAll expressions

/-- The marks of expressions. -/
def Expr.marksAll : List Expr → List Mark
  | [] => []
  | e :: es => e.marks ++ Expr.marksAll es

/-- The marks of an expression that may be missing. -/
def Expr.marksOpt : Option Expr → List Mark
  | none => []
  | some e => e.marks

/-- The marks of elements. -/
def Element.marksAll : List Element → List Mark
  | [] => []
  | .one e :: es => e.marks ++ Element.marksAll es
  | .spread e :: es => e.marks ++ Element.marksAll es

/-- The marks of a key. -/
def PropertyKey.marks : PropertyKey → List Mark
  | .name _ | .string _ | .number _ => []
  | .computed e => e.marks

/-- The marks of properties. -/
def Property.marksAll : List Property → List Mark
  | [] => []
  | .keyValue key value _ :: ps => key.marks ++ value.marks ++ Property.marksAll ps
  | .method key _ :: ps => key.marks ++ Property.marksAll ps
  | .spread e :: ps => e.marks ++ Property.marksAll ps

/-- The marks of a pattern; that it writes the variables that it names is left out. -/
def Pattern.marks : Pattern → List Mark
  | .name _ _ => []
  | .array _ elements => Pattern.marksHoles elements
  | .object _ properties => PatternProperty.marksAll properties
  | .withDefault _ target value => target.marks ++ value.marks
  | .rest _ argument => argument.marks
  | .expression _ (.member _ object property) => object.marks ++ [.store property]
  | .expression _ (.index _ object property) => object.marks ++ property.marks ++ [.storeAt]
  | .expression _ e => e.marks

/-- The marks of the elements of an array pattern. -/
def Pattern.marksHoles : List (Option Pattern) → List Mark
  | [] => []
  | none :: ps => Pattern.marksHoles ps
  | some p :: ps => p.marks ++ Pattern.marksHoles ps

/-- The marks of the properties of an object pattern. -/
def PatternProperty.marksAll : List PatternProperty → List Mark
  | [] => []
  | .keyValue key value :: ps => key.marks ++ value.marks ++ PatternProperty.marksAll ps
  | .rest argument :: ps => argument.marks ++ PatternProperty.marksAll ps

/-- The marks of declarators. -/
def Declarator.marksAll (kind : VarKind) : List Declarator → List Mark
  | [] => []
  | .mk _ target value :: ds =>
    target.marks ++ Expr.marksOpt value ++ [.declare kind target value] ++ Declarator.marksAll kind ds

/-- The marks of a loop head. -/
def ForHead.marks : ForHead → List Mark
  | .declaration kind declarators => Declarator.marksAll kind declarators
  | .expression e => e.marks

/-- The marks of a loop head that may be missing. -/
def ForHead.marksOpt : Option ForHead → List Mark
  | none => []
  | some head => head.marks

/-- The marks of the keys of methods. -/
def Method.marksAll : List Method → List Mark
  | [] => []
  | .mk _ key _ :: ms => key.marks ++ Method.marksAll ms

/-- The marks of a class. -/
def Class.marks : Class → List Mark
  | .mk _ _ parent methods => Expr.marksOpt parent ++ Method.marksAll methods

/-- The marks of a statement. -/
def Stmt.marks : Stmt → List Mark
  | .declaration _ kind declarators => Declarator.marksAll kind declarators
  | .function _ _ => []
  | .classDeclaration _ cls => cls.marks
  | .return _ value => Expr.marksOpt value
  | .ifElse _ test consequent alternate => test.marks ++ consequent.marks ++ Stmt.marksOpt alternate
  | .while _ test body => test.marks ++ body.marks
  | .doWhile _ body test => body.marks ++ test.marks
  | .for _ head test update body =>
    ForHead.marksOpt head ++ Expr.marksOpt test ++ Expr.marksOpt update ++ body.marks
  | .forEach _ head _ subject body => head.marks ++ subject.marks ++ body.marks
  | .block _ statements => Stmt.marksAll statements
  | .break _ _ | .continue _ _ | .importFrom _ _ _ | .exportNames _ _ _ | .empty _ => []
  | .throw _ e | .expression _ e | .exportDefault _ e => e.marks
  | .exportDeclaration _ inner => inner.marks

/-- The marks of a statement that may be missing. -/
def Stmt.marksOpt : Option Stmt → List Mark
  | none => []
  | some s => s.marks

/-- The marks of statements. -/
def Stmt.marksAll : List Stmt → List Mark
  | [] => []
  | s :: ss => s.marks ++ Stmt.marksAll ss

end

/-! ## Accesses -/

/-- How a property is read: by a fixed name or by a computed one. -/
inductive Access where
  | named (property : String)
  | computed
deriving DecidableEq

/-- The access that an expression is. -/
def Expr.access? : Expr → Option Access
  | .member _ _ property => some (.named property)
  | .index _ _ _ => some .computed
  | _ => none

/-! ## Weighing -/

/-- How much marks weigh together. -/
def weigh (k : Mark → Nat) (marks : List Mark) : Nat := (marks.map k).sum

section Weigh

variable (k : Mark → Nat)

@[simp] theorem weigh_nil : weigh k [] = 0 := rfl

@[simp] theorem weigh_cons (mark : Mark) (marks : List Mark) :
    weigh k (mark :: marks) = k mark + weigh k marks := by
  rw [weigh, List.map_cons, List.sum_cons, weigh]

@[simp] theorem weigh_append (xs ys : List Mark) : weigh k (xs ++ ys) = weigh k xs + weigh k ys := by
  rw [weigh, List.map_append, List.sum_append_nat, weigh, weigh]

/-- Weighing one for each mark of a kind is counting. -/
theorem weigh_eq_countP (p : Mark → Bool) (marks : List Mark) :
    weigh (fun mark => if p mark = true then 1 else 0) marks = marks.countP p := by
  induction marks with
  | nil => rfl
  | cons mark marks ih => rw [weigh_cons, ih, List.countP_cons, Nat.add_comm]

theorem weigh_marksAll_append (ss ts : List Stmt) :
    weigh k (Stmt.marksAll (ss ++ ts)) = weigh k (Stmt.marksAll ss) + weigh k (Stmt.marksAll ts) := by
  induction ss with
  | nil => simp [Stmt.marksAll]
  | cons s ss ih =>
    simp only [List.cons_append, Stmt.marksAll, weigh_append, ih]
    omega

@[simp] theorem weigh_marksAll_reverse (ss : List Stmt) :
    weigh k (Stmt.marksAll ss.reverse) = weigh k (Stmt.marksAll ss) := by
  induction ss with
  | nil => rfl
  | cons s ss ih =>
    simp only [List.reverse_cons, weigh_marksAll_append, ih, Stmt.marksAll, weigh_append, weigh_nil]
    omega

end Weigh

end Syntax

/-- The access that an operation is. -/
def Ir.Op.access? : Ir.Op → Option Syntax.Access
  | .propertyLoad _ property => some (.named property)
  | .computedLoad _ _ => some .computed
  | _ => none

namespace Emit

open Ir Syntax

/-- The renaming under which kept source is written down, given the names of the variables. -/
def keptRenaming (written : DeclId → Option String) (env : Environment) (place : Place)
    (bindings : List (String × Place)) : String → String :=
  let name (p : Place) : String := (written p.declaration).getD ""
  let pairs := bindings.map fun b => (b.1, name b.2)
  let own :=
    if env.isTemporary place.declaration then []
    else (env.nameOf place.declaration).toList.map fun n => (n, name place)
  renamedBy ((pairs ++ own).filter fun p => p.1 != p.2)

/-- The marks of kept source once its variables are renamed. -/
def keptMarks (r : String → String) : Verbatim → List Mark
  | .statement s => (s.rename r).marks
  | .expression e => (e.rename r).marks

/-- The effects of an instruction. -/
def instrEffects (written : DeclId → Option String) (env : Environment) (i : Instr) : List Effect :=
  match i.op with
  | .call _ _ => [.call]
  | .construct _ _ => [.construct]
  | .propertyLoad _ property => [.load property]
  | .propertyStore _ property _ => [.store property]
  | .computedLoad _ _ => [.loadAt]
  | .computedStore _ _ _ => [.storeAt]
  | .storeGlobal name _ => [.write name]
  | .unsupported source bindings =>
    (keptMarks (keptRenaming written env i.place bindings) source).filterMap Mark.effect?
  | _ => []

end Emit

end Whittle
