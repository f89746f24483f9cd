import Mathlib.Tactic.Common
import Whittle.Lowering.Build

/-!
# Dead zones

A variable of `let` or `const`, and a class, may not be used between the start of the scope it is declared for
and the end of the declarator, or of the class, that declares it.  `Early` says of a tree that a variable of a name
is used there all the same: read, assigned or exported, in the function that declares it and where no inner scope
declares the name again.

Trees that lowering keeps as they are written say nothing about the variables in them: classes, `do` loops, loops
over a subject, `throw`.  No use in them counts.
-/

namespace Whittle.Syntax

/-! ## Declared names -/

namespace LexicalBinding

/-- The names declared. -/
def names (bindings : List LexicalBinding) : List String := bindings.map (·.ident.name)

/-- The names declared that have a dead zone; functions have none. -/
def guarded (bindings : List LexicalBinding) : List String :=
  names (bindings.filter (·.kind != .functionBinding))

@[simp] theorem names_cons (b : LexicalBinding) (bindings : List LexicalBinding) :
    names (b :: bindings) = b.ident.name :: names bindings := rfl

theorem guarded_cons (b : LexicalBinding) (bindings : List LexicalBinding) :
    guarded (b :: bindings) =
      if b.kind = .functionBinding then guarded bindings else b.ident.name :: guarded bindings := by
  rw [guarded, List.filter_cons]
  by_cases hkind : b.kind = .functionBinding
  · simp [hkind, guarded]
  · simp [hkind, guarded, names]

end LexicalBinding

/-- The names whose dead zone the statement ends. -/
def Stmt.guarded (s : Stmt) : List String := LexicalBinding.guarded s.lexical

/-- The names that have a dead zone at the start of a statement list. -/
def Stmt.guardedAll (statements : List Stmt) : List String :=
  LexicalBinding.guarded (statements.flatMap Stmt.lexical)

/-- The names that have a scope of their own in a statement list. -/
def Stmt.scopedAll (statements : List Stmt) : List String :=
  LexicalBinding.names (statements.flatMap Stmt.lexical)

/-- The names that a declaration of the kind binds, if they have a dead zone. -/
def VarKind.guarded (kind : VarKind) (idents : List Ident) : List String :=
  if kind = .varKind then [] else idents.map (·.name)

theorem VarKind.guarded_append (kind : VarKind) (idents idents' : List Ident) :
    kind.guarded (idents ++ idents') = kind.guarded idents ++ kind.guarded idents' := by
  unfold guarded
  split
  · rfl
  · exact List.map_append

theorem VarKind.guarded_subset (kind : VarKind) (idents : List Ident) :
    kind.guarded idents ⊆ idents.map (·.name) := by
  unfold guarded
  split
  · exact List.nil_subset _
  · exact List.Subset.refl _

theorem Stmt.guarded_declaration (n : Node) (kind : VarKind) (declarators : List Declarator) :
    (Stmt.declaration n kind declarators).guarded = kind.guarded (Declarator.boundAll declarators) := by
  have hkeep (word : LexicalKind) (hword : word ≠ .functionBinding) (idents : List Ident) :
      LexicalBinding.guarded (idents.map (⟨word, ·⟩)) = idents.map (·.name) := by
    have hall : (idents.map (⟨word, ·⟩ : Ident → LexicalBinding)).filter (·.kind != .functionBinding) =
        idents.map (⟨word, ·⟩) := by
      refine List.filter_eq_self.2 fun b hb => ?_
      obtain ⟨ident, -, rfl⟩ := List.mem_map.1 hb
      simpa using hword
    rw [LexicalBinding.guarded, hall, LexicalBinding.names, List.map_map]
    rfl
  cases kind with
  | varKind => rfl
  | letKind => exact hkeep .letBinding nofun _
  | constKind => exact hkeep .constBinding nofun _

theorem Stmt.guarded_function (n : Node) (f : Func) : (Stmt.function n f).guarded = [] := by
  cases hname : f.name with
  | none => simp [guarded, lexical, LexicalBinding.guarded, LexicalBinding.names, hname]
  | some ident => simp [guarded, lexical, LexicalBinding.guarded, LexicalBinding.names, hname]

theorem Stmt.guarded_classDeclaration (n : Node) (cls : Class) :
    (Stmt.classDeclaration n cls).guarded = cls.name.toList.map (·.name) := by
  cases hname : cls.name with
  | none => simp [guarded, lexical, LexicalBinding.guarded, LexicalBinding.names, hname]
  | some ident => simp [guarded, lexical, LexicalBinding.guarded, LexicalBinding.names, hname]

/-- The names that have the loop for their scope. -/
def ForHead.scoped : Option ForHead → List String
  | some (.declaration kind declarators) => kind.guarded (Declarator.boundAll declarators)
  | _ => []

/-! ## Uses in a dead zone -/

mutual

/-- The expression uses the variable in its dead zone.  The proposition tells whether the name stands, where the
expression does, for a variable of the same function that is in its dead zone there. -/
def Expr.Early (x : String) (dead : Prop) : Expr → Prop
  | .name _ ident => dead ∧ ident.name = x
  | .literal _ _ => False
  | .array _ elements => Element.EarlyAll x dead elements
  | .object _ properties => Property.EarlyAll x dead properties
  | .function _ f => f.Early x
  | .unary _ _ argument => argument.Early x dead
  | .update _ _ _ argument => argument.Early x dead
  | .binary _ _ left right => left.Early x dead ∨ right.Early x dead
  | .logical _ _ left right => left.Early x dead ∨ right.Early x dead
  | .assign _ _ target value =>
    (dead ∧ x ∈ target.bound.map (·.name)) ∨ target.Early x dead ∨ value.Early x dead
  | .conditional _ test consequent alternate =>
    test.Early x dead ∨ consequent.Early x dead ∨ alternate.Early x dead
  | .call _ callee arguments => callee.Early x dead ∨ Element.EarlyAll x dead arguments
  | .construct _ callee arguments => callee.Early x dead ∨ Element.EarlyAll x dead arguments
  | .member _ object _ => object.Early x dead
  | .index _ object property => object.Early x dead ∨ property.Early x dead
  | .sequence _ expressions => Expr.EarlyAll x dead expressions
  | .this _ => False

/-- One of the expressions does. -/
def Expr.EarlyAll (x : String) (dead : Prop) : List Expr → Prop
  | [] => False
  | e :: es => e.Early x dead ∨ Expr.EarlyAll x dead es

/-- The expression that may be missing does. -/
def Expr.EarlyOpt (x : String) (dead : Prop) : Option Expr → Prop
  | none => False
  | some e => e.Early x dead

/-- One of the elements does. -/
def Element.EarlyAll (x : String) (dead : Prop) : List Element → Prop
  | [] => False
  | .one e :: es => e.Early x dead ∨ Element.EarlyAll x dead es
  | .spread e :: es => e.Early x dead ∨ Element.EarlyAll x dead es

/-- The key does. -/
def PropertyKey.Early (x : String) (dead : Prop) : PropertyKey → Prop
  | .computed e => e.Early x dead
  | .name _ | .string _ | .number _ => False

/-- One of the properties does. -/
def Property.EarlyAll (x : String) (dead : Prop) : List Property → Prop
  | [] => False
  | .keyValue key value _ :: ps => key.Early x dead ∨ value.Early x dead ∨ Property.EarlyAll x dead ps
  | .method key f :: ps => key.Early x dead ∨ f.Early x ∨ Property.EarlyAll x dead ps
  | .spread e :: ps => e.Early x dead ∨ Property.EarlyAll x dead ps

/-- An expression in the pattern does; the names that the pattern binds are no uses. -/
def Pattern.Early (x : String) (dead : Prop) : Pattern → Prop
  | .name _ _ => False
  | .array _ elements => Pattern.EarlyHoles x dead elements
  | .object _ properties => PatternProperty.EarlyAll x dead properties
  | .withDefault _ target value => target.Early x dead ∨ value.Early x dead
  | .rest _ argument => argument.Early x dead
  | .expression _ e => e.Early x dead

/-- One of the patterns does. -/
def Pattern.EarlyAll (x : String) (dead : Prop) : List Pattern → Prop
  | [] => False
  | p :: ps => p.Early x dead ∨ Pattern.EarlyAll x dead ps

/-- One of the elements of an array pattern does. -/
def Pattern.EarlyHoles (x : String) (dead : Prop) : List (Option Pattern) → Prop
  | [] => False
  | none :: ps => Pattern.EarlyHoles x dead ps
  | some p :: ps => p.Early x dead ∨ Pattern.EarlyHoles x dead ps

/-- One of the properties of an object pattern does. -/
def PatternProperty.EarlyAll (x : String) (dead : Prop) : List PatternProperty → Prop
  | [] => False
  | .keyValue key value :: ps => key.Early x dead ∨ value.Early x dead ∨ PatternProperty.EarlyAll x dead ps
  | .rest argument :: ps => argument.Early x dead ∨ PatternProperty.EarlyAll x dead ps

/-- The body of a function does. -/
def Body.Early (x : String) (dead : Prop) : Body → Prop
  | .block statements =>
    Stmt.EarlyAll x (x ∈ Stmt.guardedAll statements ∨ dead ∧ x ∉ Stmt.scopedAll statements) statements
  | .expression e => e.Early x dead

/-- The function does; what is dead around it is not its own. -/
def Func.Early (x : String) : Func → Prop
  | .mk _ _ params body _ => Pattern.EarlyAll x False params ∨ body.Early x False

/-- One of the declarators does; behind the declarator of the variable the dead zone is over. -/
def Declarator.EarlyAll (x : String) (kind : VarKind) (dead : Prop) : List Declarator → Prop
  | [] => False
  | .mk _ target value :: ds =>
    target.Early x dead ∨ Expr.EarlyOpt x dead value ∨
      Declarator.EarlyAll x kind (dead ∧ x ∉ kind.guarded target.bound) ds

/-- The head of a `for` statement does. -/
def ForHead.Early (x : String) (dead : Prop) : ForHead → Prop
  | .declaration kind declarators =>
    Declarator.EarlyAll x kind (dead ∨ x ∈ kind.guarded (Declarator.boundAll declarators)) declarators
  | .expression e => e.Early x dead

/-- The head that may be missing does. -/
def ForHead.EarlyOpt (x : String) (dead : Prop) : Option ForHead → Prop
  | none => False
  | some head => head.Early x dead

/-- The statement does. -/
def Stmt.Early (x : String) (dead : Prop) : Stmt → Prop
  | .declaration _ kind declarators => Declarator.EarlyAll x kind dead declarators
  | .function _ f => f.Early x
  | .return _ value => Expr.EarlyOpt x dead value
  | .ifElse _ test consequent alternate =>
    test.Early x dead ∨ consequent.Early x dead ∨ Stmt.EarlyOpt x dead alternate
  | .while _ test body => test.Early x dead ∨ body.Early x dead
  | .for _ head test update body =>
    ForHead.EarlyOpt x dead head ∨ Expr.EarlyOpt x (dead ∧ x ∉ ForHead.scoped head) test ∨
      body.Early x (dead ∧ x ∉ ForHead.scoped head) ∨
      Expr.EarlyOpt x (dead ∧ x ∉ ForHead.scoped head) update
  | .block _ statements =>
    Stmt.EarlyAll x (x ∈ Stmt.guardedAll statements ∨ dead ∧ x ∉ Stmt.scopedAll statements) statements
  | .expression _ e => e.Early x dead
  | .exportNames _ specifiers source => source = none ∧ dead ∧ ∃ s ∈ specifiers, s.bound.name = x
  | .exportDeclaration _ inner =>
    inner.Early x dead ∨ dead ∧ x ∉ inner.guarded ∧ x ∈ Lowering.publishedNames inner
  | .exportDefault _ e => e.Early x dead
  | .classDeclaration .. | .doWhile .. | .forEach .. | .break .. | .continue .. | .throw ..
  | .importFrom .. | .empty .. => False

/-- The statement that may be missing does. -/
def Stmt.EarlyOpt (x : String) (dead : Prop) : Option Stmt → Prop
  | none => False
  | some s => s.Early x dead

/-- One of the statements does; behind the statement that declares the variable the dead zone is over. -/
def Stmt.EarlyAll (x : String) (dead : Prop) : List Stmt → Prop
  | [] => False
  | s :: ss => s.Early x dead ∨ Stmt.EarlyAll x (dead ∧ x ∉ s.guarded) ss

end

/-- Somewhere in the module a variable is used in its dead zone. -/
def Module.Early (x : String) (m : Module) : Prop := (Body.block m.body).Early x False

end Whittle.Syntax
