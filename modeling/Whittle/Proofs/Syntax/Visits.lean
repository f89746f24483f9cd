import Mathlib.Data.List.Forall2
import Mathlib.Tactic.Common
import Whittle.Syntax.Names

/-!
# Visitors of a tree

A visitor has a state of its own.  It is shown the names of a tree one after the other, and may put another name
in the place of each.  `traverse` walks with any visitor; renaming is the walk with a visitor that has no state.
What source code kept as it stands is analysed with and what it is renamed with are two walks, and here they stay
in step: both meet the names that `names` lists, in its order.

The induction is over the tree, once: `Facts` says everything that is to be said about one piece, in terms of
values, so that the facts of a node follow from those of its parts in the way in which the node is put together
(`Facts.pure`, `Facts.map`, `Facts.seq`).

Main statement: `Stmt.visitors_agree`.
-/

namespace Whittle.Syntax

/-! ## Walking with a visitor -/

section

variable {m : Type → Type} [Applicative m] (visit : Ident → m Ident) (mark : PropertyKey → Expr → Bool → Bool)

/-- Shows a name that may be missing to the visitor. -/
def Ident.traverseOpt : Option Ident → m (Option Ident)
  | none => pure none
  | some ident => some <$> visit ident

/-- Shows the names that an import binds to the visitor. -/
def ImportSpecifier.traverseAll : List ImportSpecifier → m (List ImportSpecifier)
  | [] => pure []
  | s :: ss => (fun bound ss => ⟨s.kind, bound⟩ :: ss) <$> visit s.bound <*> ImportSpecifier.traverseAll ss

/-- Shows the names that an export publishes to the visitor. -/
def ExportSpecifier.traverseAll : List ExportSpecifier → m (List ExportSpecifier)
  | [] => pure []
  | s :: ss => (fun bound ss => ⟨bound, s.exported⟩ :: ss) <$> visit s.bound <*> ExportSpecifier.traverseAll ss

mutual

/-- Shows the variable names of an expression to the visitor and puts its answers in their places.  The mark of
each property of an object literal is set anew from its key and value as they are then. -/
def Expr.traverse : Expr → m Expr
  | .name n ident => .name n <$> visit ident
  | .literal n value => pure (.literal n value)
  | .array n elements => .array n <$> Element.traverseAll elements
  | .object n properties => .object n <$> Property.traverseAll properties
  | .function n f => .function n <$> f.traverse
  | .unary n op argument => .unary n op <$> argument.traverse
  | .update n op before argument => .update n op before <$> argument.traverse
  | .binary n op left right => .binary n op <$> left.traverse <*> right.traverse
  | .logical n op left right => .logical n op <$> left.traverse <*> right.traverse
  | .assign n op target value => .assign n op <$> target.traverse <*> value.traverse
  | .conditional n test consequent alternate =>
    .conditional n <$> test.traverse <*> consequent.traverse <*> alternate.traverse
  | .call n callee arguments => .call n <$> callee.traverse <*> Element.traverseAll arguments
  | .construct n callee arguments => .construct n <$> callee.traverse <*> Element.traverseAll arguments
  | .member n object property => (.member n · property) <$> object.traverse
  | .index n object property => .index n <$> object.traverse <*> property.traverse
  | .sequence n expressions => .sequence n <$> Expr.traverseAll expressions
  | .this n => pure (.this n)

/-- Walks through expressions. -/
def Expr.traverseAll : List Expr → m (List Expr)
  | [] => pure []
  | e :: es => List.cons <$> e.traverse <*> Expr.traverseAll es

/-- Walks through an expression that may be missing. -/
def Expr.traverseOpt : Option Expr → m (Option Expr)
  | none => pure none
  | some e => some <$> e.traverse

/-- Walks through elements. -/
def Element.traverseAll : List Element → m (List Element)
  | [] => pure []
  | .one e :: es => (.one · :: ·) <$> e.traverse <*> Element.traverseAll es
  | .spread e :: es => (.spread · :: ·) <$> e.traverse <*> Element.traverseAll es

/-- Walks through a key. -/
def PropertyKey.traverse : PropertyKey → m PropertyKey
  | .name text => pure (.name text)
  | .string text => pure (.string text)
  | .number value => pure (.number value)
  | .computed e => .computed <$> e.traverse

/-- Walks through properties. -/
def Property.traverseAll : List Property → m (List Property)
  | [] => pure []
  | .keyValue key value short :: ps =>
    (fun key value ps => .keyValue key value (mark key value short) :: ps) <$>
      key.traverse <*> value.traverse <*> Property.traverseAll ps
  | .method key f :: ps => (.method · · :: ·) <$> key.traverse <*> f.traverse <*> Property.traverseAll ps
  | .spread e :: ps => (.spread · :: ·) <$> e.traverse <*> Property.traverseAll ps

/-- Walks through a pattern. -/
def Pattern.traverse : Pattern → m Pattern
  | .name n ident => .name n <$> visit ident
  | .array n elements => .array n <$> Pattern.traverseHoles elements
  | .object n properties => .object n <$> PatternProperty.traverseAll properties
  | .withDefault n target value => .withDefault n <$> target.traverse <*> value.traverse
  | .rest n argument => .rest n <$> argument.traverse
  | .expression n e => .expression n <$> e.traverse

/-- Walks through patterns. -/
def Pattern.traverseAll : List Pattern → m (List Pattern)
  | [] => pure []
  | p :: ps => List.cons <$> p.traverse <*> Pattern.traverseAll ps

/-- Walks through the elements of an array pattern. -/
def Pattern.traverseHoles : List (Option Pattern) → m (List (Option Pattern))
  | [] => pure []
  | none :: ps => (none :: ·) <$> Pattern.traverseHoles ps
  | some p :: ps => (some · :: ·) <$> p.traverse <*> Pattern.traverseHoles ps

/-- Walks through the properties of an object pattern. -/
def PatternProperty.traverseAll : List PatternProperty → m (List PatternProperty)
  | [] => pure []
  | .keyValue key value :: ps =>
    (.keyValue · · :: ·) <$> key.traverse <*> value.traverse <*> PatternProperty.traverseAll ps
  | .rest argument :: ps => (.rest · :: ·) <$> argument.traverse <*> PatternProperty.traverseAll ps

/-- Walks through a function body. -/
def Body.traverse : Body → m Body
  | .block statements => .block <$> Stmt.traverseAll statements
  | .expression e => .expression <$> e.traverse

/-- Walks through a function, its name first. -/
def Func.traverse : Func → m Func
  | .mk n name params body isArrow =>
    (.mk n · · · isArrow) <$> Ident.traverseOpt visit name <*> Pattern.traverseAll params <*> body.traverse

/-- Walks through declarators. -/
def Declarator.traverseAll : List Declarator → m (List Declarator)
  | [] => pure []
  | .mk n target value :: ds =>
    (.mk n · · :: ·) <$> target.traverse <*> Expr.traverseOpt value <*> Declarator.traverseAll ds

/-- Walks through a loop head. -/
def ForHead.traverse : ForHead → m ForHead
  | .declaration kind declarators => .declaration kind <$> Declarator.traverseAll declarators
  | .expression e => .expression <$> e.traverse

/-- Walks through a loop head that may be missing. -/
def ForHead.traverseOpt : Option ForHead → m (Option ForHead)
  | none => pure none
  | some head => some <$> head.traverse

/-- Walks through methods. -/
def Method.traverseAll : List Method → m (List Method)
  | [] => pure []
  | .mk isStatic key f :: ms => (.mk isStatic · · :: ·) <$> key.traverse <*> f.traverse <*> Method.traverseAll ms

/-- Walks through a class, its name first. -/
def Class.traverse : Class → m Class
  | .mk n name parent methods =>
    .mk n <$> Ident.traverseOpt visit name <*> Expr.traverseOpt parent <*> Method.traverseAll methods

/-- Walks through a statement; the test of a loop comes before its body. -/
def Stmt.traverse : Stmt → m Stmt
  | .declaration n kind declarators => .declaration n kind <$> Declarator.traverseAll declarators
  | .function n f => .function n <$> f.traverse
  | .classDeclaration n cls => .classDeclaration n <$> cls.traverse
  | .return n value => .return n <$> Expr.traverseOpt value
  | .ifElse n test consequent alternate =>
    .ifElse n <$> test.traverse <*> consequent.traverse <*> Stmt.traverseOpt alternate
  | .while n test body => .while n <$> test.traverse <*> body.traverse
  | .doWhile n body test => (fun test body => .doWhile n body test) <$> test.traverse <*> body.traverse
  | .for n head test update body =>
    .for n <$> ForHead.traverseOpt head <*> Expr.traverseOpt test <*> Expr.traverseOpt update <*> body.traverse
  | .forEach n head isOf subject body =>
    (.forEach n · isOf · ·) <$> head.traverse <*> subject.traverse <*> body.traverse
  | .block n statements => .block n <$> Stmt.traverseAll statements
  | .break n label => pure (.break n label)
  | .continue n label => pure (.continue n label)
  | .throw n e => .throw n <$> e.traverse
  | .expression n e => .expression n <$> e.traverse
  | .importFrom n specifiers source =>
    (.importFrom n · source) <$> ImportSpecifier.traverseAll visit specifiers
  | .exportNames n specifiers none => (.exportNames n · none) <$> ExportSpecifier.traverseAll visit specifiers
  | .exportNames n specifiers (some source) => pure (.exportNames n specifiers (some source))
  | .exportDeclaration n inner => .exportDeclaration n <$> inner.traverse
  | .exportDefault n e => .exportDefault n <$> e.traverse
  | .empty n => pure (.empty n)

/-- Walks through a statement that may be missing. -/
def Stmt.traverseOpt : Option Stmt → m (Option Stmt)
  | none => pure none
  | some s => some <$> s.traverse

/-- Walks through statements. -/
def Stmt.traverseAll : List Stmt → m (List Stmt)
  | [] => pure []
  | s :: ss => List.cons <$> s.traverse <*> Stmt.traverseAll ss

end

end

/-! ## Properties in short form -/

/-- A property of an object literal with a key and a value, and whether it is written in short form. -/
structure KeyValue where
  /-- The key. -/
  key : PropertyKey
  /-- The value. -/
  value : Expr
  /-- Whether the two are written as one. -/
  short : Bool

mutual

/-- The keys and values of an expression, those of each object literal in order, what stands inside of a property
behind the property. -/
def Expr.keyValues : Expr → List KeyValue
  | .name _ _ | .literal _ _ | .this _ => []
  | .array _ elements => Element.keyValuesAll elements
  | .object _ properties => Property.keyValuesAll properties
  | .function _ f => f.keyValues
  | .unary _ _ argument => argument.keyValues
  | .update _ _ _ argument => argument.keyValues
  | .binary _ _ left right => left.keyValues ++ right.keyValues
  | .logical _ _ left right => left.keyValues ++ right.keyValues
  | .assign _ _ target value => target.keyValues ++ value.keyValues
  | .conditional _ test consequent alternate =>
    test.keyValues ++ consequent.keyValues ++ alternate.keyValues
  | .call _ callee arguments => callee.keyValues ++ Element.keyValuesAll arguments
  | .construct _ callee arguments => callee.keyValues ++ Element.keyValuesAll arguments
  | .member _ object _ => object.keyValues
  | .index _ object property => object.keyValues ++ property.keyValues
  | .sequence _ expressions => Expr.keyValuesAll expressions

/-- The keys and values of expressions. -/
def Expr.keyValuesAll : List Expr → List KeyValue
  | [] => []
  | e :: es => e.keyValues ++ Expr.keyValuesAll es

/-- The keys and values of an expression that may be missing. -/
def Expr.keyValuesOpt : Option Expr → List KeyValue
  | none => []
  | some e => e.keyValues

/-- The keys and values of elements. -/
def Element.keyValuesAll : List Element → List KeyValue
  | [] => []
  | .one e :: es => e.keyValues ++ Element.keyValuesAll es
  | .spread e :: es => e.keyValues ++ Element.keyValuesAll es

/-- The keys and values inside of a key. -/
def PropertyKey.keyValues : PropertyKey → List KeyValue
  | .name _ | .string _ | .number _ => []
  | .computed e => e.keyValues

/-- The keys and values of properties. -/
def Property.keyValuesAll : List Property → List KeyValue
  | [] => []
  | .keyValue key value short :: ps =>
    ⟨key, value, short⟩ :: (key.keyValues ++ value.keyValues ++ Property.keyValuesAll ps)
  | .method key f :: ps => key.keyValues ++ f.keyValues ++ Property.keyValuesAll ps
  | .spread e :: ps => e.keyValues ++ Property.keyValuesAll ps

/-- The keys and values of a pattern. -/
def Pattern.keyValues : Pattern → List KeyValue
  | .name _ _ => []
  | .array _ elements => Pattern.keyValuesHoles elements
  | .object _ properties => PatternProperty.keyValuesAll properties
  | .withDefault _ target value => target.keyValues ++ value.keyValues
  | .rest _ argument => argument.keyValues
  | .expression _ e => e.keyValues

/-- The keys and values of patterns. -/
def Pattern.keyValuesAll : List Pattern → List KeyValue
  | [] => []
  | p :: ps => p.keyValues ++ Pattern.keyValuesAll ps

/-- The keys and values of the elements of an array pattern. -/
def Pattern.keyValuesHoles : List (Option Pattern) → List KeyValue
  | [] => []
  | none :: ps => Pattern.keyValuesHoles ps
  | some p :: ps => p.keyValues ++ Pattern.keyValuesHoles ps

/-- The keys and values of the properties of an object pattern. -/
def PatternProperty.keyValuesAll : List PatternProperty → List KeyValue
  | [] => []
  | .keyValue key value :: ps => key.keyValues ++ value.keyValues ++ PatternProperty.keyValuesAll ps
  | .rest argument :: ps => argument.keyValues ++ PatternProperty.keyValuesAll ps

/-- The keys and values of a function body. -/
def Body.keyValues : Body → List KeyValue
  | .block statements => Stmt.keyValuesAll statements
  | .expression e => e.keyValues

/-- The keys and values of a function. -/
def Func.keyValues : Func → List KeyValue
  | .mk _ _ params body _ => Pattern.keyValuesAll params ++ body.keyValues

/-- The keys and values of declarators. -/
def Declarator.keyValuesAll : List Declarator → List KeyValue
  | [] => []
  | .mk _ target value :: ds => target.keyValues ++ Expr.keyValuesOpt value ++ Declarator.keyValuesAll ds

/-- The keys and values of a loop head. -/
def ForHead.keyValues : ForHead → List KeyValue
  | .declaration _ declarators => Declarator.keyValuesAll declarators
  | .expression e => e.keyValues

/-- The keys and values of a loop head that may be missing. -/
def ForHead.keyValuesOpt : Option ForHead → List KeyValue
  | none => []
  | some head => head.keyValues

/-- The keys and values of methods. -/
def Method.keyValuesAll : List Method → List KeyValue
  | [] => []
  | .mk _ key f :: ms => key.keyValues ++ f.keyValues ++ Method.keyValuesAll ms

/-- The keys and values of a class. -/
def Class.keyValues : Class → List KeyValue
  | .mk _ _ parent methods => Expr.keyValuesOpt parent ++ Method.keyValuesAll methods

/-- The keys and values of a statement. -/
def Stmt.keyValues : Stmt → List KeyValue
  | .declaration _ _ declarators => Declarator.keyValuesAll declarators
  | .function _ f => f.keyValues
  | .classDeclaration _ cls => cls.keyValues
  | .return _ value => Expr.keyValuesOpt value
  | .ifElse _ test consequent alternate =>
    test.keyValues ++ consequent.keyValues ++ Stmt.keyValuesOpt alternate
  | .while _ test body => test.keyValues ++ body.keyValues
  | .doWhile _ body test => test.keyValues ++ body.keyValues
  | .for _ head test update body =>
    ForHead.keyValuesOpt head ++ Expr.keyValuesOpt test ++ Expr.keyValuesOpt update ++ body.keyValues
  | .forEach _ head _ subject body => head.keyValues ++ subject.keyValues ++ body.keyValues
  | .block _ statements => Stmt.keyValuesAll statements
  | .throw _ e => e.keyValues
  | .expression _ e => e.keyValues
  | .exportDeclaration _ inner => inner.keyValues
  | .exportDefault _ e => e.keyValues
  | .break _ _ | .continue _ _ | .importFrom _ _ _ | .exportNames _ _ _ | .empty _ => []

/-- The keys and values of a statement that may be missing. -/
def Stmt.keyValuesOpt : Option Stmt → List KeyValue
  | none => []
  | some s => s.keyValues

/-- The keys and values of statements. -/
def Stmt.keyValuesAll : List Stmt → List KeyValue
  | [] => []
  | s :: ss => s.keyValues ++ Stmt.keyValuesAll ss

end

/-! ## What is said of a piece -/

/-- A property stays in short form while its key is the name that is its value. -/
def stillShort (key : PropertyKey) (value : Expr) (short : Bool) : Bool := short && key.isNamed value

/-- A property after renaming. -/
structure KeyValue.Renamed (r : String → String) (before after : KeyValue) : Prop where
  key : after.key = before.key.rename r
  value : after.value = before.value.rename r
  /-- It loses its short form exactly when its key is not the name that is its value now. -/
  short : after.short = true ↔ before.short = true ∧
    ∃ node ident, after.key = .name ident.name ∧ after.value = .name node ident

/-- An occurrence without its name. -/
def Ident.bare (ident : Ident) : Ident := ⟨ident.node, ""⟩

/-- What the walk through a piece, its names, its properties and the piece after renaming have to do with each
other. -/
structure Facts {α : Type} (names : List Ident) (pairs : List KeyValue) (renamed : (String → String) → α)
    (walk : ∀ {m : Type → Type} [Applicative m],
      (Ident → m Ident) → (PropertyKey → Expr → Bool → Bool) → m α)
    (names' : (String → String) → List Ident) (pairs' : (String → String) → List KeyValue)
    (bare' : (String → String) → α) : Prop where
  /-- A visitor with a state is shown the names in order. -/
  shown : ∀ {σ : Type} (visit : Ident → StateM σ Ident) (mark : PropertyKey → Expr → Bool → Bool) (st : σ),
    ((walk visit mark).run st).2 = names.foldl (fun st ident => ((visit ident).run st).2) st
  /-- A visitor that renames leaves the renamed piece. -/
  renamed : ∀ r, walk (m := Id) (·.rename r) stillShort = renamed r
  names : ∀ r, names' r = names.map (·.rename r)
  pairs : ∀ r, List.Forall₂ (KeyValue.Renamed r) pairs (pairs' r)
  bare : ∀ r, bare' r = walk (m := Id) (·.bare) fun _ _ _ => false

/-- The walk through `x` and its renaming agree with its names and its properties. -/
abbrev Agrees {α : Type} (names : α → List Ident) (pairs : α → List KeyValue)
    (rename : (String → String) → α → α)
    (traverse : ∀ {m : Type → Type} [Applicative m],
      (Ident → m Ident) → (PropertyKey → Expr → Bool → Bool) → α → m α) (x : α) : Prop :=
  Facts (names x) (pairs x) (rename · x) (fun visit mark => traverse visit mark x)
    (fun r => names (rename r x)) (fun r => pairs (rename r x))
    fun r => traverse (m := Id) (·.bare) (fun _ _ _ => false) (rename r x)

namespace Facts

variable {α β : Type} {names names₂ : List Ident} {pairs pairs₂ : List KeyValue}
  {renamed : (String → String) → α}
  {walk : ∀ {m : Type → Type} [Applicative m],
    (Ident → m Ident) → (PropertyKey → Expr → Bool → Bool) → m α}
  {names' names₂' : (String → String) → List Ident} {pairs' pairs₂' : (String → String) → List KeyValue}
  {bare' : (String → String) → α}

theorem pure (a : α) : Facts [] [] (fun _ => a) (fun _ _ => Pure.pure a) (fun _ => []) (fun _ => [])
    fun _ => a where
  shown _ _ _ := rfl
  renamed _ := rfl
  names _ := rfl
  pairs _ := .nil
  bare _ := rfl

theorem map (h : Facts names pairs renamed walk names' pairs' bare') (f : α → β) :
    Facts names pairs (fun r => f (renamed r)) (fun visit mark => f <$> walk visit mark) names' pairs'
      fun r => f (bare' r) where
  shown := h.shown
  renamed r := congrArg f (h.renamed r)
  names := h.names
  pairs := h.pairs
  bare r := congrArg f (h.bare r)

theorem seq {f : (String → String) → α → β}
    {walkF : ∀ {m : Type → Type} [Applicative m],
      (Ident → m Ident) → (PropertyKey → Expr → Bool → Bool) → m (α → β)}
    {bareF : (String → String) → α → β} (hf : Facts names pairs f walkF names' pairs' bareF)
    (h : Facts names₂ pairs₂ renamed walk names₂' pairs₂' bare') :
    Facts (names ++ names₂) (pairs ++ pairs₂) (fun r => f r (renamed r))
      (fun visit mark => walkF visit mark <*> walk visit mark) (fun r => names' r ++ names₂' r)
      (fun r => pairs' r ++ pairs₂' r) fun r => bareF r (bare' r) where
  shown visit mark st := by
    rw [List.foldl_append, ← hf.shown visit mark, ← h.shown visit mark]
    rfl
  renamed r := congr (hf.renamed r) (h.renamed r)
  names r := by rw [hf.names, h.names, List.map_append]
  pairs r := List.rel_append (hf.pairs r) (h.pairs r)
  bare r := congr (hf.bare r) (h.bare r)

theorem isNamed_iff {key : PropertyKey} {value : Expr} :
    key.isNamed value = true ↔ ∃ node ident, key = .name ident.name ∧ value = .name node ident := by
  constructor
  · intro h
    unfold PropertyKey.isNamed at h
    split at h
    · next k node ident => exact ⟨node, ident, congrArg _ (eq_of_beq h), rfl⟩
    · cases h
  · rintro ⟨node, ident, rfl, rfl⟩
    exact beq_self_eq_true ident.name

/-- The one piece of which more is set anew than its names. -/
theorem keyValue {key : PropertyKey} {value : Expr} (short : Bool) {ps : List Property}
    (hkey : Agrees PropertyKey.names PropertyKey.keyValues PropertyKey.rename PropertyKey.traverse key)
    (hvalue : Agrees Expr.names Expr.keyValues Expr.rename Expr.traverse value)
    (hps : Agrees Property.namesAll Property.keyValuesAll Property.renameAll Property.traverseAll ps) :
    Agrees Property.namesAll Property.keyValuesAll Property.renameAll Property.traverseAll
      (.keyValue key value short :: ps) := by
  have hparts := ((hkey.map fun key value ps => (key, value, ps)).seq hvalue).seq hps
  constructor
  case shown => exact hparts.shown
  case renamed =>
    exact fun r => congrArg (fun p : PropertyKey × Expr × List Property =>
      Property.keyValue p.1 p.2.1 (stillShort p.1 p.2.1 short) :: p.2.2) (hparts.renamed r)
  case names => exact hparts.names
  case pairs =>
    refine fun r => .cons ⟨rfl, rfl, ?_⟩ (hparts.pairs r)
    rw [← isNamed_iff]
    exact Bool.and_eq_true_iff
  case bare =>
    exact fun r => congrArg (fun p : PropertyKey × Expr × List Property =>
      Property.keyValue p.1 p.2.1 false :: p.2.2) (hparts.bare r)

end Facts

/-! ## Every piece agrees -/

theorem Ident.facts (ident : Ident) :
    Facts [ident] [] (ident.rename ·) (fun visit _ => visit ident) (fun r => [ident.rename r]) (fun _ => [])
      fun _ => ident.bare where
  shown _ _ _ := rfl
  renamed _ := rfl
  names _ := rfl
  pairs _ := .nil
  bare _ := rfl

theorem Ident.agreesOpt : (name : Option Ident) →
    Agrees Option.toList (fun _ => []) (fun r name => name.map (·.rename r))
      (fun visit _ => Ident.traverseOpt visit) name
  | none => .pure none
  | some ident => ident.facts.map some

theorem ImportSpecifier.agreesAll : (specifiers : List ImportSpecifier) →
    Agrees (·.map (·.bound)) (fun _ => []) (fun r ss => ss.map fun s => ⟨s.kind, s.bound.rename r⟩)
      (fun visit _ => ImportSpecifier.traverseAll visit) specifiers
  | [] => .pure []
  | s :: ss =>
    (s.bound.facts.map fun bound ss => ImportSpecifier.mk s.kind bound :: ss).seq (ImportSpecifier.agreesAll ss)

theorem ExportSpecifier.agreesAll : (specifiers : List ExportSpecifier) →
    Agrees (·.map (·.bound)) (fun _ => []) (fun r ss => ss.map fun s => ⟨s.bound.rename r, s.exported⟩)
      (fun visit _ => ExportSpecifier.traverseAll visit) specifiers
  | [] => .pure []
  | s :: ss =>
    (s.bound.facts.map fun bound ss => ExportSpecifier.mk bound s.exported :: ss).seq
      (ExportSpecifier.agreesAll ss)

mutual

theorem Expr.agrees : (e : Expr) → Agrees Expr.names Expr.keyValues Expr.rename Expr.traverse e
  | .name n ident => ident.facts.map (Expr.name n)
  | .literal n value => .pure (Expr.literal n value)
  | .array n elements => (Element.agreesAll elements).map (Expr.array n)
  | .object n properties => (Property.agreesAll properties).map (Expr.object n)
  | .function n f => f.agrees.map (Expr.function n)
  | .unary n op argument => argument.agrees.map (Expr.unary n op)
  | .update n op before argument => argument.agrees.map (Expr.update n op before)
  | .binary n op left right => (left.agrees.map (Expr.binary n op)).seq right.agrees
  | .logical n op left right => (left.agrees.map (Expr.logical n op)).seq right.agrees
  | .assign n op target value => (target.agrees.map (Expr.assign n op)).seq value.agrees
  | .conditional n test consequent alternate =>
    ((test.agrees.map (Expr.conditional n)).seq consequent.agrees).seq alternate.agrees
  | .call n callee arguments => (callee.agrees.map (Expr.call n)).seq (Element.agreesAll arguments)
  | .construct n callee arguments => (callee.agrees.map (Expr.construct n)).seq (Element.agreesAll arguments)
  | .member n object property => object.agrees.map (Expr.member n · property)
  | .index n object property => (object.agrees.map (Expr.index n)).seq property.agrees
  | .sequence n expressions => (Expr.agreesAll expressions).map (Expr.sequence n)
  | .this n => .pure (Expr.this n)

theorem Expr.agreesAll : (es : List Expr) →
    Agrees Expr.namesAll Expr.keyValuesAll Expr.renameAll Expr.traverseAll es
  | [] => .pure []
  | e :: es => (e.agrees.map List.cons).seq (Expr.agreesAll es)

theorem Expr.agreesOpt : (e : Option Expr) →
    Agrees Expr.namesOpt Expr.keyValuesOpt Expr.renameOpt Expr.traverseOpt e
  | none => .pure none
  | some e => e.agrees.map some

theorem Element.agreesAll : (es : List Element) →
    Agrees Element.namesAll Element.keyValuesAll Element.renameAll Element.traverseAll es
  | [] => .pure []
  | .one e :: es => (e.agrees.map (Element.one · :: ·)).seq (Element.agreesAll es)
  | .spread e :: es => (e.agrees.map (Element.spread · :: ·)).seq (Element.agreesAll es)

theorem PropertyKey.agrees : (key : PropertyKey) →
    Agrees PropertyKey.names PropertyKey.keyValues PropertyKey.rename PropertyKey.traverse key
  | .name text => .pure (PropertyKey.name text)
  | .string text => .pure (PropertyKey.string text)
  | .number value => .pure (PropertyKey.number value)
  | .computed e => e.agrees.map PropertyKey.computed

theorem Property.agreesAll : (ps : List Property) →
    Agrees Property.namesAll Property.keyValuesAll Property.renameAll Property.traverseAll ps
  | [] => .pure []
  | .keyValue _ _ short :: ps => .keyValue short (PropertyKey.agrees _) (Expr.agrees _) (Property.agreesAll ps)
  | .method key f :: ps => ((key.agrees.map (Property.method · · :: ·)).seq f.agrees).seq (Property.agreesAll ps)
  | .spread e :: ps => (e.agrees.map (Property.spread · :: ·)).seq (Property.agreesAll ps)

theorem Pattern.agrees : (p : Pattern) → Agrees Pattern.names Pattern.keyValues Pattern.rename Pattern.traverse p
  | .name n ident => ident.facts.map (Pattern.name n)
  | .array n elements => (Pattern.agreesHoles elements).map (Pattern.array n)
  | .object n properties => (PatternProperty.agreesAll properties).map (Pattern.object n)
  | .withDefault n target value => (target.agrees.map (Pattern.withDefault n)).seq value.agrees
  | .rest n argument => argument.agrees.map (Pattern.rest n)
  | .expression n e => e.agrees.map (Pattern.expression n)

theorem Pattern.agreesAll : (ps : List Pattern) →
    Agrees Pattern.namesAll Pattern.keyValuesAll Pattern.renameAll Pattern.traverseAll ps
  | [] => .pure []
  | p :: ps => (p.agrees.map List.cons).seq (Pattern.agreesAll ps)

theorem Pattern.agreesHoles : (ps : List (Option Pattern)) →
    Agrees Pattern.namesHoles Pattern.keyValuesHoles Pattern.renameHoles Pattern.traverseHoles ps
  | [] => .pure []
  | none :: ps => (Pattern.agreesHoles ps).map (none :: ·)
  | some p :: ps => (p.agrees.map (some · :: ·)).seq (Pattern.agreesHoles ps)

theorem PatternProperty.agreesAll : (ps : List PatternProperty) →
    Agrees PatternProperty.namesAll PatternProperty.keyValuesAll PatternProperty.renameAll
      PatternProperty.traverseAll ps
  | [] => .pure []
  | .keyValue key value :: ps =>
    ((key.agrees.map (PatternProperty.keyValue · · :: ·)).seq value.agrees).seq (PatternProperty.agreesAll ps)
  | .rest argument :: ps => (argument.agrees.map (PatternProperty.rest · :: ·)).seq (PatternProperty.agreesAll ps)

theorem Body.agrees : (body : Body) → Agrees Body.names Body.keyValues Body.rename Body.traverse body
  | .block statements => (Stmt.agreesAll statements).map Body.block
  | .expression e => e.agrees.map Body.expression

theorem Func.agrees : (f : Func) → Agrees Func.names Func.keyValues Func.rename Func.traverse f
  | .mk n name params body isArrow =>
    (((Ident.agreesOpt name).map (Func.mk n · · · isArrow)).seq (Pattern.agreesAll params)).seq body.agrees

theorem Declarator.agreesAll : (ds : List Declarator) →
    Agrees Declarator.namesAll Declarator.keyValuesAll Declarator.renameAll Declarator.traverseAll ds
  | [] => .pure []
  | .mk n target value :: ds =>
    ((target.agrees.map (Declarator.mk n · · :: ·)).seq (Expr.agreesOpt value)).seq (Declarator.agreesAll ds)

theorem ForHead.agrees : (head : ForHead) →
    Agrees ForHead.names ForHead.keyValues ForHead.rename ForHead.traverse head
  | .declaration kind declarators => (Declarator.agreesAll declarators).map (ForHead.declaration kind)
  | .expression e => e.agrees.map ForHead.expression

theorem ForHead.agreesOpt : (head : Option ForHead) →
    Agrees ForHead.namesOpt ForHead.keyValuesOpt ForHead.renameOpt ForHead.traverseOpt head
  | none => .pure none
  | some head => head.agrees.map some

theorem Method.agreesAll : (ms : List Method) →
    Agrees Method.namesAll Method.keyValuesAll Method.renameAll Method.traverseAll ms
  | [] => .pure []
  | .mk isStatic key f :: ms =>
    ((key.agrees.map (Method.mk isStatic · · :: ·)).seq f.agrees).seq (Method.agreesAll ms)

theorem Class.agrees : (cls : Class) → Agrees Class.names Class.keyValues Class.rename Class.traverse cls
  | .mk n name parent methods =>
    (((Ident.agreesOpt name).map (Class.mk n)).seq (Expr.agreesOpt parent)).seq (Method.agreesAll methods)

theorem Stmt.agrees : (s : Stmt) → Agrees Stmt.names Stmt.keyValues Stmt.rename Stmt.traverse s
  | .declaration n kind declarators => (Declarator.agreesAll declarators).map (Stmt.declaration n kind)
  | .function n f => f.agrees.map (Stmt.function n)
  | .classDeclaration n cls => cls.agrees.map (Stmt.classDeclaration n)
  | .return n value => (Expr.agreesOpt value).map (Stmt.return n)
  | .ifElse n test consequent alternate =>
    ((test.agrees.map (Stmt.ifElse n)).seq consequent.agrees).seq (Stmt.agreesOpt alternate)
  | .while n test body => (test.agrees.map (Stmt.while n)).seq body.agrees
  | .doWhile n body test => (test.agrees.map fun test body => Stmt.doWhile n body test).seq body.agrees
  | .for n head test update body =>
    ((((ForHead.agreesOpt head).map (Stmt.for n)).seq (Expr.agreesOpt test)).seq (Expr.agreesOpt update)).seq
      body.agrees
  | .forEach n head isOf subject body =>
    ((head.agrees.map (Stmt.forEach n · isOf · ·)).seq subject.agrees).seq body.agrees
  | .block n statements => (Stmt.agreesAll statements).map (Stmt.block n)
  | .break n label => .pure (Stmt.break n label)
  | .continue n label => .pure (Stmt.continue n label)
  | .throw n e => e.agrees.map (Stmt.throw n)
  | .expression n e => e.agrees.map (Stmt.expression n)
  | .importFrom n specifiers source => (ImportSpecifier.agreesAll specifiers).map (Stmt.importFrom n · source)
  | .exportNames n specifiers none => (ExportSpecifier.agreesAll specifiers).map (Stmt.exportNames n · none)
  | .exportNames n specifiers (some source) => .pure (Stmt.exportNames n specifiers (some source))
  | .exportDeclaration n inner => inner.agrees.map (Stmt.exportDeclaration n)
  | .exportDefault n e => e.agrees.map (Stmt.exportDefault n)
  | .empty n => .pure (Stmt.empty n)

theorem Stmt.agreesOpt : (s : Option Stmt) →
    Agrees Stmt.namesOpt Stmt.keyValuesOpt Stmt.renameOpt Stmt.traverseOpt s
  | none => .pure none
  | some s => s.agrees.map some

theorem Stmt.agreesAll : (ss : List Stmt) →
    Agrees Stmt.namesAll Stmt.keyValuesAll Stmt.renameAll Stmt.traverseAll ss
  | [] => .pure []
  | s :: ss => (s.agrees.map List.cons).seq (Stmt.agreesAll ss)

end

/-! ## Visitors of a statement -/

/-- A visitor that also keeps the names that it is shown. -/
def keeping {σ : Type} (visit : Ident → StateM σ Ident) : Ident → StateM (σ × List Ident) Ident :=
  fun ident (st, shown) => ((visit ident st).1, ((visit ident st).2, shown ++ [ident]))

/-- A statement without its names, and with no property in short form. -/
def Stmt.bare (s : Stmt) : Stmt := s.traverse (m := Id) (·.bare) fun _ _ _ => false

theorem foldl_keeping {σ : Type} (visit : Ident → StateM σ Ident) (names shown : List Ident) (st : σ) :
    (names.foldl (fun st ident => ((keeping visit ident).run st).2) (st, shown)).2 = shown ++ names := by
  induction names generalizing st shown with
  | nil => exact (List.append_nil shown).symm
  | cons ident names ih =>
    rw [List.foldl_cons]
    exact (ih _ _).trans (List.append_assoc ..)

/-- Whatever a visitor does, walking through a statement shows it the names of the statement in order.  Walking
with a visitor that renames leaves the renamed statement.  Its names are the renamed ones in the same order, apart
from its names and the short forms of properties it is the statement as it was, and a property loses its short
form exactly when its key is not the name that is its value now. -/
theorem Stmt.visitors_agree (s : Stmt) :
    (∀ {σ : Type} (visit : Ident → StateM σ Ident) (st : σ),
      ((s.traverse (keeping visit) stillShort).run (st, [])).2.2 = s.names) ∧
    ∀ r, s.traverse (m := Id) (·.rename r) stillShort = s.rename r ∧
      (s.rename r).names = s.names.map (·.rename r) ∧ (s.rename r).bare = s.bare ∧
      List.Forall₂ (KeyValue.Renamed r) s.keyValues (s.rename r).keyValues := by
  have h := s.agrees
  refine ⟨fun visit st => ?_, fun r => ⟨h.renamed r, h.names r, h.bare r, h.pairs r⟩⟩
  exact (congrArg Prod.snd (h.shown (keeping visit) stillShort (st, []))).trans (foldl_keeping visit _ [] st)

/-- One of two properties in short form is renamed. -/
example (n : Node) :
    (Stmt.expression n (.object n [.keyValue (.name "x") (.name n ⟨n, "x"⟩) true,
      .keyValue (.name "y") (.name n ⟨n, "y"⟩) true])).rename (fun name => if name == "x" then "x_1" else name) =
    .expression n (.object n [.keyValue (.name "x") (.name n ⟨n, "x_1"⟩) false,
      .keyValue (.name "y") (.name n ⟨n, "y"⟩) true]) := rfl

end Whittle.Syntax
