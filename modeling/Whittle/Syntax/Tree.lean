import Whittle.Number
import Whittle.Syntax.Operator
import Whittle.Text.Source

/-!
# Syntax trees

The tree of a module of the supported part of the language.  Every node carries its identity in the
source; nodes that no source contains carry `Node.synthetic`.
-/

namespace Whittle.Syntax

/-- Identity of a tree node: its number within one parse and its place in the source. -/
structure Node where
  /-- The number, or nothing for a node that was not parsed. -/
  id : Option Nat
  /-- The place. -/
  span : Span
deriving DecidableEq, Inhabited, Repr

/-- The identity of nodes that were not parsed. -/
def Node.synthetic : Node := ⟨none, ⟨0, 0⟩⟩

/-- A name where a program writes it. -/
structure Ident where
  /-- Which occurrence this is. -/
  node : Node
  /-- The name. -/
  name : String
deriving DecidableEq, Inhabited, Repr

/-- A name that no source contains. -/
def Ident.synthetic (name : String) : Ident := ⟨Node.synthetic, name⟩

/-- Literal values. -/
inductive Literal where
  | number (value : Number)
  | string (value : String)
  | boolean (value : Bool)
  | null
deriving DecidableEq

/-- The words that declare variables. -/
inductive VarKind where
  | varKind
  | letKind
  | constKind
deriving DecidableEq, Inhabited, Repr

namespace VarKind

/-- The word. -/
def text : VarKind → String
  | .varKind => "var"
  | .letKind => "let"
  | .constKind => "const"

/-- The kind with the given word. -/
def ofText? : String → Option VarKind
  | "var" => some .varKind
  | "let" => some .letKind
  | "const" => some .constKind
  | _ => none

end VarKind

/-- What an import specifier takes from the other module. -/
inductive ImportKind where
  /-- The default export. -/
  | default
  /-- The export of the given name. -/
  | named (imported : String)
  /-- All exports as one object. -/
  | whole
deriving DecidableEq, Inhabited, Repr

/-- The name looked up in the exporting module, if there is one. -/
def ImportKind.imported? : ImportKind → Option String
  | .default => some "default"
  | .named imported => some imported
  | .whole => none

/-- One name that an import binds. -/
structure ImportSpecifier where
  /-- What it takes. -/
  kind : ImportKind
  /-- The name bound here. -/
  bound : Ident
deriving DecidableEq

/-- One name that an export publishes. -/
structure ExportSpecifier where
  /-- The name here. -/
  bound : Ident
  /-- The name for importers. -/
  exported : String
deriving DecidableEq

mutual

/-- Expressions. -/
inductive Expr where
  | name (node : Node) (ident : Ident)
  | literal (node : Node) (value : Literal)
  | array (node : Node) (elements : List Element)
  | object (node : Node) (properties : List Property)
  | function (node : Node) (function : Func)
  | unary (node : Node) (op : UnaryOp) (argument : Expr)
  | update (node : Node) (op : UpdateOp) (before : Bool) (argument : Expr)
  | binary (node : Node) (op : BinaryOp) (left right : Expr)
  | logical (node : Node) (op : LogicalOp) (left right : Expr)
  | assign (node : Node) (op : AssignOp) (target : Pattern) (value : Expr)
  | conditional (node : Node) (test consequent alternate : Expr)
  | call (node : Node) (callee : Expr) (arguments : List Element)
  | construct (node : Node) (callee : Expr) (arguments : List Element)
  | member (node : Node) (object : Expr) (property : String)
  | index (node : Node) (object property : Expr)
  | sequence (node : Node) (expressions : List Expr)
  | this (node : Node)

/-- Elements of array literals and arguments of calls. -/
inductive Element where
  | one (value : Expr)
  | spread (value : Expr)

/-- Keys of properties. -/
inductive PropertyKey where
  | name (text : String)
  | string (text : String)
  | number (value : Number)
  | computed (value : Expr)

/-- Properties of object literals. -/
inductive Property where
  | keyValue (key : PropertyKey) (value : Expr) (shorthand : Bool)
  | method (key : PropertyKey) (function : Func)
  | spread (value : Expr)

/-- Targets of bindings and assignments. -/
inductive Pattern where
  | name (node : Node) (ident : Ident)
  | array (node : Node) (elements : List (Option Pattern))
  | object (node : Node) (properties : List PatternProperty)
  | withDefault (node : Node) (target : Pattern) (value : Expr)
  | rest (node : Node) (argument : Pattern)
  | expression (node : Node) (value : Expr)

/-- Properties of object patterns. -/
inductive PatternProperty where
  | keyValue (key : PropertyKey) (value : Pattern)
  | rest (argument : Pattern)

/-- Bodies of functions. -/
inductive Body where
  | block (statements : List Stmt)
  | expression (value : Expr)

/-- Functions of every kind. -/
inductive Func where
  | mk (node : Node) (name : Option Ident) (params : List Pattern) (body : Body) (isArrow : Bool)

/-- One variable of a declaration. -/
inductive Declarator where
  | mk (node : Node) (target : Pattern) (value : Option Expr)

/-- What stands first in the head of a `for` statement. -/
inductive ForHead where
  | declaration (kind : VarKind) (declarators : List Declarator)
  | expression (value : Expr)

/-- Methods of classes. -/
inductive Method where
  | mk (isStatic : Bool) (key : PropertyKey) (function : Func)

/-- Classes. -/
inductive Class where
  | mk (node : Node) (name : Option Ident) (parent : Option Expr) (methods : List Method)

/-- Statements. -/
inductive Stmt where
  | declaration (node : Node) (kind : VarKind) (declarators : List Declarator)
  | function (node : Node) (function : Func)
  | classDeclaration (node : Node) (cls : Class)
  | return (node : Node) (value : Option Expr)
  | ifElse (node : Node) (test : Expr) (consequent : Stmt) (alternate : Option Stmt)
  | while (node : Node) (test : Expr) (body : Stmt)
  | doWhile (node : Node) (body : Stmt) (test : Expr)
  | for (node : Node) (head : Option ForHead) (test update : Option Expr) (body : Stmt)
  | forEach (node : Node) (head : ForHead) (isOf : Bool) (subject : Expr) (body : Stmt)
  | block (node : Node) (statements : List Stmt)
  | break (node : Node) (label : Option Ident)
  | continue (node : Node) (label : Option Ident)
  | throw (node : Node) (value : Expr)
  | expression (node : Node) (value : Expr)
  | importFrom (node : Node) (specifiers : List ImportSpecifier) (source : String)
  | exportNames (node : Node) (specifiers : List ExportSpecifier) (source : Option String)
  | exportDeclaration (node : Node) (declaration : Stmt)
  | exportDefault (node : Node) (value : Expr)
  | empty (node : Node)

end

instance : Inhabited Expr := ⟨.this Node.synthetic⟩
instance : Inhabited Pattern := ⟨.array Node.synthetic []⟩
instance : Inhabited Stmt := ⟨.empty Node.synthetic⟩

/-- A module: its statements and the length of its source. -/
structure Module where
  /-- The whole source. -/
  span : Span
  /-- The statements. -/
  body : List Stmt

namespace Expr

/-- The identity of an expression. -/
def node : Expr → Node
  | .name n _ | .literal n _ | .array n _ | .object n _ | .function n _ | .unary n _ _
  | .update n _ _ _ | .binary n _ _ _ | .logical n _ _ _ | .assign n _ _ _
  | .conditional n _ _ _ | .call n _ _ | .construct n _ _ | .member n _ _ | .index n _ _
  | .sequence n _ | .this n => n

/-- What messages and dumps call an expression. -/
def kindName : Expr → String
  | .name .. => "identifier"
  | .literal .. => "literal"
  | .array .. => "array expression"
  | .object .. => "object expression"
  | .function .. => "function expression"
  | .unary .. => "unary expression"
  | .update .. => "update expression"
  | .binary .. => "binary expression"
  | .logical .. => "logical expression"
  | .assign .. => "assignment expression"
  | .conditional .. => "conditional expression"
  | .call .. => "call expression"
  | .construct .. => "new expression"
  | .member .. => "member expression"
  | .index .. => "member expression"
  | .sequence .. => "sequence expression"
  | .this .. => "this expression"

end Expr

/-- The identity of a pattern. -/
def Pattern.node : Pattern → Node
  | .name n _ | .array n _ | .object n _ | .withDefault n _ _ | .rest n _ | .expression n _ => n

namespace Func

/-- The identity of a function. -/
def node : Func → Node
  | .mk n _ _ _ _ => n

/-- The name of a function, if it has one. -/
def name : Func → Option Ident
  | .mk _ n _ _ _ => n

/-- The parameters of a function. -/
def params : Func → List Pattern
  | .mk _ _ ps _ _ => ps

/-- The body of a function. -/
def body : Func → Body
  | .mk _ _ _ b _ => b

/-- Whether a function is an arrow. -/
def isArrow : Func → Bool
  | .mk _ _ _ _ a => a

end Func

/-- The name of a class, if it has one. -/
def Class.name : Class → Option Ident
  | .mk _ n _ _ => n

/-- The target of a declarator. -/
def Declarator.target : Declarator → Pattern
  | .mk _ t _ => t

namespace Stmt

/-- The identity of a statement. -/
def node : Stmt → Node
  | .declaration n _ _ | .function n _ | .classDeclaration n _ | .return n _ | .ifElse n _ _ _ | .while n _ _
  | .doWhile n _ _ | .for n _ _ _ _ | .forEach n _ _ _ _ | .block n _ | .break n _
  | .continue n _ | .throw n _ | .expression n _ | .importFrom n _ _ | .exportNames n _ _
  | .exportDeclaration n _ | .exportDefault n _ | .empty n => n

/-- What messages and dumps call a statement. -/
def kindName : Stmt → String
  | .declaration .. => "variable declaration"
  | .function .. => "function declaration"
  | .classDeclaration .. => "class declaration"
  | .return .. => "return statement"
  | .ifElse .. => "if statement"
  | .while .. => "while statement"
  | .doWhile .. => "do-while statement"
  | .for .. => "for statement"
  | .forEach _ _ isOf _ _ => if isOf then "for-of statement" else "for-in statement"
  | .block .. => "block statement"
  | .break .. => "break statement"
  | .continue .. => "continue statement"
  | .throw .. => "throw statement"
  | .expression .. => "expression statement"
  | .importFrom .. => "import declaration"
  | .exportNames .. => "export declaration"
  | .exportDeclaration .. => "export declaration"
  | .exportDefault .. => "export declaration"
  | .empty .. => "empty statement"

end Stmt

end Whittle.Syntax
