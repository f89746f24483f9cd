import Whittle.Ir.Id
import Whittle.Table

/-!
# Lexical scopes

Which declaration each name stands for, scope by scope.  Inner scopes hide outer ones.
-/

namespace Whittle.Lowering

open Ir (DeclId)

/-- What opens a scope. -/
inductive ScopeKind where
  | function
  | block
deriving DecidableEq, Repr

/-- One scope. -/
structure Scope where
  /-- What opened it. -/
  kind : ScopeKind
  /-- What its names stand for. -/
  bindings : Table String DeclId

/-- The open scopes, the innermost first. -/
abbrev Scopes := List Scope

namespace Scopes

/-- Opens a scope. -/
def enter (scopes : Scopes) (kind : ScopeKind) : Scopes := ⟨kind, ∅⟩ :: scopes

/-- Closes the innermost scope, if one is open. -/
def leave? : Scopes → Option Scopes
  | [] => none
  | _ :: scopes => some scopes

/-- Binds a name in the innermost scope, if one is open. -/
def bind? (name : String) (d : DeclId) : Scopes → Option Scopes
  | [] => none
  | scope :: scopes => some ({ scope with bindings := scope.bindings.insert name d } :: scopes)

/-- Binds a name in the innermost scope of a function, if one is open. -/
def hoist? (name : String) (d : DeclId) : Scopes → Option Scopes
  | [] => none
  | scope :: scopes =>
    if scope.kind == .function then bind? name d (scope :: scopes)
    else (hoist? name d scopes).map (scope :: ·)

/-- What a name stands for in the innermost scope that binds it. -/
def find? (scopes : Scopes) (name : String) : Option DeclId :=
  scopes.findSome? (·.bindings.get? name)

/-- What a name stands for in the innermost scope alone. -/
def findHere? (scopes : Scopes) (name : String) : Option DeclId :=
  scopes.head?.bind (·.bindings.get? name)

end Scopes

end Whittle.Lowering
