import Whittle.Ir.Environment
import Whittle.Ir.Module

/-!
# Modules written by hand

Lowering leads to certain modules only.  What a pass asks of a module beyond that is told from modules that
are written down as they are: each declaration has one version, and declarations, their cells and the
instructions that define these share one number.
-/

namespace Whittle.Ir

/-- An environment with declarations of the given kinds in the first function, the given ones visible
elsewhere. -/
def Environment.ofKinds (kinds : List DeclKind) (captured : List DeclId) : Environment :=
  { nextPlace := ⟨kinds.length⟩
    nextCell := ⟨kinds.length⟩
    declarations := (kinds.map fun kind => ⟨none, kind, ⟨0⟩, 1⟩).toArray
    captured := .ofList captured }

/-- The place of the only version of a declaration. -/
def Place.only (d : Nat) (version : Version) : Place := ⟨⟨d⟩, ⟨⟨d⟩, version, ⟨d⟩⟩⟩

/-- A function of the given blocks, which are numbered in order; it starts in the first one. -/
def Function.ofCode (blocks : List (List (Place × Op) × Terminal)) : Function :=
  let block (code : List (Place × Op)) (terminal : Terminal) : Block :=
    ⟨code.map fun e => ⟨⟨e.1.id.index⟩, e.1, none, e.2⟩, some terminal⟩
  recomputeFlow
    { start ⟨0⟩ none none .module none ⟨0⟩ with
      blocks := Table.ofList (blocks.zipIdx.map fun e => (⟨e.2⟩, block e.1.1 e.1.2)) }

/-- A module of the given functions; it starts in the first one. -/
def Module.ofFunctions (functions : List Function) : Module :=
  ⟨"main.js", ⟨0⟩, Table.ofList (functions.map fun f => (f.id, f)), ∅, ∅⟩

/-- A module of one function. -/
def Module.ofCode (blocks : List (List (Place × Op) × Terminal)) : Module :=
  ofFunctions [.ofCode blocks]

end Whittle.Ir
