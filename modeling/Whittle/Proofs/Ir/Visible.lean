import Mathlib.Tactic.Common
import Whittle.Proofs.Ir.Order

/-!
# Visible variables

A function sees its own variables and captured ones.  Kept source and exports make variables visible to
code that is not there, so they read captured ones only.
-/

namespace Whittle.Ir

/-- A function may use the variable of a place: it is its own or captured. -/
def Environment.Shows (env : Environment) (id : FuncId) (p : Place) : Prop :=
  env.isTemporary p.declaration = false →
    env.ownerOf p.declaration = some id ∨ env.captured.contains p.declaration = true

/-- Whether others see the variables that an operation reads; exports count only if asked for. -/
def Op.isExposing (exports : Bool) : Op → Bool
  | .unsupported .. => true
  | .exportSpecifier .. => exports
  | _ => false

/-- A captured variable. -/
structure Environment.Exposes (env : Environment) (p : Place) : Prop where
  named : env.isTemporary p.declaration = false
  captured : env.captured.contains p.declaration = true

/-- An instruction of a function uses variables that the function may use. -/
structure Instr.Visible (exports : Bool) (env : Environment) (id : FuncId) (i : Instr) : Prop where
  shown : ∀ p ∈ i.places, env.Shows id p
  exposed : i.op.isExposing exports = true → ∀ p ∈ i.reads, env.Exposes p

/-- All instructions of a block are such, and so are the places that are read where it ends. -/
structure Block.All (P : Instr → Prop) (Q : Place → Prop) (b : Block) : Prop where
  instructions : ∀ i ∈ b.instructions, P i
  last : ∀ p ∈ b.lastReads, Q p

/-- All instructions of a function are such, and so are the places that are read where its blocks
end. -/
structure Function.All (P : Instr → Prop) (Q : Place → Prop) (f : Function) : Prop where
  header : ∀ i ∈ f.header, P i
  blocks : ∀ b block, f.blocks.get? b = some block → block.All P Q

/-- A block of a function uses variables that the function may use. -/
abbrev Block.Visible (exports : Bool) (env : Environment) (id : FuncId) (b : Block) : Prop :=
  b.All (·.Visible exports env id) (env.Shows id)

/-- A function uses variables that it may use. -/
abbrev Function.Visible (exports : Bool) (env : Environment) (id : FuncId) (f : Function) : Prop :=
  f.All (·.Visible exports env id) (env.Shows id)

section Advance

variable {env env' : Environment} {cells cells' : List Cell} {id : FuncId} {p : Place} {i : Instr}
  {exports : Bool}

theorem Advance.shows (h : Advance env cells env' cells') (hlogs : env.Logs cells) (hp : p.IsOf cells)
    (hshown : env.Shows id p) : env'.Shows id p := by
  have hdeclared := (hlogs.has hp).2
  intro hnamed
  rw [h.temporary _ hdeclared] at hnamed
  rcases hshown hnamed with howner | hcaptured
  · exact .inl (h.ownerOf howner)
  · exact .inr (h.captured _ hcaptured)

theorem Advance.exposes (h : Advance env cells env' cells') (hp : env.Exposes p) : env'.Exposes p :=
  ⟨h.named hp.named, h.captured _ hp.captured⟩

theorem Advance.instrVisible (h : Advance env cells env' cells') (hlogs : env.Logs cells)
    (hi : ∀ p ∈ i.places, p.IsOf cells) (hvisible : i.Visible exports env id) :
    i.Visible exports env' id :=
  ⟨fun p hp => h.shows hlogs (hi p hp) (hvisible.shown p hp),
    fun hexposing p hp => h.exposes (hvisible.exposed hexposing p hp)⟩

/-- What is visible stays so when the environment comes further. -/
theorem Advance.visible (h : Advance env cells env' cells') (hlogs : env.Logs cells) {f : Function}
    {owner : FuncId} (hf : f.Fits env cells owner) (hvisible : f.Visible exports env id) :
    f.Visible exports env' id := by
  refine ⟨fun i hi => h.instrVisible hlogs (hf.uses.header i hi) (hvisible.header i hi), ?_⟩
  intro b block hb
  have huses := hf.uses.blocks b block hb
  have hblock := hvisible.blocks b block hb
  exact ⟨fun i hi => h.instrVisible hlogs (huses.instructions i hi) (hblock.instructions i hi),
    fun p hp => h.shows hlogs (huses.lastReads p hp) (hblock.last p hp)⟩

end Advance

end Whittle.Ir
