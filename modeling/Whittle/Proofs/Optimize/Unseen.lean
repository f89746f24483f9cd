import Mathlib.Tactic.Common
import Whittle.Proofs.Optimize.Inlining
import Whittle.Proofs.Optimize.Overwritten
import Whittle.Proofs.Optimize.Temporaries
import Whittle.Proofs.Optimize.Thinning
import Whittle.Proofs.Ssa.Memory

/-!
# What overwritten stores leave behind

The versions of a variable are kept in one slot.  Without the overwritten stores of a block slots may
differ for a while, but only such as are written again before anything reads them, and temporaries that
nothing reads at all.

Main statement: `Module.dropOverwritten_unseen`.
-/

namespace Whittle.Ir

/-! ## Storage -/

/-- Where a value is kept.  The versions of a variable are kept in one slot. -/
inductive Slot where
  | named (d : DeclId)
  | temporary (id : CellId)
deriving DecidableEq

/-- What the slots hold. -/
abbrev Storage (α : Type) := Slot → α

/-- The slot of a place. -/
def Environment.slot (env : Environment) (p : Place) : Slot :=
  if env.isTemporary p.declaration then .temporary p.cell.id else .named p.declaration

section Storage

variable {α : Type}

/-- What an instruction gets to see: what it reads, and captured variables that can change. -/
def Instr.view (env : Environment) (σ : Storage α) (i : Instr) : List α × (DeclId → Option α) :=
  (i.reads.map fun p => σ (env.slot p),
    fun d => if env.isCapturedMutable d then some (σ (.named d)) else none)

/-- What the slots hold after an instruction.  Loads, stores and copies pass a value on; what the other
instructions do is up to `effect`. -/
def Storage.after (env : Environment) (effect : Instr → Storage α → Storage α) (σ : Storage α)
    (i : Instr) : Storage α :=
  i.op.moved?.elim (effect i σ) fun p s =>
    if i.defined.any (env.slot · == s) then σ (env.slot p) else σ s

/-- The instructions that do not pass a value on, in their order, each with what it gets to see. -/
def Storage.events (env : Environment) (effect : Instr → Storage α → Storage α) :
    Storage α → List Instr → List (Instr × List α × (DeclId → Option α))
  | _, [] => []
  | σ, i :: is => (if i.op.moved?.isSome then [] else [(i, i.view env σ)]) ++
      Storage.events env effect (σ.after env effect i) is

/-- What instructions write depends on nothing but what they get to see; all else they leave alone. -/
def Environment.Confines (env : Environment) (effect : Instr → Storage α → Storage α) : Prop :=
  ∀ i σ τ, i.view env σ = i.view env τ → ∀ s,
    effect i σ s = effect i τ s ∨ (effect i σ s = σ s ∧ effect i τ s = τ s)

/-- Instructions that give their own places what they compute from what they get to see. -/
theorem Environment.confines_insert (env : Environment) (eval : List α × (DeclId → Option α) → α) :
    env.Confines fun i σ s => if env.slot i.place = s then eval (i.view env σ) else σ s := by
  intro i σ τ hview s
  by_cases hs : env.slot i.place = s
  · exact .inl (by simp [hs, hview])
  · exact .inr (by simp [hs])

/-- What the slot holds does not matter to the rest of a block and to what comes after it. -/
def Slot.Spent (env : Environment) (cells : List CellId) (rest : List Instr) : Slot → Prop
  | .named d =>
    env.isTemporary d = false ∧ env.isCapturedMutable d = false ∧ Overwritten d rest
  | .temporary id => id ∉ cells

/-- Two storages differ in spent slots only. -/
def Storage.Agrees (env : Environment) (cells : List CellId) (rest : List Instr) (σ τ : Storage α) :
    Prop :=
  ∀ s : Slot, ¬ s.Spent env cells rest → σ s = τ s

variable {env : Environment} {effect : Instr → Storage α → Storage α} {cells : List CellId}
  {i j : Instr} {is js : List Instr} {σ τ : Storage α} {p target value : Place} {kind : StoreKind}

theorem Op.mem_reads_of_moved {op : Op} (h : op.moved? = some p) : p ∈ op.reads := by
  cases op <;> cases h <;> simp [Op.reads]

theorem Environment.slot_eq_named {d : DeclId} (h : env.slot p = .named d) :
    env.isTemporary d = false ∧ p.declaration = d := by
  rw [slot] at h
  split at h
  · cases h
  · next htemporary =>
    cases h
    exact ⟨Bool.eq_false_iff.2 htemporary, rfl⟩

theorem Environment.slot_eq_temporary {id : CellId} (h : env.slot p = .temporary id) :
    p.cell.id = id := by
  rw [slot] at h
  split at h
  · cases h
    rfl
  · cases h

/-- What an instruction reads is not spent before it. -/
theorem Environment.not_spent_of_read (hp : p ∈ i.reads) (hread : p.cell.id ∈ cells) :
    ¬ (env.slot p).Spent env cells (i :: is) := by
  intro hspent
  cases hslot : env.slot p with
  | temporary id =>
    rw [hslot, ← env.slot_eq_temporary hslot] at hspent
    exact hspent hread
  | named d =>
    rw [hslot] at hspent
    obtain ⟨-, -, hover⟩ := hspent
    have htouches : i.Touches d := .inl ⟨p, hp, (env.slot_eq_named hslot).2⟩
    cases hover with
    | here _ hnot => exact hnot htouches
    | later hnot _ => exact hnot htouches

/-- A slot that is spent before an instruction is so after it, unless the instruction stores it. -/
theorem Slot.Spent.of_cons {s : Slot} (h : s.Spent env cells (i :: is)) :
    s.Spent env cells is ∨ ∃ d, s = .named d ∧ env.isTemporary d = false ∧ i.Stores d := by
  cases s with
  | temporary id => exact .inl h
  | named d =>
    obtain ⟨htemporary, hunseen, hover⟩ := h
    cases hover with
    | here hstores _ => exact .inr ⟨d, rfl, htemporary, hstores⟩
    | later _ hlater => exact .inl ⟨htemporary, hunseen, hlater⟩

namespace Storage.Agrees

theorem view (h : σ.Agrees env cells (i :: is) τ) (hreads : ∀ p ∈ i.reads, p.cell.id ∈ cells) :
    i.view env σ = i.view env τ := by
  rw [Instr.view, Instr.view, Prod.mk.injEq]
  constructor
  · exact List.map_congr_left fun p hp => h _ (env.not_spent_of_read hp (hreads p hp))
  · funext d
    split
    · next hseen => rw [h (.named d) fun hspent => by simp [hspent.2.1] at hseen]
    · rfl

/-- The same instruction is executed in both. -/
theorem after (h : σ.Agrees env cells (i :: is) τ) (hreads : ∀ p ∈ i.reads, p.cell.id ∈ cells)
    (heffect : env.Confines effect) :
    (σ.after env effect i).Agrees env cells is (τ.after env effect i) := by
  intro s hs
  -- a slot that is spent no more was stored just now
  have hbefore : σ s = τ s ∨ ∃ d, s = .named d ∧ env.isTemporary d = false ∧ i.Stores d := by
    by_cases hspent : s.Spent env cells (i :: is)
    · exact .inr (hspent.of_cons.resolve_left hs)
    · exact .inl (h s hspent)
  rw [Storage.after, Storage.after]
  cases hmoved : i.op.moved? with
  | none =>
    have hsame : σ s = τ s := by
      refine hbefore.resolve_right ?_
      rintro ⟨d, -, -, target, value, kind, hop, -⟩
      simp [hop, Op.moved?] at hmoved
    rcases heffect i σ τ (h.view hreads) s with heq | ⟨hσ, hτ⟩
    · exact heq
    · exact hσ.trans (hsame.trans hτ.symm)
  | some p =>
    have hp : p ∈ i.reads := Op.mem_reads_of_moved hmoved
    simp only [Option.elim_some]
    split
    · exact h _ (env.not_spent_of_read hp (hreads p hp))
    · next hundefined =>
      refine hbefore.resolve_right ?_
      rintro ⟨d, rfl, htemporary, target, value, kind, hop, rfl⟩
      simp [Instr.defined, hop, Op.target?, Environment.slot, htemporary] at hundefined

/-- A redundant store is executed in one of them only. -/
theorem drop (effect : Instr → Storage α → Storage α) (h : σ.Agrees env cells (i :: is) τ)
    (hop : i.op = .storeLocal target value kind)
    (hredundant : Redundant env (fun p => p.cell.id ∉ cells) i target is)
    (hapart : env.isTemporary i.place.declaration = true) :
    (σ.after env effect i).Agrees env cells is τ := by
  intro s hs
  have htargetSlot : env.slot target ≠ s := by
    rintro rfl
    cases hslot : env.slot target with
    | temporary id =>
      rw [hslot] at hs
      exact hs (env.slot_eq_temporary hslot ▸ hredundant.unread_target)
    | named d =>
      rw [hslot] at hs
      obtain ⟨htemporary, rfl⟩ := env.slot_eq_named hslot
      exact hs ⟨htemporary, hredundant.unseen, hredundant.overwritten⟩
  have hplaceSlot : env.slot i.place ≠ s := by
    rintro rfl
    rw [Environment.slot, if_pos hapart] at hs
    exact hs hredundant.unread_place
  have hkept : σ.after env effect i s = σ s := by
    simp [Storage.after, hop, Op.moved?, Instr.defined, Op.target?, htargetSlot, hplaceSlot]
  rw [hkept]
  refine h s fun hspent => ?_
  rcases hspent.of_cons with hspent | ⟨d, rfl, htemporary, hstores⟩
  · exact hs hspent
  · -- the only variable that the store writes is the one of its target
    obtain rfl := (Instr.stores_iff hop).1 hstores
    exact htargetSlot (by rw [Environment.slot, htemporary, if_neg (by simp)])

end Storage.Agrees

theorem Storage.after_congr {op : Op} (hmoved : op.moved? = i.op.moved?)
    (hsome : i.op.moved?.isSome = true) (htarget : op.target? = i.op.target?) :
    σ.after env effect { i with op } = σ.after env effect i := by
  obtain ⟨p, hp⟩ := Option.isSome_iff_exists.1 hsome
  simp only [Storage.after, hmoved, hp, Option.elim_some, Instr.defined, htarget]
  rfl

/-- Without redundant stores the other instructions get to see what they did, and in the end nothing
differs but temporaries that are not read. -/
theorem Omits.run {words : Legacy} (h : Omits env (fun p => p.cell.id ∉ cells) words is js)
    (heffect : env.Confines effect) (hreads : ∀ i ∈ is, ∀ p ∈ i.reads, p.cell.id ∈ cells)
    (hapart : ∀ i ∈ is, ∀ d, i.Stores d → env.isTemporary i.place.declaration = true)
    (hagrees : σ.Agrees env cells is τ) :
    σ.events env effect is = τ.events env effect js ∧
      (is.foldl (Storage.after env effect) σ).Agrees env cells []
        (js.foldl (Storage.after env effect) τ) := by
  induction h generalizing σ τ with
  | nil => exact ⟨rfl, hagrees⟩
  | keep _ _ ih =>
    obtain ⟨hi, hreads⟩ := List.forall_mem_cons.1 hreads
    obtain ⟨hevents, hend⟩ := ih hreads (List.forall_mem_cons.1 hapart).2 (hagrees.after hi heffect)
    refine ⟨?_, hend⟩
    rw [Storage.events, Storage.events, hevents, hagrees.view hi]
  | @store words i target value kind is js hop _ _ ih =>
    obtain ⟨hi, hreads⟩ := List.forall_mem_cons.1 hreads
    obtain ⟨hevents, hend⟩ := ih hreads (List.forall_mem_cons.1 hapart).2 (hagrees.after hi heffect)
    have hafter (word : StoreKind) :
        τ.after env effect { i with op := .storeLocal target value word } = τ.after env effect i :=
      Storage.after_congr (by rw [hop]; rfl) (by rw [hop]; rfl) (by rw [hop]; rfl)
    rw [List.foldl_cons, List.foldl_cons, Storage.events, Storage.events, hafter, hevents]
    exact ⟨by simp [hop, Op.moved?], hend⟩
  | @drop words i target value kind is js hop hredundant _ _ ih =>
    obtain ⟨hi, hrest⟩ := List.forall_mem_cons.1 hapart
    have hdropped := hagrees.drop effect hop hredundant
      (hi target.declaration ⟨target, value, kind, hop, rfl⟩)
    obtain ⟨hevents, hend⟩ := ih (List.forall_mem_cons.1 hreads).2 hrest hdropped
    refine ⟨?_, hend⟩
    rw [Storage.events, hevents]
    simp [hop, Op.moved?]

end Storage

/-! ## A round -/

namespace Module

variable {m : Module} {env : Environment}

/-- What a store gives has no name. -/
def StoresApart (m : Module) (env : Environment) : Prop :=
  ∀ i ∈ m.instructions, ∀ d, i.Stores d → env.isTemporary i.place.declaration = true

theorem InOrder.storesApart (h : m.InOrder env) : m.StoresApart env := by
  rintro i hi d ⟨target, value, kind, hop, -⟩
  refine h.isTemporary_place hi ?_
  rw [hop]
  rfl

/-- A round of removing overwritten stores removes exactly the redundant ones: what they define is read
nowhere, and their variables are stored again before anything touches them.  If one of them declared its
variable, so does the next store that is left.  Whatever other instructions do with what they see, they
see what they did, and variables end up with the values that they had. -/
theorem dropOverwritten_unseen (m : Module) (env : Environment) :
    m.Reworks (fun is is' =>
      Omits env (fun p => p.cell.id ∉ m.readCells) (fun _ => none) is is' ∧
        (m.StoresApart env → ∀ {α : Type} (effect : Instr → Storage α → Storage α),
          env.Confines effect → ∀ start : Storage α,
            start.events env effect is' = start.events env effect is ∧
              ∀ s, (∀ id, s = .temporary id → id ∈ m.readCells) →
                is'.foldl (Storage.after env effect) start s =
                  is.foldl (Storage.after env effect) start s)) (m.dropOverwritten env).2 := by
  refine (m.reworks_dropOverwritten env).imp_mem fun id f b block hf hb is' hover => ?_
  have homits : Omits env (fun p => p.cell.id ∉ m.readCells) (fun _ => none) block.instructions is' := by
    have hunread : (fun p : Place => (m.readCounts.getD p.cell.id 0 == 0) = true) =
        fun p => p.cell.id ∉ m.readCells := by
      funext p
      rw [getD_readCounts, beq_iff_eq, List.count_eq_zero]
    rw [hover, ← hunread]
    exact omits_dropOverwritten env _ _
  refine ⟨homits, fun hapart α effect heffect start => ?_⟩
  have hsame : start.Agrees env m.readCells block.instructions start := fun _ _ => rfl
  obtain ⟨hevents, hend⟩ := homits.run heffect
    (fun i hi p hp => mem_readCells hf hb (.inl ⟨i, hi, hp⟩))
    (fun i hi => hapart i (mem_instructions hf hb hi)) hsame
  refine ⟨hevents.symm, fun s hs => (hend s ?_).symm⟩
  cases s with
  | temporary id => exact fun hspent => hspent (hs id rfl)
  | named d => rintro ⟨-, -, ⟨⟩⟩

/-- `let x = true; x = false; x = true; log(x);` -/
def rewriting : Syntax.Module :=
  let assign (value : Bool) : Syntax.Stmt :=
    .expression .synthetic (.assign .synthetic .set (.name .synthetic (.synthetic "x"))
      (.literal .synthetic (.boolean value)))
  ⟨⟨0, 0⟩,
    [.declaration .synthetic .letKind
        [.mk .synthetic (.name .synthetic (.synthetic "x")) (some (.literal .synthetic (.boolean true)))],
      assign false, assign true,
      .expression .synthetic (.call .synthetic (.name .synthetic (.synthetic "log"))
        [.one (.name .synthetic (.synthetic "x"))])]⟩

/-- Two of the three stores go, one after the other, and whatever is computed from what is seen, `log`
gets to see the same. -/
theorem dropOverwritten_unseen_rewriting :
    ∃ (m : Module) (env : Environment), joined? rewriting = some (m, env) ∧
      (m.dropOverwritten env).2.instructions.length + 2 = m.instructions.length ∧
      m.Reworks (fun is is' =>
        Omits env (fun p => p.cell.id ∉ m.readCells) (fun _ => none) is is' ∧
          ∀ (eval : List Nat × (DeclId → Option Nat) → Nat) (start : Storage Nat),
            start.events env (fun i σ s => if env.slot i.place = s then eval (i.view env σ) else σ s) is' =
              start.events env (fun i σ s => if env.slot i.place = s then eval (i.view env σ) else σ s)
                is) (m.dropOverwritten env).2 := by
  obtain ⟨⟨m, env⟩, hjoined, hless⟩ : ∃ t ∈ joined? rewriting,
      (t.1.dropOverwritten t.2).2.instructions.length + 2 = t.1.instructions.length := by
    decide +kernel
  have hreached : m.Reached env := (arises_of_joined? hjoined).reached
  refine ⟨m, env, hjoined, hless, (dropOverwritten_unseen m env).imp_mem ?_⟩
  intro id f b block _ _ is ⟨homits, hunseen⟩
  refine ⟨homits, fun eval start => (hunseen hreached.inOrder.storesApart _ ?_ start).1⟩
  exact env.confines_insert eval

end Module

end Whittle.Ir
