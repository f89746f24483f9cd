import Mathlib.Tactic.Common
import Whittle.Proofs.Table
import Whittle.Ssa.Copies

/-!
# Going over a module

What works on a whole module goes over its functions one after the other and puts each back changed.
When the turn of a function comes, it is still what it was at the start, so a property of modules that
survives the change of any one function survives the round.  The same holds for the blocks of a
function.
-/

namespace Whittle.Ir

namespace Function

variable {f : Function} {id : BlockId} {b : Block}

theorem get?_setBlock (f : Function) (id id' : BlockId) (b : Block) :
    (f.setBlock id b).blocks.get? id' = if id' = id then some b else f.blocks.get? id' :=
  Table.get?_insert ..

theorem setBlock_setBlock (f : Function) (id : BlockId) (b b' : Block) :
    (f.setBlock id b).setBlock id b' = f.setBlock id b' := by
  simp only [setBlock, Table.insert_insert]

theorem setBlock_self (h : f.blocks.get? id = some b) : f.setBlock id b = f := by
  rw [setBlock, Table.insert_self h]

theorem forall_setBlock {B : Block → Prop} (h : ∀ id b, f.blocks.get? id = some b → B b) (id : BlockId)
    (hb : B b) : ∀ id' b', (f.setBlock id b).blocks.get? id' = some b' → B b' := by
  intro id' b' hb'
  rw [get?_setBlock] at hb'
  split at hb'
  · exact Option.some.inj hb' ▸ hb
  · exact h id' b' hb'

theorem forall_mapBlocks {B : Block → Prop} {g : BlockId → Block → Block}
    (h : ∀ id b, f.blocks.get? id = some b → B (g id b)) :
    ∀ id b, (f.mapBlocks g).blocks.get? id = some b → B b := by
  intro id b hb
  rw [mapBlocks, Table.get?_map] at hb
  obtain ⟨b₀, hb₀, rfl⟩ := Option.map_eq_some_iff.1 hb
  exact h id b₀ hb₀

/-- The instructions of all blocks but one. -/
def instructionsBeside (f : Function) (id : BlockId) : List Instr :=
  f.header ++ (f.blocks.erase id).values.flatMap (·.instructions)

theorem instructions_perm (h : f.blocks.get? id = some b) :
    f.instructions.Perm (b.instructions ++ f.instructionsBeside id) := by
  have hvalues := (Table.values_perm h).flatMap_right Block.instructions
  exact (hvalues.append_left f.header).trans (List.perm_append_comm_assoc ..)

theorem instructionsBeside_of_new (h : f.blocks.contains id = false) :
    f.instructionsBeside id = f.instructions := by
  rw [instructionsBeside, Table.erase_of_not_contains h, instructions]

theorem instructions_setBlock_perm (f : Function) (id : BlockId) (b : Block) :
    (f.setBlock id b).instructions.Perm (b.instructions ++ f.instructionsBeside id) := by
  have hvalues := (Table.values_insert_perm f.blocks id b).flatMap_right Block.instructions
  exact (hvalues.append_left f.header).trans (List.perm_append_comm_assoc ..)

end Function

namespace Module

variable {m : Module} {id : FuncId} {f : Function}

theorem get?_setFunction (m : Module) (id id' : FuncId) (f : Function) :
    (m.setFunction id f).functions.get? id' = if id' = id then some f else m.functions.get? id' :=
  Table.get?_insert ..

theorem setFunction_setFunction (m : Module) (id : FuncId) (f f' : Function) :
    (m.setFunction id f).setFunction id f' = m.setFunction id f' := by
  simp only [setFunction, Table.insert_insert]

theorem setFunction_self (h : m.functions.get? id = some f) : m.setFunction id f = m := by
  rw [setFunction, Table.insert_self h]

/-- The instructions of all functions but one. -/
def instructionsBeside (m : Module) (id : FuncId) : List Instr :=
  (m.functions.erase id).values.flatMap (·.instructions)

theorem instructions_perm (h : m.functions.get? id = some f) :
    m.instructions.Perm (f.instructions ++ m.instructionsBeside id) :=
  (Table.values_perm h).flatMap_right Function.instructions

theorem mem_instructions (hf : m.functions.get? id = some f) {b : BlockId} {block : Block}
    (hb : f.blocks.get? b = some block) {i : Instr} (hi : i ∈ block.instructions) :
    i ∈ m.instructions :=
  (instructions_perm hf).mem_iff.2 (List.mem_append_left _
    ((Function.instructions_perm hb).mem_iff.2 (List.mem_append_left _ hi)))

theorem instructions_setFunction_perm (m : Module) (id : FuncId) (f : Function) :
    (m.setFunction id f).instructions.Perm (f.instructions ++ m.instructionsBeside id) :=
  (Table.values_insert_perm m.functions id f).flatMap_right Function.instructions

/-- The entries to come are those of a module that has changed elsewhere. -/
theorem get?_of_later {e : FuncId × Function} {es : List (FuncId × Function)}
    (hnodup : ((e :: es).map (·.1)).Nodup)
    (hes : ∀ e' ∈ es, m.functions.get? e'.1 = some e'.2) (f : Function) :
    ∀ e' ∈ es, (m.setFunction e.1 f).functions.get? e'.1 = some e'.2 := by
  intro e' he'
  have hne : e'.1 ≠ e.1 := by
    intro heq
    exact (List.nodup_cons.1 hnodup).1 (List.mem_map.2 ⟨e', he', heq⟩)
  rw [get?_setFunction, if_neg hne]
  exact hes e' he'

/-- A round over the functions of a module, each changed in its turn, and what is left to do. -/
theorem foldl_entries {τ : Type} {P : List (FuncId × Function) → τ → Prop} (module : τ → Module)
    (next : τ → FuncId × Function → τ)
    (hnext : ∀ t e, ∃ f, module (next t e) = (module t).setFunction e.1 f)
    (hstep : ∀ t id f es, P ((id, f) :: es) t → (module t).functions.get? id = some f →
      P es (next t (id, f)))
    {t : τ} (h : P (module t).functions.entries t) :
    P [] ((module t).functions.entries.foldl next t) := by
  have hnodup : ((module t).functions.entries.map (·.1)).Nodup := (module t).functions.keys_nodup
  have hes : ∀ e ∈ (module t).functions.entries, (module t).functions.get? e.1 = some e.2 := by
    intro e he
    exact Table.mem_entries.1 he
  generalize (module t).functions.entries = es at h hnodup hes
  induction es generalizing t with
  | nil => exact h
  | cons e es ih =>
    obtain ⟨he, hes⟩ := List.forall_mem_cons.1 hes
    obtain ⟨f, hf⟩ := hnext t e
    apply ih (hstep t e.1 e.2 es h he) (List.nodup_cons.1 hnodup).2
    rw [hf]
    exact get?_of_later hnodup hes f

/-- What each function keeps in its turn, the round keeps. -/
theorem foldl_functions {τ : Type} {P : τ → Prop} (module : τ → Module)
    (next : τ → FuncId × Function → τ)
    (hnext : ∀ t e, ∃ f, module (next t e) = (module t).setFunction e.1 f)
    (hstep : ∀ t id f, P t → (module t).functions.get? id = some f → P (next t (id, f)))
    {t : τ} (h : P t) : P ((module t).functions.entries.foldl next t) :=
  foldl_entries (P := fun _ => P) module next hnext (fun t id f _ => hstep t id f) h

/-- A round that may fail on a function. -/
theorem forFunctions_induction {P : Module → Environment → Prop} {env : Environment}
    {step : Function → Environment → Outcome (Function × Environment)}
    (hstep : ∀ m env id f f' env', P m env → m.functions.get? id = some f →
      step f env = .ok (f', env') → P (m.setFunction id f') env')
    {m' : Module} {env' : Environment} (hout : m.forFunctions step env = .ok (m', env'))
    (h : P m env) : P m' env' := by
  rw [forFunctions] at hout
  have hnodup : (m.functions.entries.map (·.1)).Nodup := m.functions.keys_nodup
  have hes : ∀ e ∈ m.functions.entries, m.functions.get? e.1 = some e.2 := by
    intro e he
    exact Table.mem_entries.1 he
  generalize m.functions.entries = es at hnodup hes hout
  induction es generalizing m env with
  | nil =>
    obtain ⟨rfl, rfl⟩ := Prod.mk.inj (Except.ok.inj hout)
    exact h
  | cons e es ih =>
    obtain ⟨he, hes⟩ := List.forall_mem_cons.1 hes
    rw [List.foldlM_cons] at hout
    dsimp only at hout
    rcases hone : step e.2 env with _ | ⟨f₁, env₁⟩
    · rw [hone] at hout
      cases hout
    · rw [hone] at hout
      exact ih (hstep m env e.1 e.2 f₁ env₁ h he hone) (List.nodup_cons.1 hnodup).2
        (get?_of_later hnodup hes f₁) hout

end Module

end Whittle.Ir
