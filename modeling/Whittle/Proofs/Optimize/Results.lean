import Mathlib.Tactic.Common
import Whittle.Proofs.Optimize.Temporaries

/-!
# Cells of results

Every instruction has a cell of its own for what it computes.  Such a cell has a numbered version:
lowering makes no others, what operations add is a temporary or the counterpart of such a cell, and
everything else keeps its place.  Numbered versions are defined once, so no two instructions of a
module share such a cell.

Main statement: `Module.Reached.results_nodup`.
-/

namespace Whittle.Ir

/-- What an instruction computes goes into a cell with a numbered version. -/
def Instr.IsNumbered (i : Instr) : Prop := i.place.cell.version.isNumbered = true

theorem Instr.isNumbered_newInstr (env : Environment) (owner : FuncId) (op : Op) :
    (env.newInstr owner op).1.IsNumbered := rfl

section Blocks

variable {is js : List Instr}

/-- Only the places count. -/
theorem Instr.isNumbered_of_subset (h : js.map (·.place) ⊆ is.map (·.place))
    (his : ∀ i ∈ is, i.IsNumbered) : ∀ j ∈ js, j.IsNumbered := by
  intro j hj
  obtain ⟨i, hi, hplace⟩ := List.mem_map.1 (h (List.mem_map_of_mem hj))
  rw [IsNumbered, ← hplace]
  exact his i hi

theorem Thins.place_subset {G : Instr → Prop} (h : Thins Instr.Weakens G is js) :
    js.map (·.place) ⊆ is.map (·.place) := by
  induction h with
  | nil => exact List.Subset.refl _
  | keep hij _ ih =>
    rw [List.map_cons, List.map_cons, hij.place]
    exact List.cons_subset_cons _ ih
  | drop _ _ ih => exact List.subset_cons_of_subset _ ih

theorem place_forwardBlock (canSkip : Place → Place → Bool) (s : Forwarding) (is : List Instr) :
    (forwardBlock canSkip s is).2.map (·.place) = is.map (·.place) := by
  induction is generalizing s with
  | nil => rfl
  | cons i is ih =>
    rw [forwardBlock]
    split <;> simp [ih]

end Blocks

namespace Function

variable {f f' : Function} {env env' : Environment}

/-- All instructions of a function have numbered places. -/
structure Numbered (f : Function) : Prop where
  header : ∀ i ∈ f.header, i.IsNumbered
  blocks : ∀ id b, f.blocks.get? id = some b → ∀ i ∈ b.instructions, i.IsNumbered

theorem Numbered.instructions (h : f.Numbered) : ∀ i ∈ f.instructions, i.IsNumbered := by
  intro i hi
  rcases List.mem_append.1 hi with hi | hi
  · exact h.header i hi
  · obtain ⟨b, hb, hi⟩ := List.mem_flatMap.1 hi
    obtain ⟨id, hb⟩ := Table.mem_values.1 hb
    exact h.blocks id b hb i hi

theorem Numbered.setBlock (h : f.Numbered) (id : BlockId) {b : Block}
    (hb : ∀ i ∈ b.instructions, i.IsNumbered) : (f.setBlock id b).Numbered :=
  ⟨h.header, forall_setBlock h.blocks id hb⟩

theorem Numbered.mapBlocks (h : f.Numbered) {g : BlockId → Block → Block}
    (hg : ∀ id b, f.blocks.get? id = some b →
      (g id b).instructions.map (·.place) ⊆ b.instructions.map (·.place)) :
    (f.mapBlocks g).Numbered :=
  ⟨h.header, forall_mapBlocks fun id b hb => Instr.isNumbered_of_subset (hg id b hb) (h.blocks id b hb)⟩

theorem Numbered.reworks {R : List Instr → List Instr → Prop} (h : f.Numbered) (hf : f.Reworks R f')
    (hR : ∀ is js, R is js → js.map (·.place) ⊆ is.map (·.place)) : f'.Numbered := by
  obtain ⟨change, rfl, hchange⟩ := hf
  exact h.mapBlocks fun id b hb => hR _ _ (hchange id b hb).2

theorem Numbered.dropUnreachable (h : f.Numbered) : f.dropUnreachable.2.Numbered := by
  rw [dropUnreachable_eq]
  exact ⟨h.header, forall_dropUnreachable h.blocks⟩

theorem Numbered.merge (h : f.Numbered) {target source : BlockId} {merged : Block}
    (hmerged : f.blocks.get? source = some merged) : (f.merge target source merged).Numbered :=
  ⟨h.header, forall_merge h.blocks fun _ hb => List.forall_mem_append.2 ⟨hb, h.blocks _ _ hmerged⟩⟩

theorem survives_numbered (phi : Phi) : Survives (fun f _ => f.Numbered) phi where
  store := by
    intro f env first hf _
    refine ⟨hf.header, forall_withStore hf.blocks fun b hb i hi => ?_⟩
    rcases mem_of_mem_insertBehind hi with rfl | hi
    · exact Instr.isNumbered_newInstr ..
    · exact hb i hi
  redirect := by
    intro f env hf
    refine hf.mapBlocks fun id b _ => ?_
    split
    · refine (List.Perm.of_eq ?_).subset
      refine List.ext_getElem (by simp) fun index _ _ => ?_
      simp only [List.getElem_map, List.getElem_mapIdx]
      split
      · rfl
      · rfl
    · exact List.Subset.refl _
  copy := by
    intro f env predecessor operand b hf _ hb
    refine hf.setBlock _ (List.forall_mem_append.2 ⟨hf.blocks _ _ hb, ?_⟩)
    simp [copyInstrs, Instr.isNumbered_newInstr]

theorem Numbered.eliminateSsa (h : f.Numbered) (hout : f.eliminateSsa env = .ok (f', env')) :
    f'.Numbered :=
  eliminateSsa_induction (fun phi _ _ => survives_numbered phi) ⟨h.header, h.blocks⟩ hout

end Function

/-- What replaces a call is numbered, as are the instructions around it. -/
theorem Splice.numbered_replaced {m : Module} {env : Environment} {start : List Cell}
    (s : Splice m env start) (h : s.caller.Numbered) : s.replaced.Numbered := by
  have hblock := h.blocks _ _ s.block_mem
  rw [s.block_eq] at hblock
  obtain ⟨hbefore, hcall, hafter⟩ := List.forall_mem_append.1 hblock |>.imp_right List.forall_mem_cons.1
  have hmain (i : Instr) (hi : i ∈ s.main) : i.IsNumbered :=
    s.isNumbered_main s.expands.goes.env.logs _ (List.mem_flatMap.2 ⟨i, hi, List.mem_cons_self⟩)
  -- a result that is not there is defined in the place of the call
  have hclosing (i : Instr) (hi : i ∈ s.closing s.call) : i.IsNumbered := by
    rw [Inlining.closing] at hi
    cases hreturned : returned? s.body with
    | none =>
      rw [hreturned] at hi
      obtain rfl := List.mem_singleton.1 hi
      exact hcall
    | some p =>
      rw [hreturned] at hi
      cases hi
  have hspliced : s.spliced.Numbered := by
    refine h.setBlock _ fun i hi => ?_
    rw [s.instructions_eq, List.mem_append, List.mem_append, List.mem_append] at hi
    rcases hi with hi | hi | hi | hi
    · exact hbefore i hi
    · exact hmain i hi
    · exact hclosing i hi
    · exact hafter i hi
  refine hspliced.mapBlocks fun id b _ => (List.Perm.of_eq ?_).subset
  rw [Block.mapReads, List.map_map]
  rfl

namespace Module

variable {m m' : Module} {env env' : Environment} {cells : List Cell} {id : FuncId} {f : Function}

/-- All instructions of a module have numbered places. -/
def Numbered (m : Module) : Prop := ∀ id f, m.functions.get? id = some f → f.Numbered

theorem Numbered.setFunction (h : m.Numbered) (hf : f.Numbered) : (m.setFunction id f).Numbered := by
  intro id' f' hf'
  rw [get?_setFunction] at hf'
  split at hf'
  · exact Option.some.inj hf' ▸ hf
  · exact h id' f' hf'

theorem Numbered.reworks {R : List Instr → List Instr → Prop} (h : m.Numbered) (hm : m.Reworks R m')
    (hR : ∀ is js, R is js → js.map (·.place) ⊆ is.map (·.place)) : m'.Numbered := by
  intro id f' hf'
  obtain ⟨f, hf, hreworks⟩ := hm.get? hf'
  exact (h id f hf).reworks hreworks hR

theorem Numbered.sweepDead (h : m.Numbered) : (m.sweepDead env).2.Numbered := by
  apply sweepDead_removals _ h
  intro m id f b block before i after hm hf hb hinstrs _
  refine hm.setFunction ((hm id f hf).setBlock b fun j hj => (hm id f hf).blocks b block hb j ?_)
  rw [hinstrs]
  exact ((List.sublist_cons_self i after).append_left before).subset hj

theorem Numbered.mergeBlocks (h : m.Numbered) : (m.mergeBlocks env).2.1.Numbered := by
  refine mergeBlocks_induction (P := fun m _ => m.Numbered) ?_ ?_ h
  · intro m env id f hm hf
    exact hm.setFunction (hm id f hf).dropUnreachable
  · intro m env id f target source merged hm hf _ hmerged
    exact hm.setFunction ((hm id f hf).merge hmerged)

theorem Numbered.inlineOne (h : m.Numbered) (hall : m.AllUse env cells) (hlogs : env.Logs cells)
    (cache : RecursionCache) : (m.inlineOne env cache).2.1.Numbered := by
  rcases hinline : m.inlineOne env cache with ⟨changed, m', env', cache'⟩
  cases changed with
  | false =>
    obtain ⟨rfl, rfl⟩ := inlineOne_eq_false hinline
    exact h
  | true =>
    obtain ⟨s, rfl, rfl⟩ := exists_splice hall hlogs hinline
    exact h.setFunction (s.numbered_replaced (h _ _ s.caller_mem))

end Module

theorem Pass.numbered_step {w : Workbench} {cells : List Cell} (h : w.module.Numbered)
    (hall : w.module.AllUse w.env cells) (hlogs : w.env.Logs cells) (pass : Pass) :
    (pass.step w).2.module.Numbered := by
  cases pass with
  | inlining => exact h.inlineOne hall hlogs w.recursion
  | propagation =>
    apply h.reworks (w.module.reworks_propagateConstants w.env w.constants)
    exact fun _ _ hfolds => (hfolds.thins fun _ => False).place_subset
  | forwarding =>
    apply h.reworks (w.module.reworks_forwardStores w.env)
    rintro is _ ⟨canSkip, -, rfl⟩
    exact (List.Perm.of_eq (place_forwardBlock canSkip {} is)).subset
  | overwriting =>
    apply h.reworks (w.module.reworks_dropOverwritten w.env)
    exact fun _ _ hoverwrites => hoverwrites.thins.place_subset
  | sweeping => exact h.sweepDead
  | merging => exact h.mergeBlocks

namespace Module

variable {m m' : Module} {env env' : Environment} {cells : List Cell}

theorem Numbered.next (h : m.Numbered) (hall : m.AllUse env cells) (hlogs : env.Logs cells)
    (hop : Operation m env m' env') : m'.Numbered := by
  cases hop with
  | resolve globals => exact h
  | @buildSsa _ _ f _ hf => exact h.setFunction ⟨(h _ _ hf).header, (h _ _ hf).blocks⟩
  | eliminateSsa hf hout => exact h.setFunction ((h _ _ hf).eliminateSsa hout)
  | step w pass => exact pass.numbered_step h hall hlogs

theorem numbered_lower {path : String} {tree : Syntax.Module} (h : tree.lower path {} = .ok (m, env)) :
    m.Numbered := by
  obtain ⟨home, -, hclosed⟩ := Syntax.Module.closed_lower h
  have hplace (id : FuncId) (f : Function) (hf : m.functions.get? id = some f) (i : Instr)
      (hi : i ∈ f.instructions) : i.IsNumbered := by
    obtain ⟨b, hi⟩ := f.exists_code hi
    exact ((hclosed id f hf).tells.known b i hi i.place List.mem_cons_self).2
  refine fun id f hf => ⟨fun i hi => hplace id f hf i (List.mem_append_left _ hi), ?_⟩
  exact fun b block hb i hi => hplace id f hf i (List.mem_append_right _
    (List.mem_flatMap.2 ⟨block, Table.mem_values.2 ⟨b, hb⟩, hi⟩))

theorem Reached.numbered (h : m.Reached env) : m.Numbered := by
  induction h with
  | lower hlower => exact numbered_lower hlower
  | next hreached hop ih =>
    obtain ⟨cells, hlogs, hall⟩ := hreached.coherent
    exact ih.next hall hlogs hop

theorem Reached.isNumbered (h : m.Reached env) {i : Instr} (hi : i ∈ m.instructions) : i.IsNumbered := by
  obtain ⟨f, hf, hi⟩ := List.mem_flatMap.1 hi
  obtain ⟨id, hf⟩ := Table.mem_values.1 hf
  exact (h.numbered id f hf).instructions i hi

theorem results_sublist {is : List Instr} (h : ∀ i ∈ is, i.IsNumbered) :
    (is.map (·.place.cell.id)).Sublist (numberedCells (is.flatMap (·.defined))) := by
  induction is with
  | nil => exact .slnil
  | cons i is ih =>
    obtain ⟨hi, his⟩ := List.forall_mem_cons.1 h
    rw [Instr.IsNumbered] at hi
    rw [List.flatMap_cons, Instr.defined, List.cons_append, numberedCells, List.filter_cons, if_pos hi,
      List.map_cons, List.map_cons]
    refine List.Sublist.cons_cons _ ((ih his).trans ?_)
    exact ((List.sublist_append_right _ _).filter _).map _

/-- Results are apart: whatever operations have led to a module, no two instructions of the module
compute their values into one cell. -/
theorem Reached.results_nodup (h : m.Reached env) :
    (m.instructions.map (·.place.cell.id)).Nodup :=
  h.numberedOnce.nodup.sublist (results_sublist fun _ hi => h.isNumbered hi)

end Module

end Whittle.Ir
