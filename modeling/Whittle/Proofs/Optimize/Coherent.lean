import Mathlib.Tactic.Common
import Std.Data.TreeMap.Lemmas
import Whittle.Optimize.Pipeline
import Whittle.Proofs.Inline.Splice
import Whittle.Proofs.Optimize.Thinning

/-!
# Passes keep modules coherent

No pass invents places: what a module mentions after a pass it mentioned before, or the environment
has just handed it out.

Main statement: `Pass.coherent_step`.
-/

namespace Whittle.Ir

/-! ## Changes inside of functions -/

section Functions

variable {good own : Place → Prop} {f f' : Function} {R : List Instr → List Instr → Prop}

theorem Function.Reworks.uses (h : f.Reworks R f')
    (hR : ∀ is is', R is is' → (∀ i ∈ is, ∀ p ∈ i.places, good p) → ∀ i ∈ is', ∀ p ∈ i.places, good p)
    (hf : f.Uses good own) : f'.Uses good own := by
  obtain ⟨change, rfl, hchange⟩ := h
  refine hf.mapBlocks fun id b hb => ?_
  obtain ⟨hterminal, hinstrs⟩ := hchange id b hb
  have huses := hf.blocks id b hb
  exact ⟨hR _ _ hinstrs huses.instructions, hterminal ▸ huses.terminal, hterminal ▸ huses.returned⟩

theorem Module.AllUse.reworks {m m' : Module} {env : Environment} {cells : List Cell}
    (h : m.AllUse env cells) (hm : m.Reworks R m')
    (hR : ∀ is is', R is is' → (∀ i ∈ is, ∀ p ∈ i.places, p.IsOf cells) →
      ∀ i ∈ is', ∀ p ∈ i.places, p.IsOf cells) : m'.AllUse env cells := by
  intro id f' hf'
  obtain ⟨f, hf, hreworks⟩ := hm.get? hf'
  obtain ⟨hid, huses, hphis⟩ := h id f hf
  have huses' := hreworks.uses hR huses
  obtain ⟨change, rfl, -⟩ := hreworks
  exact ⟨hid, huses', hphis⟩

/-- Instructions that define the same and read no more. -/
theorem places_of_thins {is is' : List Instr} {G : Instr → Prop}
    (hthins : Thins Instr.Weakens G is is') (h : ∀ i ∈ is, ∀ p ∈ i.places, good p) :
    ∀ i ∈ is', ∀ p ∈ i.places, good p :=
  hthins.forall (fun _ _ hij hi p hp => hi p (hij.places hp)) h

/-- Forwarding keeps only places that it has seen. -/
structure Forwarding.Keeps (good : Place → Prop) (s : Forwarding) : Prop where
  stores : ∀ id p, s.stores.get? id = some p → good p
  loads : ∀ id e, s.loads.get? id = some e → good e.1

namespace Forwarding.Keeps

variable {s : Forwarding} {target value : Place}

theorem source (h : s.Keeps good) (target : Place) (hvalue : good value) :
    good ((s.source? target value).getD value) := by
  rw [source?]
  split
  · next source d hload =>
    split
    · exact hvalue
    · exact h.loads _ _ hload
  · exact hvalue

theorem noteStore (h : s.Keeps good) (canSkip : Place → Place → Bool) (target : Place)
    (hvalue : good value) : (s.noteStore canSkip target value).Keeps good := by
  rw [Forwarding.noteStore]
  split
  · refine ⟨fun id p hp => ?_, h.loads⟩
    rw [Std.TreeMap.get?_eq_getElem?, Std.TreeMap.getElem?_insert] at hp
    split at hp
    · exact Option.some.inj hp ▸ hvalue
    · exact h.stores id p hp
  · exact h

theorem noteLoad (h : s.Keeps good) (result place : Place) :
    (s.noteLoad result place).Keeps good := by
  rw [Forwarding.noteLoad]
  split
  · next value hstore =>
    refine ⟨h.stores, fun id e he => ?_⟩
    rw [Std.TreeMap.get?_eq_getElem?, Std.TreeMap.getElem?_insert] at he
    split at he
    · exact Option.some.inj he ▸ h.stores _ _ hstore
    · exact h.loads id e he
  · exact h

end Forwarding.Keeps

/-- Forwarding stores values that were stored before. -/
theorem places_forwardBlock {canSkip : Place → Place → Bool} {s : Forwarding} {is : List Instr}
    (hs : s.Keeps good) (h : ∀ i ∈ is, ∀ p ∈ i.places, good p) :
    ∀ i ∈ (forwardBlock canSkip s is).2, ∀ p ∈ i.places, good p := by
  induction is generalizing s with
  | nil => exact h
  | cons i is ih =>
    obtain ⟨hi, his⟩ := List.forall_mem_cons.1 h
    rw [forwardBlock]
    split
    · exact List.forall_mem_cons.2 ⟨hi, ih (hs.noteLoad _ _) his⟩
    · next target value kind hop =>
      simp only [Instr.places, Instr.reads, Instr.defined, hop, Op.reads, Op.target?] at hi
      have hvalue := hs.source target (hi value (by simp))
      refine List.forall_mem_cons.2 ⟨?_, ih (hs.noteStore canSkip target hvalue) his⟩
      simpa [Instr.places, Instr.reads, Instr.defined, Op.reads, Op.target?] using
        ⟨hvalue, hi i.place (by simp), hi target (by simp)⟩
    · next target value hop =>
      simp only [Instr.places, Instr.reads, Instr.defined, hop, Op.reads, Op.target?] at hi
      have hvalue := hs.source target (hi value (by simp))
      refine List.forall_mem_cons.2 ⟨?_, ih hs his⟩
      simpa [Instr.places, Instr.reads, Instr.defined, Op.reads, Op.target?] using
        ⟨hvalue, hi i.place (by simp), hi target (by simp)⟩
    · exact List.forall_mem_cons.2 ⟨hi, ih hs his⟩

theorem places_of_forwards {env : Environment} {is is' : List Instr} (hforwards : Forwards env is is')
    (h : ∀ i ∈ is, ∀ p ∈ i.places, good p) : ∀ i ∈ is', ∀ p ∈ i.places, good p := by
  obtain ⟨canSkip, -, rfl⟩ := hforwards
  exact places_forwardBlock ⟨fun id p hp => by simp at hp, fun id e he => by simp at he⟩ h

/-! Dead code. -/

theorem Function.Uses.remove (h : f.Uses good own) {block : BlockId} {b : Block}
    {before after : List Instr} {i : Instr} (hb : f.blocks.get? block = some b)
    (hinstrs : b.instructions = before ++ i :: after) :
    (f.setBlock block { b with instructions := before ++ after }).Uses good own := by
  have huses := h.blocks block b hb
  refine h.setBlock block (huses.withInstructions fun j hj => huses.instructions j ?_)
  rw [hinstrs]
  simp only [List.mem_append, List.mem_cons] at hj ⊢
  tauto

theorem Module.AllUse.sweepDead {m : Module} {env : Environment} {cells : List Cell}
    (h : m.AllUse env cells) : (m.sweepDead env).2.AllUse env cells := by
  obtain ⟨_, hswept⟩ : ∃ _counts, (m.sweepDead env).2.AllUse env cells := by
    apply Module.sweepDead_induction (P := fun m _ => m.AllUse env cells) _ h
    intro m _ _ id f _ _ _ _ _ hm hf hb hinstrs _
    obtain ⟨hid, huses, hphis⟩ := hm id f hf
    exact hm.setFunction ⟨hid, huses.remove hb hinstrs, hphis⟩
  exact hswept

/-! Merging. -/

theorem Function.Uses.dropUnreachable (h : f.Uses good own) : f.dropUnreachable.2.Uses good own := by
  rw [dropUnreachable_eq]
  exact ⟨h.params, h.header, forall_dropUnreachable h.blocks⟩

theorem Function.Uses.merge (h : f.Uses good own) {source : BlockId} {merged : Block}
    (hmerged : f.blocks.get? source = some merged) (target : BlockId) :
    (f.merge target source merged).Uses good own := by
  have huses := h.blocks source merged hmerged
  refine ⟨h.params, h.header, forall_merge h.blocks fun b hb => ⟨?_, huses.terminal, huses.returned⟩⟩
  exact List.forall_mem_append.2 ⟨hb.instructions, huses.instructions⟩

end Functions

/-- Records are moved from a block to another one. -/
theorem Environment.versionsOf_rehome (env : Environment) (source target : BlockId) (d : DeclId) :
    (env.rehome source target).versionsOf d =
      (env.versionsOf d).map fun r => if r.block == source then { r with block := target } else r := by
  rw [versionsOf, rehome, Table.getD, Table.get?_map, versionsOf, Table.getD]
  cases env.versions.get? d with
  | none => rfl
  | some rs => rfl

theorem Advance.rehome {env : Environment} {cells : List Cell} (h : env.Logs cells)
    (source target : BlockId) : Advance env cells (env.rehome source target) cells := by
  refine ⟨⟨h.length, h.declared, h.numbered, fun d r hr => ?_⟩, List.prefix_refl _, Nat.le_refl _,
    fun _ _ => rfl, fun _ _ => rfl, fun _ hd => hd, fun d r hr => ?_, Nat.le_refl _, fun _ hd => .inl hd⟩
  · rw [Environment.versionsOf_rehome] at hr
    obtain ⟨r₀, hr₀, rfl⟩ := List.mem_map.1 hr
    split <;> exact h.recorded d r₀ hr₀
  · rw [Environment.versionsOf_rehome]
    refine ⟨_, List.mem_map_of_mem hr, ?_⟩
    split <;> rfl

theorem Function.Fits.dropUnreachable {f : Function} {env : Environment} {cells : List Cell}
    {id : FuncId} (h : f.Fits env cells id) : f.dropUnreachable.2.Fits env cells id := by
  have huses := h.uses.dropUnreachable
  rw [dropUnreachable_eq] at huses ⊢
  exact ⟨h.id, huses, h.phis⟩

/-- Records move from block to block, no cell is handed out. -/
theorem Module.AllUse.mergeBlocks {m : Module} {env : Environment} {cells : List Cell}
    (hall : m.AllUse env cells) (hlogs : env.Logs cells) :
    Advance env cells (m.mergeBlocks env).2.2 cells ∧
      (m.mergeBlocks env).2.1.AllUse (m.mergeBlocks env).2.2 cells := by
  refine Module.mergeBlocks_induction
    (P := fun m env' => Advance env cells env' cells ∧ m.AllUse env' cells) ?_ ?_ ⟨.refl hlogs, hall⟩
  · rintro m env' id f ⟨hadvance, hall⟩ hf
    exact ⟨hadvance, hall.setFunction (hall id f hf).dropUnreachable⟩
  · rintro m env' id f target source merged ⟨hadvance, hall⟩ hf - hmerged
    have hrehome := Advance.rehome hadvance.logs source target
    obtain ⟨hid, huses, hphis⟩ := hall id f hf
    have hfits : (f.merge target source merged).Fits env' cells id :=
      ⟨hid, huses.merge hmerged target, hphis⟩
    exact ⟨hadvance.trans hrehome, (AllUse.advance hall hrehome).setFunction (hrehome.fits hfits)⟩

/-! ## Rounds -/

theorem Module.AllUse.of_inlineOne {m : Module} {env : Environment} {cells : List Cell}
    (hall : m.AllUse env cells) (hlogs : env.Logs cells) (cache : RecursionCache) :
    ∃ cells', Advance env cells (m.inlineOne env cache).2.2.1 cells' ∧
      (m.inlineOne env cache).2.1.AllUse (m.inlineOne env cache).2.2.1 cells' := by
  rcases hinline : m.inlineOne env cache with ⟨changed, m', env', cache'⟩
  cases changed with
  | true => exact hall.inlineOne hlogs hinline
  | false =>
    obtain ⟨rfl, rfl⟩ := Module.inlineOne_eq_false hinline
    exact ⟨cells, .refl hlogs, hall⟩

/-- After one round of any pass the environment has come further, and all functions still fit in. -/
theorem Pass.advance_step {w : Workbench} {cells : List Cell} (hall : w.module.AllUse w.env cells)
    (hlogs : w.env.Logs cells) (pass : Pass) :
    ∃ cells', Advance w.env cells (pass.step w).2.env cells' ∧
      (pass.step w).2.module.AllUse (pass.step w).2.env cells' := by
  cases pass with
  | inlining => exact hall.of_inlineOne hlogs w.recursion
  | propagation =>
    exact ⟨cells, .refl hlogs, hall.reworks (w.module.reworks_propagateConstants w.env w.constants)
      fun _ _ h => places_of_thins (h.thins fun _ => False)⟩
  | forwarding =>
    exact ⟨cells, .refl hlogs, hall.reworks (w.module.reworks_forwardStores w.env)
      fun _ _ => places_of_forwards⟩
  | overwriting =>
    exact ⟨cells, .refl hlogs, hall.reworks (w.module.reworks_dropOverwritten w.env)
      fun _ _ h => places_of_thins h.thins⟩
  | sweeping => exact ⟨cells, .refl hlogs, hall.sweepDead⟩
  | merging => exact ⟨cells, hall.mergeBlocks hlogs⟩

/-- One round of any pass keeps a module coherent. -/
theorem Pass.coherent_step {w : Workbench} (h : w.module.Coherent w.env) (pass : Pass) :
    (pass.step w).2.module.Coherent (pass.step w).2.env := by
  obtain ⟨cells, hlogs, hall⟩ := h
  obtain ⟨cells', hadvance, hall'⟩ := pass.advance_step hall hlogs
  exact ⟨cells', hadvance.logs, hall'⟩

end Whittle.Ir
