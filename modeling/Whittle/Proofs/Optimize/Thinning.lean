import Mathlib.Tactic.Common
import Std.Data.TreeMap.Lemmas
import Whittle.Proofs.Ir.Visible
import Whittle.Proofs.Optimize.Overwritten
import Whittle.Proofs.Optimize.Rounds

/-!
# Fewer instructions

Three passes read less than was read before: values become literals, overwritten stores go, dead code
goes.  What goes is read by nobody, because the counts that the passes go by are never too small.

Main statement: `Module.sweepDead_removals`.
-/

namespace Whittle.Ir

/-- An instruction in the place of another one that defines the same and reads no more. -/
structure Instr.Weakens (i j : Instr) : Prop where
  defined : j.defined = i.defined
  reads : j.reads ⊆ i.reads
  unnamed : j.op.isUnnamed = true → i.op.isUnnamed = true
  binding : j.op.isBinding = true → i.op.isBinding = true
  exposing : j.op.isExposing true = true → j.op = i.op

theorem Instr.Weakens.refl (i : Instr) : i.Weakens i := ⟨rfl, fun _ hp => hp, fun h => h, fun h => h, fun _ => rfl⟩

theorem Instr.Weakens.place {i j : Instr} (h : i.Weakens j) : j.place = i.place :=
  (List.cons.inj h.defined).1

theorem Instr.Weakens.writes {i j : Instr} (h : i.Weakens j) : j.writes = i.writes := by
  rw [Instr.writes, Instr.writes, h.defined]

theorem Instr.Weakens.places {i j : Instr} (h : i.Weakens j) : j.places ⊆ i.places := by
  intro p hp
  rcases List.mem_append.1 hp with hp | hp
  · exact List.mem_append_left _ (h.reads hp)
  · exact List.mem_append_right _ (h.defined ▸ hp)

section Lists

variable {is is' : List Instr}

theorem Thins.defined {G : Instr → Prop} (h : Thins Instr.Weakens G is is') :
    (is'.flatMap (·.defined)).Sublist (is.flatMap (·.defined)) := by
  induction h with
  | nil => exact .slnil
  | keep hij _ ih =>
    rw [List.flatMap_cons, List.flatMap_cons, hij.defined]
    exact ih.append_left _
  | drop _ _ ih => exact ih.trans (List.sublist_append_right _ _)

/-- What only computes a value writes no variable, and it need not be named. -/
theorem Op.of_isFoldable {op : Op} (h : op.isFoldable = true) : op.target? = none ∧ op.isUnnamed = true := by
  cases op <;> first | exact ⟨rfl, rfl⟩ | cases h

theorem Folds.thins (h : Folds is is') (G : Instr → Prop) : Thins Instr.Weakens G is is' := by
  obtain ⟨value?, hfoldable, rfl⟩ := h
  apply Thins.of_forall₂
  rw [replaceKnown, List.forall₂_iff_get]
  refine ⟨by simp, fun index hindex _ => ?_⟩
  simp only [List.get_eq_getElem, List.getElem_map, List.getElem_mapIdx]
  split
  · next v hv =>
    obtain ⟨htarget, hunnamed⟩ := Op.of_isFoldable (hfoldable _ _ v hv)
    constructor
    · rw [Instr.defined, Instr.defined, htarget]
      rfl
    · exact List.nil_subset _
    · exact fun _ => hunnamed
    · rintro ⟨⟩
    · rintro ⟨⟩
  · exact .refl _

/-- A store with another word. -/
theorem Instr.weakens_store {i : Instr} {target value : Place} {kind : StoreKind}
    (hop : i.op = .storeLocal target value kind) (word : StoreKind) :
    i.Weakens { i with op := .storeLocal target value word } := by
  constructor
  · simp [defined, hop, Op.target?]
  · simp [reads, hop, Op.reads]
  · simp [hop, Op.isUnnamed]
  · rintro ⟨⟩
  · rintro ⟨⟩

/-- Only stores into what nobody reads go. -/
theorem Omits.thins {env : Environment} {unread : Place → Prop} {words : Legacy}
    (h : Omits env unread words is is') :
    Thins Instr.Weakens (fun i => ∀ p ∈ i.defined, unread p) is is' := by
  induction h with
  | nil => exact .nil
  | keep _ _ ih => exact .keep (.refl _) ih
  | store hop _ _ ih => exact .keep (Instr.weakens_store hop _) ih
  | drop hop hredundant _ _ ih =>
    refine .drop ?_ ih
    simpa [Instr.defined, hop, Op.target?] using ⟨hredundant.unread_place, hredundant.unread_target⟩

theorem Overwrites.thins {env : Environment} {isUnread : Place → Bool}
    (h : Overwrites env isUnread is is') :
    Thins Instr.Weakens (fun i => ∀ p ∈ i.defined, isUnread p = true) is is' := by
  obtain rfl := h
  exact (omits_dropOverwritten env isUnread is).thins

end Lists

/-! ## Counts of reads -/

/-- The cells that a module reads, each as often as it does. -/
def Module.readCells (m : Module) : List CellId := m.reads.map (·.cell.id)

theorem Module.getD_readCounts (m : Module) (id : CellId) :
    m.readCounts.getD id 0 = m.readCells.count id := by
  have hstep (ps : List Place) (counts : CellMap Nat) :
      (ps.foldl (fun counts p => counts.insert p.cell.id (counts.getD p.cell.id 0 + 1)) counts).getD id 0 =
        counts.getD id 0 + (ps.map (·.cell.id)).count id := by
    induction ps generalizing counts with
    | nil => rfl
    | cons p ps ih =>
      rw [List.foldl_cons, ih, Std.TreeMap.getD_insert, List.map_cons, List.count_cons]
      by_cases hid : p.cell.id = id
      · simp [hid]
        omega
      · simp [hid]
  rw [readCounts, hstep, Std.TreeMap.getD_emptyc, Nat.zero_add, readCells]

theorem ReadCounts.getD_release (counts : ReadCounts) (ps : List Place) (id : CellId) :
    (counts.release ps).getD id 0 = counts.getD id 0 - (ps.map (·.cell.id)).count id := by
  rw [release]
  induction ps generalizing counts with
  | nil => rfl
  | cons p ps ih =>
    rw [List.foldl_cons, ih, Std.TreeMap.getD_modify, List.map_cons, List.count_cons]
    by_cases hid : p.cell.id = id
    · subst hid
      rw [Std.TreeMap.getD_eq_getD_getElem?]
      cases counts[p.cell.id]? <;> simp
      omega
    · simp [hid]

/-- What is removed as dead is unread, as far as the counts tell. -/
theorem Instr.isUnread_of_isDead {env : Environment} {shapes : ArrayShapes} {counts : ReadCounts}
    {i : Instr} (h : i.isDead env shapes counts = true) {p : Place} (hp : p ∈ i.defined) :
    counts.of p = 0 := by
  have hplace (htarget : i.op.target? = none) (hunread : (counts.of i.place == 0) = true) :
      counts.of p = 0 := by
    obtain rfl : p = i.place := by simpa [Instr.defined, htarget] using hp
    exact eq_of_beq hunread
  rw [Instr.isDead] at h
  dsimp only at h
  split at h
  · cases h
  · next target _ _ hop =>
    simp only [Bool.and_eq_true, beq_iff_eq] at h
    simp only [Instr.defined, hop, Op.target?, Option.toList_some, List.mem_cons, List.not_mem_nil,
      or_false] at hp
    rcases hp with rfl | rfl
    · exact h.1.1
    · exact h.1.2
  · next hop =>
    split at h
    · cases h
    · simp only [Bool.and_eq_true] at h
      exact hplace (hop ▸ rfl) h.1.1
  · next hcopy hstore _ =>
    have htarget : i.op.target? = none := by
      cases hop : i.op with
      | copy target value => exact absurd hop (hcopy target value)
      | storeLocal target value kind => exact absurd hop (hstore target value kind)
      | _ => rfl
    exact hplace htarget (Bool.and_eq_true_iff.1 h).2

section Removal

variable {f : Function} {block : BlockId} {b : Block} {before after : List Instr} {i : Instr}

theorem Function.reads_remove (hb : f.blocks.get? block = some b)
    (hinstrs : b.instructions = before ++ i :: after) :
    f.reads.Perm (i.reads ++
      (f.setBlock block { b with instructions := before ++ after }).reads) := by
  have hold := (instructions_perm hb).flatMap_right fun i : Instr => i.reads
  have hnew := (instructions_setBlock_perm f block
    { b with instructions := before ++ after }).flatMap_right fun i : Instr => i.reads
  have hkept := (Table.values_insert_perm f.blocks block
    { b with instructions := before ++ after }).filterMap Block.terminal
  have hterminals : f.terminals.Perm
      (f.setBlock block { b with instructions := before ++ after }).terminals := by
    refine ((Table.values_perm hb).filterMap Block.terminal).trans (List.Perm.trans ?_ hkept.symm)
    simp only [List.filterMap_cons]
    exact .refl _
  have hlast := hterminals.flatMap_right fun t : Terminal => t.reads
  rw [hinstrs] at hold
  rw [List.perm_iff_count] at hold hnew hlast ⊢
  intro p
  have hold := hold p
  have hnew := hnew p
  have hlast := hlast p
  simp only [reads, List.count_append, List.flatMap_append, List.flatMap_cons] at hold hnew hlast ⊢
  omega

theorem Module.readCells_remove {m : Module} {id : FuncId} (hf : m.functions.get? id = some f)
    (hb : f.blocks.get? block = some b) (hinstrs : b.instructions = before ++ i :: after) :
    m.readCells.Perm (i.reads.map (·.cell.id) ++ (m.setFunction id
      (f.setBlock block { b with instructions := before ++ after })).readCells) := by
  rw [readCells, readCells, ← List.map_append]
  apply List.Perm.map
  have hold := (Table.values_perm hf).flatMap_right fun f : Function => f.reads
  have hnew := (Table.values_insert_perm m.functions id
    (f.setBlock block { b with instructions := before ++ after })).flatMap_right fun f : Function => f.reads
  refine hold.trans (List.Perm.trans ?_ (hnew.symm.append_left _))
  rw [List.flatMap_cons, List.flatMap_cons, ← List.append_assoc]
  exact (Function.reads_remove hb hinstrs).append_right _

end Removal

/-- What survives the removal of any one dead instruction that defines what nobody reads survives a
round of removing dead code. -/
theorem Module.sweepDead_deletions {P : Module → Prop} {env : Environment}
    (hremove : ∀ (m : Module) id f block b before i after, P m → m.functions.get? id = some f →
      f.blocks.get? block = some b → b.instructions = before ++ i :: after →
      (∃ shapes counts, i.isDead env shapes counts = true) →
      (∀ p ∈ i.defined, p.cell.id ∉ m.readCells) →
      P (m.setFunction id (f.setBlock block { b with instructions := before ++ after })))
    {m : Module} (h : P m) : P (m.sweepDead env).2 := by
  obtain ⟨_, hswept, -⟩ : ∃ counts : ReadCounts, P (m.sweepDead env).2 ∧
      ∀ id, (m.sweepDead env).2.readCells.count id ≤ counts.getD id 0 := by
    refine sweepDead_induction (P := fun m counts => P m ∧ ∀ id, m.readCells.count id ≤ counts.getD id 0)
      ?_ ⟨h, fun id => (m.getD_readCounts id).ge⟩
    rintro m counts shapes id f block b before i after ⟨hm, hcounts⟩ hf hb hinstrs hdead
    constructor
    · refine hremove m id f block b before i after hm hf hb hinstrs ⟨shapes, counts, hdead⟩ fun p hp => ?_
      have hunread : counts.getD p.cell.id 0 = 0 := i.isUnread_of_isDead hdead hp
      have := hcounts p.cell.id
      exact List.count_eq_zero.1 (by omega)
    · intro c
      have hcount := List.perm_iff_count.1 (readCells_remove hf hb hinstrs) c
      have := hcounts c
      rw [List.count_append] at hcount
      rw [ReadCounts.getD_release]
      omega
  exact hswept

/-- What survives the removal of any one instruction that defines what nobody reads survives a round of
removing dead code. -/
theorem Module.sweepDead_removals {P : Module → Prop} {env : Environment}
    (hremove : ∀ (m : Module) id f block b before i after, P m → m.functions.get? id = some f →
      f.blocks.get? block = some b → b.instructions = before ++ i :: after →
      (∀ p ∈ i.defined, p.cell.id ∉ m.readCells) →
      P (m.setFunction id (f.setBlock block { b with instructions := before ++ after })))
    {m : Module} (h : P m) : P (m.sweepDead env).2 :=
  sweepDead_deletions (fun m id f block b before i after hm hf hb hinstrs _ hunread =>
    hremove m id f block b before i after hm hf hb hinstrs hunread) h

end Whittle.Ir
