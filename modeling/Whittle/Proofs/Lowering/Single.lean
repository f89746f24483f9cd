import Mathlib.Tactic.Common
import Whittle.Proofs.Ir.Cells
import Whittle.Proofs.Ir.Functions
import Whittle.Proofs.Lowering.Sound

/-!
# Lowering defines cells once

A version is handed out before it is written: as the one that is due, as one kept for a function, or as
the first version of a variable that some declaring statement may take later.  Each of them is held in
one place only, and a write takes it away from there.  So no cell is defined twice (`Single.steps`).
-/

namespace Whittle.Lowering

open Ir

/-! ## What is held -/

/-- The instructions of a function that is being filled. -/
def Frame.instructions (frame : Frame) : List Instr := frame.filled ++ frame.function.instructions

/-- The versions that are yet to be written. -/
def Plan.pending (plan : Plan) : List CellId :=
  plan.hoisted.map (·.2.cell.id) ++ (plan.due.map (·.2.cell.id)).toList

/-- The cells that a function defines and those that it is about to define. -/
def heldBy (frame : Frame) (plan : Plan) : List CellId :=
  frame.instructions.flatMap Instr.writes ++ plan.pending

/-- The functions of a configuration that are not done. -/
def Config.opened (c : Config) : List (Frame × Plan) := (c.state.frame, c.plan) :: c.saved

/-- The instructions of the functions that are done. -/
def State.done (s : State) : List Instr := s.functions.values.flatMap (·.instructions)

/-- All cells that are defined or about to be. -/
def Config.held (c : Config) : List CellId :=
  c.state.done.flatMap Instr.writes ++ c.opened.flatMap fun o => heldBy o.1 o.2

/-- The variables of each function whose first version a declaring statement may take. -/
def Config.unclaimed (c : Config) : List (KeySet DeclId) := c.opened.map (·.1.unclaimed)

/-- Every cell is held once, and the first versions left to declaring statements are not held. -/
structure Single (c : Config) : Prop where
  once : ∀ id, c.held.count id ≤ 1
  lt : ∀ id ∈ c.held, id.index < c.state.env.nextCell.index
  unclaimed : ∀ u ∈ c.unclaimed, ∀ d, u.contains d = true → ∃ first more,
    c.state.env.versionsOf d = first :: more ∧ (more = [] → first.place.cell.id ∉ c.held)
  apart : c.unclaimed.Pairwise fun u u' => ∀ d, u.contains d = true → u'.contains d = false

variable {c c' : Config}

theorem Config.count_held (s : State) (plan : Plan) (saved : List (Frame × Plan))
    (home : Table BlockId FuncId) (id : CellId) : (Config.held ⟨s, plan, saved, home⟩).count id =
      (s.done.flatMap Instr.writes).count id + (heldBy s.frame plan).count id +
        (saved.flatMap fun o => heldBy o.1 o.2).count id := by
  simp only [Config.held, Config.opened, List.flatMap_cons, List.count_append]
  omega

/-- A version that is due is one more that is held. -/
theorem count_heldBy_due (frame : Frame) (reserved heads : List BlockId)
    (hoisted : List (DeclId × Place)) (d : DeclId) (place : Place) (id : CellId) :
    (heldBy frame ⟨reserved, heads, hoisted, some (d, place)⟩).count id =
      (if place.cell.id = id then 1 else 0) + (heldBy frame ⟨reserved, heads, hoisted, none⟩).count id := by
  simp only [heldBy, Plan.pending, List.count_append, Option.map_some, Option.map_none,
    Option.toList_some, Option.toList_none, List.count_singleton, List.count_nil, beq_iff_eq]
  omega

/-- Nothing is held twice when at most the next cell comes to what is held. -/
theorem Single.advance (h : Single c) (hkept : c.state.env.WellKept) (new : Nat) (hnew : new ≤ 1)
    (hnext : c.state.env.nextCell.index + new ≤ c'.state.env.nextCell.index)
    (hheld : ∀ id, c'.held.count id ≤
      (if c.state.env.nextCell = id then new else 0) + c.held.count id)
    (hversions : ∀ d, ∃ more, c'.state.env.versionsOf d = c.state.env.versionsOf d ++ more)
    (hunclaimed : ∀ u' ∈ c'.unclaimed, ∀ d, u'.contains d = true → ∃ u ∈ c.unclaimed, u.contains d = true)
    (hapart : c'.unclaimed.Pairwise fun u u' => ∀ d, u.contains d = true → u'.contains d = false) :
    Single c' := by
  have hnext_held : c.held.count c.state.env.nextCell = 0 := by
    rw [List.count_eq_zero]
    intro hmem
    exact Nat.lt_irrefl _ (h.lt _ hmem)
  have hcases (id : CellId) (hid : id ∈ c'.held) :
      id = c.state.env.nextCell ∧ new = 1 ∨ id ∈ c.held := by
    have hpos := List.count_pos_iff.2 hid
    have hle := hheld id
    by_cases heq : c.state.env.nextCell = id
    · subst heq
      rw [hnext_held, if_pos rfl] at hle
      exact .inl ⟨rfl, by omega⟩
    · rw [if_neg heq] at hle
      exact .inr (List.count_pos_iff.1 (by omega))
  refine ⟨fun id => ?_, fun id hid => ?_, fun u' hu' d hd => ?_, hapart⟩
  · have hle := hheld id
    by_cases heq : c.state.env.nextCell = id
    · subst heq
      rw [hnext_held, if_pos rfl] at hle
      omega
    · rw [if_neg heq, Nat.zero_add] at hle
      exact hle.trans (h.once id)
  · obtain ⟨rfl, hone⟩ | hid := hcases id hid
    · omega
    · have hlt := h.lt id hid
      omega
  · obtain ⟨u, hu, hd⟩ := hunclaimed u' hu' d hd
    obtain ⟨first, more, hfirst, hfree⟩ := h.unclaimed u hu d hd
    obtain ⟨more', hmore⟩ := hversions d
    rw [hfirst] at hmore
    refine ⟨first, more ++ more', hmore, fun hnil hid => ?_⟩
    obtain ⟨heq, -⟩ | hid := hcases _ hid
    · -- what is recorded was handed out before
      have hlt := hkept.cell_lt d first (by simp [hfirst])
      rw [heq] at hlt
      exact Nat.lt_irrefl _ hlt
    · exact hfree (List.append_eq_nil_iff.1 hnil).1 hid

/-- A step in the current function that hands out nothing and offers nothing. -/
theorem Single.rearrange {s s' : State} {plan plan' : Plan} {saved : List (Frame × Plan)}
    {home home' : Table BlockId FuncId} (h : Single ⟨s, plan, saved, home⟩)
    (hkept : s.env.WellKept) (hnext : s'.env.nextCell = s.env.nextCell)
    (hversions : s'.env.versions = s.env.versions) (hfunctions : s'.functions = s.functions)
    (hheld : ∀ id, (heldBy s'.frame plan').count id ≤ (heldBy s.frame plan).count id)
    (hunclaimed : ∀ d, s'.frame.unclaimed.contains d = true → s.frame.unclaimed.contains d = true) :
    Single ⟨s', plan', saved, home'⟩ := by
  refine h.advance hkept 0 (Nat.zero_le _) (by rw [hnext]; rfl) (fun id => ?_)
    (fun d => ⟨[], ?_⟩) (fun u' hu' d hd => ?_) ?_
  · have hle := hheld id
    rw [Config.count_held, Config.count_held, State.done, hfunctions, ← State.done]
    omega
  · rw [List.append_nil, Environment.versionsOf, hversions, Environment.versionsOf]
  · rcases List.mem_cons.1 hu' with rfl | hu'
    · exact ⟨_, List.mem_cons_self, hunclaimed d hd⟩
    · exact ⟨u', List.mem_cons_of_mem _ hu', hd⟩
  · obtain ⟨hhead, htail⟩ := List.pairwise_cons.1 h.apart
    exact List.pairwise_cons.2 ⟨fun u hu d hd => hhead u hu d (hunclaimed d hd), htail⟩

/-- A step in the current function that hands out the next cell. -/
theorem Single.handOut {s s' : State} {plan plan' : Plan} {saved : List (Frame × Plan)}
    {home : Table BlockId FuncId} (h : Single ⟨s, plan, saved, home⟩) (hkept : s.env.WellKept)
    (hnext : s'.env.nextCell = s.env.nextCell.next)
    (hversions : ∀ d, ∃ more, s'.env.versionsOf d = s.env.versionsOf d ++ more)
    (hfunctions : s'.functions = s.functions)
    (hheld : ∀ id, (heldBy s'.frame plan').count id ≤
      (if s.env.nextCell = id then 1 else 0) + (heldBy s.frame plan).count id)
    (hunclaimed : s'.frame.unclaimed = s.frame.unclaimed) : Single ⟨s', plan', saved, home⟩ := by
  have hsame : Config.unclaimed ⟨s', plan', saved, home⟩ = Config.unclaimed ⟨s, plan, saved, home⟩ := by
    simp only [Config.unclaimed, Config.opened, List.map_cons, hunclaimed]
  refine h.advance hkept 1 (Nat.le_refl _) (by rw [hnext]; rfl) (fun id => ?_) hversions
    (fun u' hu' d hd => ⟨u', hsame ▸ hu', hd⟩) (hsame ▸ h.apart)
  have hle := hheld id
  rw [Config.count_held, Config.count_held, State.done, hfunctions, ← State.done]
  dsimp only
  omega

/-! ## Instructions -/

theorem Frame.instructions_put (frame : Frame) (i : Instr) :
    (frame.put i).instructions.Perm (i :: frame.instructions) := by
  rw [Frame.put]
  split
  · simp only [Frame.instructions, Function.instructions, List.append_assoc, List.singleton_append]
    exact (List.perm_middle.append_left frame.filled).trans List.perm_middle
  · exact List.Perm.refl _

theorem count_heldBy_put (frame : Frame) (i : Instr) (plan : Plan) (id : CellId) :
    (heldBy (frame.put i) plan).count id = i.writes.count id + (heldBy frame plan).count id := by
  have hperm := (frame.instructions_put i).flatMap_right Instr.writes
  simp only [heldBy, List.count_append, hperm.count_eq, List.flatMap_cons]
  omega

/-- Ending a block only moves its instructions. -/
theorem Frame.instructions_close {frame : Frame}
    (hnew : frame.function.blocks.contains frame.block = false) (terminal : Terminal) :
    (frame.close terminal).instructions.Perm frame.instructions := by
  refine (frame.function.instructions_setBlock_perm frame.block _).trans ?_
  rw [Function.instructionsBeside_of_new hnew]
  exact (List.reverse_perm _).append_right _

theorem count_heldBy_endBlock {frame : Frame}
    (hnew : frame.function.blocks.contains frame.block = false) (terminal : Terminal) (next : BlockId)
    (loops : List LoopFrame) {plan plan' : Plan} (hplan : plan'.pending = plan.pending) (id : CellId) :
    (heldBy { frame.endBlock terminal next with loops } plan').count id =
      (heldBy frame plan).count id := by
  have hperm := (frame.instructions_close hnew terminal).flatMap_right Instr.writes
  have hcount := hperm.count_eq id
  change ((frame.close terminal).instructions.flatMap Instr.writes ++ plan'.pending).count id = _
  rw [heldBy, List.count_append, List.count_append, hcount, hplan]

/-! ## Steps -/

section

variable {s : State} {plan : Plan} {reserved heads : List BlockId} {hoisted : List (DeclId × Place)}
  {saved : List (Frame × Plan)} {home : Table BlockId FuncId} {d : DeclId} {place : Place}

theorem Single.quiet {s' : State} (h : Single ⟨s, plan, saved, home⟩) (hkept : s.env.WellKept)
    (hquiet : Quiet s s') : Single ⟨s', plan, saved, home⟩ := by
  obtain ⟨captured, functions, henv, -⟩ := hquiet.env
  obtain ⟨isConcise, hfunction⟩ := hquiet.function
  refine h.rearrange hkept (by rw [henv]) (by rw [henv]) hquiet.functions (fun id => ?_) hquiet.unclaimed
  rw [heldBy, Frame.instructions, hquiet.filled, hfunction]
  exact Nat.le_refl _

theorem Single.bind (h : Single ⟨s, ⟨reserved, heads, hoisted, some (d, place)⟩, saved, home⟩)
    (hkept : s.env.WellKept) (op : Op) (origin : Option Nat) (hop : op.target? = none) :
    Single ⟨s.put place op origin, ⟨reserved, heads, hoisted, none⟩, saved, home⟩ := by
  refine h.rearrange hkept rfl rfl rfl (fun id => ?_) fun x hx => ?_
  · simp only [State.put, count_heldBy_put, Instr.writes, Instr.defined, Environment.newInstrAt, hop]
    simp [heldBy, Plan.pending]
    omega
  · obtain ⟨header, filled, heq⟩ := s.frame.put_eq (s.env.newInstrAt place origin op).1
    rwa [State.put, heq] at hx

/-- A new temporary takes the next cell. -/
theorem Single.emitted (h : Single ⟨s, plan, saved, home⟩) (hkept : s.env.WellKept) (op : Op)
    (origin : Option Nat) {plan' : Plan}
    (hplan : ∀ id, (op.target?.map (·.cell.id)).toList.count id + plan'.pending.count id ≤
      plan.pending.count id) : Single ⟨s.emit op origin, plan', saved, home⟩ := by
  refine h.handOut hkept rfl (fun x => ⟨[], (List.append_nil _).symm⟩) rfl (fun id => ?_) ?_
  · have hle := hplan id
    have hwrites (i : Instr) (hi : i = ((s.env.newTemporary s.frame.function.id).2.newInstrAt
        s.temporary origin op).1) : i.writes = s.env.nextCell :: (op.target?.map (·.cell.id)).toList := by
      subst hi
      cases htarget : op.target? <;>
        simp [Instr.writes, Instr.defined, Environment.newInstrAt, htarget, State.temporary] <;> rfl
    simp only [State.emit, State.put, count_heldBy_put, hwrites _ rfl]
    simp only [heldBy, List.count_append, List.count_cons, beq_iff_eq]
    omega
  · obtain ⟨header, filled, heq⟩ := s.frame.put_eq
      ((s.env.newTemporary s.frame.function.id).2.newInstrAt s.temporary origin op).1
    rw [State.emit, State.put, heq]

theorem Single.version (h : Single ⟨s, ⟨reserved, heads, hoisted, none⟩, saved, home⟩)
    (hkept : s.env.WellKept) (d : DeclId) :
    Single ⟨s.withVersion d, ⟨reserved, heads, hoisted, some (d, s.version d)⟩, saved, home⟩ := by
  obtain ⟨captured, versions, heq, -, -⟩ := s.withVersion_eq d
  rw [heq]
  refine h.handOut hkept rfl (fun x => ?_) rfl (fun id => ?_) rfl
  · change ∃ more, ((s.env.newPlace d).2.record d s.frame.block (s.version d)).versionsOf x = _
    rw [Environment.versionsOf_record]
    split
    · next hx => exact ⟨_, by rw [hx]; rfl⟩
    · exact ⟨[], (List.append_nil _).symm⟩
  · have hid : (s.version d).cell.id = s.env.nextCell := rfl
    simp only [heldBy, Plan.pending, Frame.instructions, List.count_append, Option.map_some, hid,
      Option.toList_some, Option.map_none, Option.toList_none, List.count_singleton, List.count_nil,
      beq_iff_eq]
    omega

/-- The first version is handed over to the one that takes it. -/
theorem Single.claim (h : Single ⟨s, ⟨reserved, heads, [], none⟩, saved, home⟩)
    (hkept : s.env.WellKept) (honly : s.env.versionsOf d = [⟨s.frame.block, place⟩])
    (hunclaimed : s.frame.unclaimed.contains d = true) :
    Single ⟨s.assigned d, ⟨reserved, heads, [], some (d, place)⟩, saved, home⟩ := by
  obtain ⟨first, more, hfirst, hfree⟩ := h.unclaimed _ List.mem_cons_self d hunclaimed
  obtain ⟨rfl, rfl⟩ := List.cons.inj (honly.symm.trans hfirst)
  have hfree := hfree rfl
  have hrecord : (⟨s.frame.block, place⟩ : VersionRecord) ∈ s.env.versionsOf d := by simp [honly]
  have hcount (id : CellId) :
      (Config.held ⟨s.assigned d, ⟨reserved, heads, [], some (d, place)⟩, saved, home⟩).count id =
        (if place.cell.id = id then 1 else 0) +
          (Config.held ⟨s, ⟨reserved, heads, [], none⟩, saved, home⟩).count id := by
    rw [Config.count_held, Config.count_held, count_heldBy_due]
    change (s.done.flatMap Instr.writes).count id + (_ + (heldBy s.frame _).count id) + _ = _
    omega
  have hmem (id : CellId)
      (hid : id ∈ Config.held ⟨s.assigned d, ⟨reserved, heads, [], some (d, place)⟩, saved, home⟩) :
      id = place.cell.id ∨ id ∈ Config.held ⟨s, ⟨reserved, heads, [], none⟩, saved, home⟩ := by
    have hpos := List.count_pos_iff.2 hid
    rw [hcount] at hpos
    by_cases heq : place.cell.id = id
    · exact .inl heq.symm
    · rw [if_neg heq, Nat.zero_add] at hpos
      exact .inr (List.count_pos_iff.1 hpos)
  have hleft (x : DeclId) (hx : (s.frame.unclaimed.erase d).contains x = true) :
      x ≠ d ∧ s.frame.unclaimed.contains x = true := by
    simpa [Table.contains_erase] using hx
  obtain ⟨hhead, htail⟩ := List.pairwise_cons.1 h.apart
  refine ⟨fun id => ?_, fun id hid => ?_, fun u hu x hx => ?_,
    List.pairwise_cons.2 ⟨fun u hu x hx => hhead u hu x (hleft x hx).2, htail⟩⟩
  · rw [hcount]
    split
    · next heq =>
      rw [← heq, List.count_eq_zero.2 hfree]
    · rw [Nat.zero_add]
      exact h.once id
  · obtain rfl | hid := hmem id hid
    · exact hkept.cell_lt d _ hrecord
    · exact h.lt id hid
  · -- no other variable is left the same version
    obtain ⟨hne, hx'⟩ : x ≠ d ∧
        ∃ u ∈ Config.unclaimed ⟨s, ⟨reserved, heads, [], none⟩, saved, home⟩, u.contains x = true := by
      rcases List.mem_cons.1 hu with rfl | hu
      · obtain ⟨hne, hx⟩ := hleft x hx
        exact ⟨hne, _, List.mem_cons_self, hx⟩
      · refine ⟨?_, u, List.mem_cons_of_mem _ hu, hx⟩
        rintro rfl
        rw [hhead u hu x hunclaimed] at hx
        cases hx
    obtain ⟨u', hu', hx'⟩ := hx'
    obtain ⟨first, more, hfirst, hfree'⟩ := h.unclaimed u' hu' x hx'
    refine ⟨first, more, hfirst, fun hnil hid => ?_⟩
    obtain heq | hid := hmem _ hid
    · have hsame := hkept.unique x d first (by simp [hfirst]) _ hrecord heq
      apply hne
      rw [← hkept.declaration x first (by simp [hfirst]), ← hkept.declaration d _ hrecord, hsame]
    · exact hfree' hnil hid

/-- The first version is left to a declaring statement. -/
theorem Single.offer (h : Single ⟨s, ⟨reserved, heads, hoisted, some (d, place)⟩, saved, home⟩)
    (honly : s.env.versionsOf d = [⟨s.frame.block, place⟩]) :
    Single ⟨{ s with frame := { s.frame with unclaimed := KeySet.add s.frame.unclaimed d } },
      ⟨reserved, heads, hoisted, none⟩, saved, home⟩ := by
  have hcount (id : CellId) :
      (Config.held ⟨s, ⟨reserved, heads, hoisted, some (d, place)⟩, saved, home⟩).count id =
        (if place.cell.id = id then 1 else 0) + (Config.held
          ⟨{ s with frame := { s.frame with unclaimed := KeySet.add s.frame.unclaimed d } },
            ⟨reserved, heads, hoisted, none⟩, saved, home⟩).count id := by
    rw [Config.count_held, Config.count_held, count_heldBy_due]
    change _ = _ + ((s.done.flatMap Instr.writes).count id + (heldBy s.frame _).count id + _)
    omega
  have hmem (id : CellId) (hid : id ∈ Config.held
      ⟨{ s with frame := { s.frame with unclaimed := KeySet.add s.frame.unclaimed d } },
        ⟨reserved, heads, hoisted, none⟩, saved, home⟩) :
      id ∈ Config.held ⟨s, ⟨reserved, heads, hoisted, some (d, place)⟩, saved, home⟩ := by
    have hpos := List.count_pos_iff.2 hid
    have hle := hcount id
    exact List.count_pos_iff.1 (by omega)
  have hdue : place.cell.id ∈
      Config.held ⟨s, ⟨reserved, heads, hoisted, some (d, place)⟩, saved, home⟩ := by
    simp [Config.held, Config.opened, heldBy, Plan.pending]
  -- the version was due, so nobody else was left it
  have hnobody (u : KeySet DeclId)
      (hu : u ∈ Config.unclaimed ⟨s, ⟨reserved, heads, hoisted, some (d, place)⟩, saved, home⟩) :
      u.contains d = false := by
    by_contra hcontains
    obtain ⟨first, more, hfirst, hfree⟩ := h.unclaimed u hu d (by simpa using hcontains)
    obtain ⟨rfl, rfl⟩ := List.cons.inj (honly.symm.trans hfirst)
    exact hfree rfl hdue
  obtain ⟨hhead, htail⟩ := List.pairwise_cons.1 h.apart
  refine ⟨fun id => ?_, fun id hid => h.lt id (hmem id hid), fun u hu x hx => ?_,
    List.pairwise_cons.2 ⟨fun u hu x hx => ?_, htail⟩⟩
  · have hle := h.once id
    rw [hcount] at hle
    omega
  · obtain rfl | ⟨u', hu', hx'⟩ : x = d ∨ ∃ u ∈ Config.unclaimed
        ⟨s, ⟨reserved, heads, hoisted, some (d, place)⟩, saved, home⟩, u.contains x = true := by
      rcases List.mem_cons.1 hu with rfl | hu
      · rw [KeySet.contains_add, Bool.or_eq_true, decide_eq_true_eq] at hx
        exact hx.imp_right fun hx => ⟨_, List.mem_cons_self, hx⟩
      · exact .inr ⟨u, List.mem_cons_of_mem _ hu, hx⟩
    · refine ⟨_, [], honly, fun _ hid => ?_⟩
      have hle := h.once place.cell.id
      rw [hcount, if_pos rfl] at hle
      exact List.count_eq_zero.1 (Nat.le_zero.1 (Nat.le_of_add_le_add_left hle)) hid
    · obtain ⟨first, more, hfirst, hfree⟩ := h.unclaimed u' hu' x hx'
      exact ⟨first, more, hfirst, fun hnil hid => hfree hnil (hmem _ hid)⟩
  · rw [KeySet.contains_add, Bool.or_eq_true, decide_eq_true_eq] at hx
    rcases hx with rfl | hx
    · exact hnobody u (List.mem_cons_of_mem _ hu)
    · exact hhead u hu x hx

theorem Single.enter (h : Single ⟨s, plan, saved, home⟩) (hkept : s.env.WellKept)
    (name : Option String) (kind : FunctionKind) (origin : Option Nat)
    (outer : List (FuncId × Versions)) (home' : Table BlockId FuncId) :
    Single ⟨s.enter name kind origin outer, {}, (s.frame, plan) :: saved, home'⟩ := by
  refine h.advance hkept 0 (Nat.zero_le _) (Nat.le_refl _) (fun id => ?_)
    (fun x => ⟨[], (List.append_nil _).symm⟩) (fun u hu x hx => ?_) ?_
  · have hempty : heldBy (s.enter name kind origin outer).frame {} = [] := rfl
    rw [Config.count_held, Config.count_held, hempty, List.flatMap_cons, List.count_append]
    change (s.done.flatMap Instr.writes).count id + 0 + ((heldBy s.frame plan).count id + _) ≤ _
    omega
  · rcases List.mem_cons.1 hu with rfl | hu
    · cases hx
    · exact ⟨u, hu, hx⟩
  · exact List.pairwise_cons.2 ⟨fun u hu x hx => absurd hx (by simp [State.enter, Frame.start]), h.apart⟩

theorem Single.leave {around : Frame} (h : Single ⟨s, {}, (around, plan) :: saved, home⟩)
    (hkept : s.env.WellKept) (hnew : s.functions.contains s.frame.function.id = false)
    (hblock : s.frame.function.blocks.contains s.frame.block = false)
    (outer : List (FuncId × Versions)) :
    Single ⟨s.leave around outer, plan, saved, home⟩ := by
  have hdone : (s.leave around outer).done.Perm (s.frame.instructions ++ s.done) := by
    have hperm := (Table.values_insert_perm s.functions s.frame.function.id
      (s.frame.close (.ret none)).recomputeFlow).flatMap_right Function.instructions
    rw [Table.erase_of_not_contains hnew] at hperm
    exact hperm.trans ((s.frame.instructions_close hblock (.ret none)).append_right _)
  refine h.advance hkept 0 (Nat.zero_le _) (Nat.le_refl _) (fun id => ?_)
    (fun x => ⟨[], (List.append_nil _).symm⟩) (fun u hu x hx => ⟨u, List.mem_cons_of_mem _ hu, hx⟩)
    (List.pairwise_cons.1 h.apart).2
  have hcount := (hdone.flatMap_right Instr.writes).count_eq id
  rw [List.flatMap_append, List.count_append] at hcount
  rw [Config.count_held, Config.count_held, hcount, List.flatMap_cons, List.count_append]
  simp only [heldBy, Plan.pending, State.leave, List.count_append]
  omega

end

/-- Steps from sound configurations keep every cell held once. -/
theorem Single.step (h : Single c) (hsound : Sound c) (hstep : Step c c') : Single c' := by
  have hkept := hsound.records.wellKept
  have hblock := hsound.current.block_new
  cases hstep with
  | quiet hquiet => exact h.quiet hkept hquiet
  | newBlock => exact h.rearrange hkept rfl rfl rfl (fun id => Nat.le_refl _) fun d hd => hd
  | declare name kind => exact h.rearrange hkept rfl rfl rfl (fun id => Nat.le_refl _) fun d hd => hd
  | version d hd hhoisted => exact h.version hkept d
  | claim honly hunclaimed => exact h.claim hkept honly hunclaimed
  | offer honly => exact h.offer honly
  | drop honly =>
    refine h.rearrange hkept rfl rfl rfl (fun id => ?_) fun d hd => hd
    simp [heldBy, Plan.pending, List.count_append]
  | hoist honly =>
    refine h.rearrange hkept rfl rfl rfl (fun id => ?_) fun d hd => hd
    simp [heldBy, Plan.pending, List.count_append]
  | unhoist =>
    refine h.rearrange hkept rfl rfl rfl (fun id => ?_) fun d hd => hd
    simp [heldBy, Plan.pending, List.count_append, List.count_cons]
  | unkeep =>
    refine h.rearrange hkept rfl rfl rfl (fun id => ?_) fun d hd => hd
    simp [heldBy, Plan.pending, List.count_append]
  | bind op origin hop => exact h.bind hkept op origin hop
  | store op origin hop =>
    refine h.emitted hkept op origin fun id => ?_
    simp [Plan.pending, hop, List.count_append, Nat.add_comm]
  | emit op origin hop =>
    refine h.emitted hkept op origin fun id => ?_
    simp [hop]
  | endBlock =>
    exact h.rearrange hkept rfl rfl rfl
      (fun id => (count_heldBy_endBlock hblock _ _ _ rfl id).le) fun d hd => hd
  | openLoop =>
    exact h.rearrange hkept rfl rfl rfl
      (fun id => (count_heldBy_endBlock hblock _ _ _ rfl id).le) fun d hd => hd
  | closeLoop =>
    exact h.rearrange hkept rfl rfl rfl
      (fun id => (count_heldBy_endBlock hblock _ _ _ rfl id).le) fun d hd => hd
  | openHeader => exact h.rearrange hkept rfl rfl rfl (fun id => Nat.le_refl _) fun d hd => hd
  | closeHeader => exact h.rearrange hkept rfl rfl rfl (fun id => Nat.le_refl _) fun d hd => hd
  | enter name kind origin outer => exact h.enter hkept name kind origin outer _
  | leave outer => exact h.leave hkept (hsound.apart _ List.mem_cons_self) hblock outer

theorem Single.steps (h : Single c) (hsound : Sound c) (hsteps : Steps c c') : Single c' := by
  induction hsteps with
  | refl => exact h
  | tail hsteps hstep ih => exact ih.step (hsound.steps hsteps) hstep

end Whittle.Lowering
