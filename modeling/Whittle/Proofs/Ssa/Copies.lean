import Mathlib.Tactic.Common
import Whittle.Proofs.Optimize.Execution
import Whittle.Proofs.Ssa.Module

/-!
# Phis hold their operands

A phi with several operands is replaced by copies at the ends of its predecessors.  The copies of
several phis stand there one behind the other, so a later one could overwrite what an earlier one
copied from or into.  It never does: phis of one variable take the same version from a block, and the
versions of different variables are different cells.

Main statement: `throughSsa_copies`, whenever an execution leaves a predecessor, each phi with several
operands holds what the operand for this predecessor holds.
-/

namespace Whittle.Ir

open Whittle.Ir.Flow

variable {f g : Function} {env env' world : Environment} {b : BlockId} {done : List Phi} {n : Nat}
  {before after contents : Contents} {i : Instr} {d : Datum} {c : Cell}

/-- An instruction that computes nothing elsewhere leaves alone what it does not define. -/
theorem Instr.Executes.eq_of_not_defined (h : i.Executes world before after d)
    (hchange : ∀ c, ¬ i.op.MayChange world c) (hc : ∀ p ∈ i.defined, p.cell ≠ c) :
    after c = before c :=
  (h.keeps c hc).resolve_right (hchange c)

namespace Function

/-! ## Operands for one block -/

/-- Phis of one variable take the same version from a block. -/
theorem operand_eq_of_declaration {phi phi' : Phi} (hphi : phi ∈ (f.buildSsa env).1.phis)
    (hphi' : phi' ∈ (f.buildSsa env).1.phis) (hdecl : phi.declaration = phi'.declaration)
    {operand operand' : Place} (h : phi.operands.get? b = some operand)
    (h' : phi'.operands.get? b = some operand') : operand = operand' := by
  have hreach := get?_operands_buildSsa hphi (mem_predecessorsOf_of_operand hphi h)
  have hreach' := get?_operands_buildSsa hphi' (mem_predecessorsOf_of_operand hphi' h')
  rw [hdecl, ← hreach', h, h'] at hreach
  exact Option.some.inj hreach

/-- The operand for a block is a recorded version of the variable. -/
theorem record_of_operand (hf : Unjoined f env) {phi : Phi} (hphi : phi ∈ (f.buildSsa env).1.phis)
    {operand : Place} (h : phi.operands.get? b = some operand) :
    ∃ q, ⟨q, operand⟩ ∈ (f.buildSsa env).2.versionsOf phi.declaration :=
  mem_versionsOf_of_operand hf hphi (Table.mem_values.2 ⟨b, h⟩)

/-- A phi that takes its operand from a phi belongs to the variable of that phi. -/
theorem declaration_eq_of_operand (hf : Unjoined f env) {phi phi' : Phi}
    (hphi : phi ∈ (f.buildSsa env).1.phis) (hphi' : phi' ∈ (f.buildSsa env).1.phis) {operand : Place}
    (h : phi.operands.get? b = some operand) (hcell : operand.cell = phi'.place.cell) :
    phi.declaration = phi'.declaration := by
  have hkept := (wellKept_buildSsa hf.records f).1
  obtain ⟨q, hq⟩ := record_of_operand hf hphi h
  rw [← hkept.declaration _ _ hq, ← hkept.declaration _ _ (mem_versionsOf_of_phi hphi')]
  exact congrArg Cell.declaration hcell

/-- From a block that writes the variable, a phi takes what was written. -/
theorem operand_ne_of_recordedIn (hf : Unjoined f env) {phi phi' : Phi}
    (hphi : phi ∈ (f.buildSsa env).1.phis) (hphi' : phi' ∈ (f.buildSsa env).1.phis) {operand : Place}
    (h : phi.operands.get? b = some operand)
    (hrecorded : RecordedIn (env.versionsOf phi'.declaration) b) :
    operand.cell ≠ phi'.place.cell := by
  intro hcell
  have hdecl := declaration_eq_of_operand hf hphi hphi' h hcell
  obtain ⟨r, hr, rfl⟩ := hrecorded
  have hr' : r ∈ (f.buildSsa env).2.versionsOf phi.declaration := by
    rw [versionsOf_buildSsa, hdecl]
    exact List.mem_append_left _ hr
  -- the closest block that records a version is the block itself
  obtain ⟨q, hdom, hleft, hclosest⟩ := exists_closest_of_operand hf.flow hphi h
  obtain ⟨hreach, -⟩ := (mem_predecessorsOf hf.flow).1 (mem_predecessorsOf_of_operand hphi h)
  obtain rfl := Dominates.antisymm hreach hdom (hclosest _ (Dominates.refl _) ⟨r, hr', rfl⟩)
  have hwritten := hf.written _ r hr (contains_of_operand hf hphi h)
  obtain ⟨k, hk⟩ := isWritten_of_leftBy hleft hr' rfl hwritten
  obtain ⟨id, hid⟩ := version_of_phi hphi'
  rw [hcell, hid] at hk
  cases hk

/-- A new place is no phi's and no operand's. -/
theorem ne_of_isFree (hf : Unjoined f env) {p : Place} (hfree : (f.buildSsa env).2.IsFree p)
    {phi : Phi} (hphi : phi ∈ (f.buildSsa env).1.phis) {operand : Place}
    (h : phi.operands.get? b = some operand) :
    p.cell ≠ phi.place.cell ∧ p.cell ≠ operand.cell := by
  refine ⟨fun heq => ?_, fun heq => ?_⟩
  · exact hfree.cell _ _ (mem_versionsOf_of_phi hphi) (congrArg Cell.id heq.symm)
  · obtain ⟨q, hq⟩ := record_of_operand hf hphi h
    exact hfree.cell _ _ hq (congrArg Cell.id heq.symm)

/-! ## From one instruction to the next -/

/-- The phis that were given copies in a block hold what their operands hold. -/
def Copied (f : Function) (env : Environment) (b : BlockId) (done : List Phi) (contents : Contents) :
    Prop :=
  ∀ phi ∈ done, phi ∈ (f.buildSsa env).1.phis → ∀ operand, phi.operands.get? b = some operand →
    contents phi.place.cell = contents operand.cell

theorem Copied.step_of_isFree (h : f.Copied env b done before) (hf : Unjoined f env)
    (hexecutes : i.Executes world before after d) (hchange : ∀ c, ¬ i.op.MayChange world c)
    (hfree : ∀ p ∈ i.defined, (f.buildSsa env).2.IsFree p) : f.Copied env b done after := by
  intro phi hdone hphi operand hoperand
  have hkeep := fun p hp => ne_of_isFree hf (hfree p hp) hphi hoperand
  rw [hexecutes.eq_of_not_defined hchange fun p hp => (hkeep p hp).1,
    hexecutes.eq_of_not_defined hchange fun p hp => (hkeep p hp).2]
  exact h phi hdone hphi operand hoperand

/-- A store into a phi that has no copies yet touches neither phis that have nor their operands. -/
theorem Copied.step_of_isInitial (h : f.Copied env b done before) (hf : Unjoined f env) {phi : Phi}
    (hphi : phi ∈ (f.buildSsa env).1.phis) (hdone : phi ∉ done)
    (hrecorded : RecordedIn (env.versionsOf phi.declaration) b)
    (hinit : IsInitial (f.buildSsa env).2 phi i) (hexecutes : i.Executes world before after d) :
    f.Copied env b done after := by
  obtain ⟨value, hop⟩ := hinit.op
  have hchange (c : Cell) : ¬ i.op.MayChange world c := by simp [hop, Op.MayChange]
  intro phi' hdone' hphi' operand hoperand
  have hfree := ne_of_isFree hf hinit.isFree hphi' hoperand
  have hphis : phi.place.cell ≠ phi'.place.cell := fun hcell =>
    hdone (phi_eq_of_cell hphi hphi' (congrArg Cell.id hcell) ▸ hdone')
  have hoperands := operand_ne_of_recordedIn hf hphi' hphi hoperand hrecorded
  rw [hexecutes.eq_of_not_defined hchange (c := phi'.place.cell)
      (by simp [hinit.defined, hfree.1, hphis]),
    hexecutes.eq_of_not_defined hchange (c := operand.cell)
      (by simp [hinit.defined, hfree.2, hoperands.symm])]
  exact h phi' hdone' hphi' operand hoperand

/-- The copy of an operand into a phi: if other phis take this phi from the block, it is its own
operand. -/
theorem Copied.step_of_copy (h : f.Copied env b done before) (hf : Unjoined f env) {phi : Phi}
    (hphi : phi ∈ (f.buildSsa env).1.phis) {operand value : Place}
    (hoperand : phi.operands.get? b = some operand) (hop : i.op = .copy phi.place value)
    (hfree : (f.buildSsa env).2.IsFree i.place)
    (hvalue : before value.cell = before operand.cell)
    (hexecutes : i.Executes world before after d) : f.Copied env b (done ++ [phi]) after := by
  have hdefined : i.defined = [i.place, phi.place] := by simp [Instr.defined, hop, Op.target?]
  have hchange (c : Cell) : ¬ i.op.MayChange world c := by simp [hop, Op.MayChange]
  have hwritten : after phi.place.cell = before operand.cell := by
    have hgives := hexecutes.gives
    rw [hop] at hgives
    rw [hexecutes.writes phi.place (by simp [hdefined]), hgives, hvalue]
  -- no operand changes: where it is the phi that is written, it is what is written
  have hkept {phi' : Phi} (hphi' : phi' ∈ (f.buildSsa env).1.phis) {operand' : Place}
      (hoperand' : phi'.operands.get? b = some operand') :
      after operand'.cell = before operand'.cell := by
    by_cases hcell : operand'.cell = phi.place.cell
    · have hdecl := declaration_eq_of_operand hf hphi' hphi hoperand' hcell
      rw [hcell, hwritten, ← operand_eq_of_declaration hphi' hphi hdecl hoperand' hoperand, hcell]
    · refine hexecutes.eq_of_not_defined hchange ?_
      simp [hdefined, (ne_of_isFree hf hfree hphi' hoperand').2, Ne.symm hcell]
  intro phi' hdone' hphi' operand' hoperand'
  rw [hkept hphi' hoperand']
  by_cases hcell : phi.place.cell = phi'.place.cell
  · obtain rfl := phi_eq_of_cell hphi hphi' (congrArg Cell.id hcell)
    rw [hwritten, Option.some.inj (hoperand.symm.trans hoperand')]
  · have hdone : phi' ∈ done := by
      refine (List.mem_append.1 hdone').resolve_right fun hmem => hcell ?_
      rw [List.mem_singleton.1 hmem]
    rw [hexecutes.eq_of_not_defined hchange (c := phi'.place.cell)
      (by simp [hdefined, (ne_of_isFree hf hfree hphi' hoperand').1, hcell])]
    exact h phi' hdone hphi' operand' hoperand'

/-! ## Along a block -/

/-- Inside a block, an execution came from the instruction before. -/
theorem Reaches.prev {b : Option BlockId} (h : f.Reaches env b (n + 1) after) :
    ∃ i before d, f.Reaches env b n before ∧ (f.codeAt b)[n]? = some i ∧
      i.Executes env before after d := by
  cases h with
  | step hbefore hi hexecutes => exact ⟨_, _, _, hbefore, hi, hexecutes⟩

/-- An execution that comes behind an instruction executed it. -/
theorem Reaches.of_concat {b : Option BlockId} {is rest : List Instr}
    (hcode : f.codeAt b = is ++ i :: rest) (h : f.Reaches env b (is.length + 1) after) :
    ∃ before d, f.Reaches env b is.length before ∧ i.Executes env before after d := by
  obtain ⟨j, before, d, hbefore, hj, hexecutes⟩ := h.prev
  obtain rfl : i = j := by simpa [hcode] using hj
  exact ⟨before, d, hbefore, hexecutes⟩

/-- The copies behind the code of a block do their work. -/
theorem Tail.copied (hf : Unjoined f env) {is : List Instr} (h : f.Tail env b done is)
    {body rest : List Instr} (hcode : g.codeAt (some b) = body ++ is ++ rest)
    (hreaches : g.Reaches world (some b) (body ++ is).length contents) :
    f.Copied env b done contents := by
  induction h generalizing rest contents with
  | nil => exact fun phi hphi => by cases hphi
  | @initial done is phi i _ hphi hdone hrecorded hinit ih =>
    have hcode' : g.codeAt (some b) = (body ++ is) ++ i :: rest := by simp [hcode]
    obtain ⟨before, d, hbefore, hexecutes⟩ :=
      Reaches.of_concat hcode' (by simpa [← Nat.add_assoc] using hreaches)
    exact (ih hcode' hbefore).step_of_isInitial hf hphi hdone hrecorded hinit hexecutes
  | @copy done is phi operand load copy statement _ hphi hoperand hcopy ih =>
    have hcode₁ : g.codeAt (some b) = (body ++ is) ++ load :: copy :: statement :: rest := by
      simp [hcode]
    have hcode₂ : g.codeAt (some b) = (body ++ is ++ [load]) ++ copy :: statement :: rest := by
      simp [hcode]
    have hcode₃ : g.codeAt (some b) = (body ++ is ++ [load, copy]) ++ statement :: rest := by
      simp [hcode]
    obtain ⟨behindCopy, d₃, hreaches₂, hexecutes₃⟩ :=
      Reaches.of_concat hcode₃ (by simpa [← Nat.add_assoc] using hreaches)
    obtain ⟨behindLoad, d₂, hreaches₁, hexecutes₂⟩ :=
      Reaches.of_concat hcode₂ (by simpa [← Nat.add_assoc] using hreaches₂)
    obtain ⟨before, d₁, hreaches₀, hexecutes₁⟩ :=
      Reaches.of_concat hcode₁ (by simpa [← Nat.add_assoc] using hreaches₁)
    have hload : load.defined = [load.place] := by simp [Instr.defined, hcopy.load_op, Op.target?]
    have hstatement : statement.defined = [statement.place] := by
      simp [Instr.defined, hcopy.statement_op, Op.target?]
    have hchange (c : Cell) : ¬ load.op.MayChange world c := by simp [hcopy.load_op, Op.MayChange]
    have hloaded : behindLoad load.place.cell = behindLoad operand.cell := by
      have hgives := hexecutes₁.gives
      rw [hcopy.load_op] at hgives
      have hne := (ne_of_isFree hf hcopy.load_isFree hphi hoperand).2
      rw [hexecutes₁.writes load.place (by simp [hload]), hgives,
        hexecutes₁.eq_of_not_defined hchange (c := operand.cell) (by simp [hload, hne])]
    have hbehindLoad := (ih hcode₁ hreaches₀).step_of_isFree hf hexecutes₁ hchange
      (by simpa [hload] using hcopy.load_isFree)
    have hbehindCopy := hbehindLoad.step_of_copy hf hphi hoperand hcopy.copy_op hcopy.copy_isFree
      hloaded hexecutes₂
    exact hbehindCopy.step_of_isFree hf hexecutes₃ (by simp [hcopy.statement_op, Op.MayChange])
      (by simpa [hstatement] using hcopy.statement_isFree)
  | @skip done is phi _ hoperand ih =>
    intro phi' hphi' hmem operand hget
    rcases List.mem_append.1 hphi' with hphi' | hphi'
    · exact ih hcode hreaches phi' hphi' hmem operand hget
    · rw [List.mem_singleton.1 hphi', hoperand] at hget
      cases hget

/-- Whenever an execution leaves a block, the phis with several operands hold their operands for it. -/
theorem LaidOut.eq_operand (hf : Unjoined f env) (hg : f.LaidOut env (f.kept env) g) {phi : Phi}
    (hphi : phi ∈ (f.buildSsa env).1.phis) (hsize : 1 < phi.operands.size) {operand : Place}
    (hoperand : phi.operands.get? b = some operand)
    (hreaches : g.Reaches world (some b) (g.codeAt (some b)).length contents) :
    contents phi.place.cell = contents operand.cell := by
  have hcontains := contains_of_operand hf hphi hoperand
  obtain ⟨original, horiginal⟩ := Table.contains_iff.1 hcontains
  obtain ⟨final, hfinal⟩ := Table.contains_iff.1 ((hg.contains b).trans hcontains)
  obtain ⟨-, body, tail, hsplit, -, htail⟩ := hg.block b original final horiginal hfinal
  have hcode : g.codeAt (some b) = body ++ tail ++ [] := by
    rw [codeAt, hfinal, Option.map_some, Option.getD_some, hsplit, List.append_nil]
  rw [hcode, List.append_nil] at hreaches
  exact htail.copied hf hcode hreaches phi (mem_kept.2 ⟨hphi, hsize⟩) hphi operand hoperand

/-! ## Phis without copies -/

/-- A cell that was handed out and that no instruction of the function defines. -/
structure Undefined (c : Cell) (g : Function) (env : Environment) : Prop where
  handedOut : c.id.index < env.nextCell.index
  header : ∀ i ∈ g.header, ∀ p ∈ i.defined, p.cell ≠ c
  blocks : ∀ id b, g.blocks.get? id = some b → ∀ i ∈ b.instructions, ∀ p ∈ i.defined, p.cell ≠ c

theorem Undefined.codeAt (h : Undefined c g env) (b : Option BlockId) :
    ∀ i ∈ g.codeAt b, ∀ p ∈ i.defined, p.cell ≠ c := by
  intro i hi
  cases b with
  | none => exact h.header i hi
  | some b =>
    cases hb : g.blocks.get? b with
    | none => simp [Function.codeAt, hb] at hi
    | some block =>
      rw [Function.codeAt, hb] at hi
      exact h.blocks b block hb i hi

/-- A new instruction does not define what was handed out before, unless it writes it. -/
theorem not_defined_newInstr (h : c.id.index < env.nextCell.index) (owner : FuncId) (op : Op)
    (hop : ∀ p ∈ op.target?, p.cell ≠ c) :
    (∀ p ∈ (env.newInstr owner op).1.defined, p.cell ≠ c) ∧
      c.id.index < (env.newInstr owner op).2.nextCell.index := by
  refine ⟨fun p hp hcell => ?_, Nat.lt_succ_of_lt h⟩
  rcases List.mem_cons.1 hp with rfl | hp
  · have hid : c.id = env.nextCell := congrArg Cell.id hcell.symm
    exact absurd h (by simp [hid])
  · exact hop p (Option.mem_toList.1 hp) hcell

/-- The instructions for one phi do not define the cell of another. -/
theorem survives_undefined {phi : Phi} (hne : phi.place.cell ≠ c) : Survives (Undefined c) phi where
  store g env first h _ := by
    obtain ⟨hstore, hhandedOut⟩ := not_defined_newInstr h.handedOut g.id
      (.storeLocal phi.place first.place .reassign) (by simpa [Op.target?] using hne)
    refine ⟨hhandedOut, h.header, forall_withStore h.blocks fun b hb i hi => ?_⟩
    rcases mem_of_mem_insertBehind hi with rfl | hi
    · exact hstore
    · exact hb i hi
  redirect g env h := by
    refine ⟨h.handedOut, h.header, fun id b hb i hi => ?_⟩
    rw [redirectReads, mapBlocks, Table.get?_map] at hb
    obtain ⟨before, hbefore, rfl⟩ := Option.map_eq_some_iff.1 hb
    split at hi
    · obtain ⟨k, hk, rfl⟩ := List.mem_mapIdx.1 hi
      have hdefined := h.blocks id before hbefore before.instructions[k] (List.getElem_mem hk)
      split
      · rwa [Instr.defined_mapReads]
      · exact hdefined
    · exact h.blocks id before hbefore i hi
  copy g env predecessor operand b h _ hb := by
    obtain ⟨hload, hbehindLoad⟩ := not_defined_newInstr h.handedOut g.id (.loadLocal operand)
      (by simp [Op.target?])
    set load := env.newInstr g.id (.loadLocal operand)
    obtain ⟨hcopy, hbehindCopy⟩ := not_defined_newInstr hbehindLoad g.id
      (.copy phi.place load.1.place) (by simpa [Op.target?] using hne)
    set copy := load.2.newInstr g.id (.copy phi.place load.1.place)
    obtain ⟨hstatement, hbehindStatement⟩ := not_defined_newInstr hbehindCopy g.id
      (.expressionStatement copy.1.place) (by simp [Op.target?])
    refine ⟨hbehindStatement, h.header, fun id block hblock => ?_⟩
    rw [setBlock, Table.get?_insert] at hblock
    split at hblock
    · cases hblock
      refine List.forall_mem_append.2 ⟨h.blocks _ _ hb, ?_⟩
      simp only [copyInstrs, List.forall_mem_cons, List.not_mem_nil, false_imp_iff, implies_true,
        and_true]
      exact ⟨hload, hcopy, hstatement⟩
    · exact h.blocks id block hblock

/-- A phi with one operand leaves nothing behind. -/
theorem undefined_eliminateSsa {phi : Phi} (hphi : phi ∈ (f.buildSsa env).1.phis)
    (hsize : phi.operands.size ≤ 1) (hundefined : Undefined phi.place.cell f (f.buildSsa env).2)
    (hout : (f.buildSsa env).1.eliminateSsa (f.buildSsa env).2 = .ok (g, env')) :
    Undefined phi.place.cell g env' := by
  have hstart : Undefined phi.place.cell { (f.buildSsa env).1 with phis := [] } (f.buildSsa env).2 :=
    ⟨hundefined.handedOut, hundefined.header, hundefined.blocks⟩
  refine eliminateSsa_induction (fun phi' hphi' hsize' => survives_undefined fun hcell => ?_)
    hstart hout
  obtain rfl := phi_eq_of_cell hphi' hphi (congrArg Cell.id hcell)
  omega

/-- Phis that are not replaced make no difference. -/
theorem eliminatePhis_filter (phis : List Phi) (f : Function) (env : Environment) :
    eliminatePhis (phis.filter (1 < ·.operands.size)) f env = eliminatePhis phis f env := by
  induction phis generalizing f env with
  | nil => rfl
  | cons phi phis ih =>
    by_cases hsize : phi.operands.size ≤ 1
    · rw [List.filter_cons_of_neg (by simpa using hsize), eliminatePhis, if_pos hsize, ih]
    · rw [List.filter_cons_of_pos (by simpa using hsize), eliminatePhis, eliminatePhis, if_neg hsize,
        if_neg hsize]
      simp only [ih]

theorem phis_eliminateSsa (hout : f.eliminateSsa env = .ok (g, env')) : g.phis = [] :=
  eliminateSsa_induction (P := fun g _ => g.phis = [])
    (fun _ _ _ => ⟨fun _ _ _ h _ => h, fun _ _ h => h, fun _ _ _ _ _ h _ _ => h⟩) rfl hout

end Function

/-- A function that had its turn became what removing its phis made of it. -/
theorem Passes.eliminateSsa {id : FuncId} {turn : Environment} {waiting : List (FuncId × Function)}
    (h : Passes id f turn g waiting env) :
    ∃ env', (f.buildSsa turn).1.eliminateSsa (f.buildSsa turn).2 = .ok (g, env') := by
  induction h with
  | now hpass => exact ⟨_, hpass⟩
  | later _ _ ih => exact ih

end Whittle.Ir

namespace Whittle.Lowering

open Ir

variable {lowered env : Environment} {home : Table BlockId FuncId} {id : FuncId} {f : Function}

/-- Lowered code defines no phi. -/
theorem Closed.undefined (h : Closed lowered home id f) (hrecords : env.WellKept) {phi : Phi}
    (hphi : phi ∈ (f.buildSsa env).1.phis) :
    f.Undefined phi.place.cell (f.buildSsa env).2 := by
  have hnot {b : BlockId} {i : Instr} (hi : i ∈ f.code b) (p : Place) (hp : p ∈ i.defined) :
      p.cell ≠ phi.place.cell := by
    intro hcell
    have hnumbered := (h.tells.known b i hi p hp).2
    obtain ⟨id, hid⟩ := Function.version_of_phi hphi
    rw [hcell, hid] at hnumbered
    cases hnumbered
  refine ⟨?_, fun i hi => ?_, fun b block hb i hi => ?_⟩
  · exact (Function.wellKept_buildSsa hrecords f).1.cell_lt _ _ (Function.mem_versionsOf_of_phi hphi)
  · exact hnot (b := f.entry) (by simp [Function.code, hi])
  · exact hnot (b := b) (by simp [Function.code, hb, hi])

end Whittle.Lowering

namespace Whittle.Syntax.Module

open Ir Ir.Flow Lowering

/-- A lowered module goes through its joins, and in each of its functions copies do what the phis stood
for.  Whenever an execution leaves a block, each phi with several operands holds what its operand for
this block holds.  Of the other phis nothing is left. -/
theorem throughSsa_copies {path : String} {m : Syntax.Module} {ir : Ir.Module} {env : Environment}
    (h : m.lower path {} = .ok (ir, env)) :
    ∃ ir' env', ir.throughSsa env = .ok (ir', env') ∧
      ∀ id f, ir.functions.get? id = some f →
        ∃ turn g, ir'.functions.get? id = some g ∧ Passes id f turn g ir.functions.entries env ∧
          (∀ phi ∈ (f.buildSsa turn).1.phis, 1 < phi.operands.size →
            ∀ b operand, phi.operands.get? b = some operand →
              ∀ (world : Environment) (contents : Contents),
                g.Reaches world (some b) (g.codeAt (some b)).length contents →
                contents phi.place.cell = contents operand.cell) ∧
          (∀ phi ∈ (f.buildSsa turn).1.phis, phi.operands.size ≤ 1 →
            ∀ b, ∀ i ∈ g.codeAt b, ∀ p ∈ i.defined, p.cell ≠ phi.place.cell) ∧
          (∃ env'', Function.eliminatePhis (f.kept turn) { (f.buildSsa turn).1 with phis := [] }
            (f.buildSsa turn).2 = .ok (g, env'')) ∧
          g.phis = [] := by
  obtain ⟨home, ir', env', hthrough, hall⟩ := exists_passes h
  refine ⟨ir', env', hthrough, fun id f hf => ?_⟩
  obtain ⟨turn, g, hg, hpasses, hclosed, hunjoined, hlaid⟩ := hall id f hf
  obtain ⟨env'', hout⟩ := hpasses.eliminateSsa
  refine ⟨turn, g, hg, hpasses, fun phi hphi hsize b operand hoperand world contents hreaches => ?_,
    fun phi hphi hsize => ?_, ⟨env'', ?_⟩, Function.phis_eliminateSsa hout⟩
  · exact hlaid.eq_operand hunjoined hphi hsize hoperand hreaches
  · have hundefined := hclosed.undefined hunjoined.records hphi
    exact (Function.undefined_eliminateSsa hphi hsize hundefined hout).codeAt
  · rw [Function.kept, Function.eliminatePhis_filter]
    exact hout

/-- `let x = false, y = true; while (c) { let t = x; x = y; y = t; } log(x, y);` -/
def swapping : Syntax.Module :=
  let name (text : String) : Expr := .name .synthetic (.synthetic text)
  let pattern (text : String) : Pattern := .name .synthetic (.synthetic text)
  let value (b : Bool) : Expr := .literal .synthetic (.boolean b)
  ⟨⟨0, 0⟩,
    [.declaration .synthetic .letKind
      [.mk .synthetic (pattern "x") (some (value false)),
       .mk .synthetic (pattern "y") (some (value true))],
     .while .synthetic (name "c")
      (.block .synthetic
        [.declaration .synthetic .letKind [.mk .synthetic (pattern "t") (some (name "x"))],
         .expression .synthetic (.assign .synthetic .set (pattern "x") (name "y")),
         .expression .synthetic (.assign .synthetic .set (pattern "y") (name "t"))]),
     .expression .synthetic
      (.call .synthetic (name "log") [.one (name "x"), .one (name "y")])]⟩

/-- Whenever an execution leaves the body of the loop, the joins of `x` and of `y` hold the new values
of both. -/
theorem throughSsa_copies_swapping :
    ∃ ir env ir' env' g, swapping.lower "m" {} = .ok (ir, env) ∧
      ir.throughSsa env = .ok (ir', env') ∧ ir'.functions.get? ⟨0⟩ = some g ∧
      ∃ phi phi' : Phi, ∃ operand operand' : Place, phi ≠ phi' ∧
        phi.operands.get? ⟨2⟩ = some operand ∧ phi'.operands.get? ⟨2⟩ = some operand' ∧
        (∃ contents, g.Reaches env' (some ⟨2⟩) (g.codeAt (some ⟨2⟩)).length contents) ∧
        ∀ contents, g.Reaches env' (some ⟨2⟩) (g.codeAt (some ⟨2⟩)).length contents →
          contents phi.place.cell = contents operand.cell ∧
            contents phi'.place.cell = contents operand'.cell := by
  obtain ⟨⟨ir, env⟩, hlower, f, hf, hsize, hphis, hentry, hstart, hround⟩ :
      ∃ t ∈ (swapping.lower "m" {}).toOption, ∃ f ∈ t.1.functions.get? ⟨0⟩,
        t.1.functions.size = 1 ∧
        (f.buildSsa t.2).1.phis.map (·.operands.keys) = [[⟨0⟩, ⟨2⟩], [⟨0⟩, ⟨2⟩]] ∧
        f.entry = ⟨0⟩ ∧ (⟨1⟩ : BlockId) ∈ (edgesOf f.blocks).getD ⟨0⟩ [] ∧
        ⟨2⟩ ∈ (edgesOf f.blocks).getD ⟨1⟩ [] := by
    decide +kernel
  have hlower := eq_ok_of_toOption hlower
  obtain ⟨phi, rest, hphi, hkeys, hrest⟩ := List.map_eq_cons_iff.1 hphis
  obtain ⟨phi', rest', rfl, hkeys', -⟩ := List.map_eq_cons_iff.1 hrest
  have hnodup := Function.phis_nodup f env
  rw [hphi] at hnodup
  have hne : phi ≠ phi' := List.ne_of_not_mem_cons (List.nodup_cons.1 hnodup).1
  have htakes {p : Phi} (hp : p.operands.keys = [⟨0⟩, ⟨2⟩]) :
      1 < p.operands.size ∧ ∃ operand, p.operands.get? ⟨2⟩ = some operand := by
    refine ⟨?_, Table.contains_iff.1 (Table.mem_keys.1 ?_)⟩
    · rw [← Table.length_keys, hp]
      decide
    · simp [hp]
  obtain ⟨hsize₁, operand, hoperand⟩ := htakes hkeys
  obtain ⟨hsize₂, operand', hoperand'⟩ := htakes hkeys'
  -- the function is the only one, so its turn comes at once
  obtain ⟨_, ir', env', hthrough, hlaidOut⟩ := exists_passes hlower
  obtain ⟨turn, g, hg, -, -, -, hlaid⟩ := hlaidOut ⟨0⟩ f hf
  obtain ⟨ir₂, env₂, hthrough₂, hall⟩ := throughSsa_copies hlower
  obtain ⟨rfl, rfl⟩ := Prod.mk.inj (Except.ok.inj (hthrough.symm.trans hthrough₂))
  obtain ⟨turn₂, g₂, hg₂, hpasses₂, hcopies, -⟩ := hall ⟨0⟩ f hf
  obtain rfl : g = g₂ := Option.some.inj (hg.symm.trans hg₂)
  rw [Table.entries_of_size_eq_one hsize hf] at hpasses₂
  refine ⟨ir, env, ir', env', g, hlower, hthrough, hg, phi, phi', operand, operand', hne, hoperand,
    hoperand', ?_, fun contents hreaches => ?_⟩
  · have hwalk : Walk g.entry (edgesOf g.blocks) [⟨0⟩] := hlaid.entry.trans hentry ▸ .start
    rw [Function.edgesOf_eq hlaid] at hwalk
    refine Function.exists_reaches ⟨[⟨1⟩, ⟨0⟩], ?_⟩ (Nat.le_refl _) env'
    rw [Function.edgesOf_eq hlaid]
    exact (hwalk.step hstart).step hround
  · cases hpasses₂ with
    | later _ hrest => cases hrest
    | now _ =>
      exact ⟨hcopies phi (by simp [hphi]) hsize₁ ⟨2⟩ operand hoperand env' contents hreaches,
        hcopies phi' (by simp [hphi]) hsize₂ ⟨2⟩ operand' hoperand' env' contents hreaches⟩

end Whittle.Syntax.Module
