import Mathlib.Tactic.Common
import Whittle.Optimize.Fold
import Whittle.Optimize.Site
import Whittle.Proofs.Optimize.Flow

/-!
# Executing functions

A function is executed instruction by instruction, its header first, along any path through its blocks
and from any contents of its cells.  What an operator gives is certain only where folding says so; what
is computed elsewhere can be anything.  Calls and kept source may write the variables that code outside
sees and can change.

Main statements: `Function.exists_reaches`, executions come to wherever there is a path, and
`Function.Reaches.of_dominates`, what the instruction at a site brings about and no other
instruction undoes holds wherever that site dominates.
-/

namespace Whittle.Ir

/-- What a cell holds: a value that the compiler can know, or something else. -/
inductive Datum where
  | plain (value : Value)
  | object (id : Nat)

/-- What the cells hold. -/
abbrev Contents := Cell → Datum

/-- The datum is one that the operation can give where the cells hold the contents. -/
def Op.Gives (contents : Contents) : Op → Datum → Prop
  | .literal value, d => d = .plain value
  | .loadLocal value, d | .storeLocal _ value _, d | .copy _ value, d => d = contents value.cell
  | .binary op left right, d => ∀ a b v, contents left.cell = .plain a →
    contents right.cell = .plain b → Value.binary? op a b = some v → d = .plain v
  | .unary op argument, d => ∀ a v, contents argument.cell = .plain a → Value.unary? op a = some v →
    d = .plain v
  | .logical op left right, d => ∀ a b, contents left.cell = .plain a →
    contents right.cell = .plain b → d = .plain (Value.logical op a b)
  | .conditional test consequent alternate, d => ∀ a, contents test.cell = .plain a →
    d = contents (if a.isTruthy then consequent else alternate).cell
  | _, _ => True

/-- Cells that an operation may change beside those that its instruction defines. -/
def Op.MayChange (env : Environment) (c : Cell) : Op → Prop
  | .call .. | .construct .. | .unsupported .. => env.isCapturedMutable c.declaration = true
  | .destructure .. => True
  | _ => False

/-- Executing the instruction gives the datum and takes one contents to another. -/
structure Instr.Executes (env : Environment) (i : Instr) (before after : Contents) (d : Datum) :
    Prop where
  gives : i.op.Gives before d
  writes : ∀ p ∈ i.defined, after p.cell = d
  keeps : ∀ c, (∀ p ∈ i.defined, p.cell ≠ c) → after c = before c ∨ i.op.MayChange env c

/-- Something can be given wherever the operation stands. -/
theorem Op.exists_gives (op : Op) (contents : Contents) : ∃ d, op.Gives contents d := by
  cases op with
  | literal value => exact ⟨_, rfl⟩
  | loadLocal value => exact ⟨_, rfl⟩
  | storeLocal target value kind => exact ⟨_, rfl⟩
  | copy target value => exact ⟨_, rfl⟩
  | binary op left right =>
    by_cases h : ∃ a b v, contents left.cell = .plain a ∧ contents right.cell = .plain b ∧
      Value.binary? op a b = some v
    · obtain ⟨a, b, v, ha, hb, hv⟩ := h
      refine ⟨.plain v, fun a' b' v' ha' hb' hv' => ?_⟩
      cases ha.symm.trans ha'
      cases hb.symm.trans hb'
      cases hv.symm.trans hv'
      rfl
    · exact ⟨.object 0, fun a b v ha hb hv => absurd ⟨a, b, v, ha, hb, hv⟩ h⟩
  | unary op argument =>
    by_cases h : ∃ a v, contents argument.cell = .plain a ∧ Value.unary? op a = some v
    · obtain ⟨a, v, ha, hv⟩ := h
      refine ⟨.plain v, fun a' v' ha' hv' => ?_⟩
      cases ha.symm.trans ha'
      cases hv.symm.trans hv'
      rfl
    · exact ⟨.object 0, fun a v ha hv => absurd ⟨a, v, ha, hv⟩ h⟩
  | logical op left right =>
    by_cases h : ∃ a b, contents left.cell = .plain a ∧ contents right.cell = .plain b
    · obtain ⟨a, b, ha, hb⟩ := h
      refine ⟨.plain (Value.logical op a b), fun a' b' ha' hb' => ?_⟩
      cases ha.symm.trans ha'
      cases hb.symm.trans hb'
      rfl
    · exact ⟨.object 0, fun a b ha hb => absurd ⟨a, b, ha, hb⟩ h⟩
  | conditional test consequent alternate =>
    by_cases h : ∃ a, contents test.cell = .plain a
    · obtain ⟨a, ha⟩ := h
      refine ⟨contents (if a.isTruthy then consequent else alternate).cell, fun a' ha' => ?_⟩
      cases ha.symm.trans ha'
      rfl
    · exact ⟨.object 0, fun a ha => absurd ⟨a, ha⟩ h⟩
  | _ => exact ⟨.object 0, trivial⟩

/-- The contents with a datum written by an instruction. -/
def Instr.update (i : Instr) (before : Contents) (d : Datum) : Contents :=
  fun c => if c ∈ i.defined.map (·.cell) then d else before c

theorem Instr.update_const (i : Instr) (d : Datum) : i.update (fun _ => d) d = fun _ => d := by
  funext c
  exact ite_self d

theorem Instr.executes_update {i : Instr} {before : Contents} {d : Datum} (env : Environment)
    (h : i.op.Gives before d) : i.Executes env before (i.update before d) d := by
  refine ⟨h, fun p hp => if_pos (List.mem_map_of_mem hp), fun c hc => .inl (if_neg fun hmem => ?_)⟩
  obtain ⟨p, hp, hcell⟩ := List.mem_map.1 hmem
  exact hc p hp hcell

theorem Instr.exists_executes (i : Instr) (env : Environment) (before : Contents) :
    ∃ after d, i.Executes env before after d := by
  obtain ⟨d, hd⟩ := i.op.exists_gives before
  exact ⟨_, d, i.executes_update env hd⟩

namespace Function

/-- The instructions of a block, or those of the header. -/
def codeAt (f : Function) : Option BlockId → List Instr
  | none => f.header
  | some b => ((f.blocks.get? b).map (·.instructions)).getD []

/-- Some execution of the function comes, with the given contents, to an index of a block or of the
header. -/
inductive Reaches (env : Environment) (f : Function) : Option BlockId → Nat → Contents → Prop
  | start (contents : Contents) : Reaches env f none 0 contents
  | step {b : Option BlockId} {n : Nat} {i : Instr} {before after : Contents} {d : Datum} :
      Reaches env f b n before → (f.codeAt b)[n]? = some i → i.Executes env before after d →
        Reaches env f b (n + 1) after
  | enter {contents : Contents} :
      Reaches env f none f.header.length contents → Reaches env f (some f.entry) 0 contents
  | jump {b t : BlockId} {contents : Contents} :
      Reaches env f (some b) (f.codeAt (some b)).length contents → t ∈ (edgesOf f.blocks).getD b [] →
        Reaches env f (some t) 0 contents

variable {f : Function} {env : Environment} {contents : Contents} {n : Nat}

/-- Executions never get stuck. -/
theorem exists_reaches_index {b : Option BlockId} (h : f.Reaches env b 0 contents)
    (hn : n ≤ (f.codeAt b).length) : ∃ contents', f.Reaches env b n contents' := by
  induction n with
  | zero => exact ⟨contents, h⟩
  | succ n ih =>
    obtain ⟨before, hbefore⟩ := ih (Nat.le_of_succ_le hn)
    obtain ⟨after, d, hexecutes⟩ := (f.codeAt b)[n].exists_executes env before
    exact ⟨after, hbefore.step (List.getElem?_eq_getElem hn) hexecutes⟩

/-- Some execution comes to each index of each block that can be reached. -/
theorem exists_reaches {b : BlockId} (h : Reachable f.entry (edgesOf f.blocks) b)
    (hn : n ≤ (f.codeAt (some b)).length) (env : Environment) :
    ∃ contents, f.Reaches env (some b) n contents := by
  suffices hstart : ∃ contents, f.Reaches env (some b) 0 contents by
    obtain ⟨contents, hreaches⟩ := hstart
    exact exists_reaches_index hreaches hn
  clear hn
  obtain ⟨before, hwalk⟩ := h
  generalize hblocks : b :: before = blocks at hwalk
  induction hwalk generalizing b before with
  | start =>
    cases hblocks
    have hstart : f.Reaches env none 0 fun _ => .object 0 := .start _
    obtain ⟨contents, hreaches⟩ := exists_reaches_index hstart (Nat.le_refl f.header.length)
    exact ⟨contents, .enter hreaches⟩
  | step _ hedge ih =>
    cases hblocks
    obtain ⟨contents, hreaches⟩ := ih _ rfl
    obtain ⟨contents', hend⟩ := exists_reaches_index hreaches (Nat.le_refl _)
    exact ⟨contents', .jump hend hedge⟩

/-- Executions stay on walks. -/
theorem Reaches.reachable {b : BlockId} (h : f.Reaches env (some b) n contents) :
    Reachable f.entry (edgesOf f.blocks) b := by
  generalize hat : some b = position at h
  induction h generalizing b with
  | start => cases hat
  | step _ _ _ ih => exact ih hat
  | enter _ _ =>
    cases hat
    exact reachable_entry
  | jump _ hedge ih =>
    cases hat
    exact (ih rfl).step hedge

theorem codeAt_of_getElem? {b : BlockId} {i : Instr} (h : (f.codeAt (some b))[n]? = some i) :
    f.blocks.contains b = true := by
  cases hb : f.blocks.get? b with
  | none => simp [codeAt, hb] at h
  | some block => exact Table.contains_iff.2 ⟨block, hb⟩

/-- Where an instruction of a block is executed, the function has an entry. -/
theorem Reaches.contains_entry {b : BlockId} {i : Instr} (h : f.Reaches env (some b) n contents)
    (hi : (f.codeAt (some b))[n]? = some i) : f.blocks.contains f.entry = true := by
  obtain ⟨before, hwalk⟩ := h.reachable
  have hb : (edgesOf f.blocks).contains b = true := by
    rw [edgesOf, Table.contains_map]
    exact codeAt_of_getElem? hi
  have hentry := hwalk.contains hb f.entry hwalk.entry_mem
  rwa [edgesOf, Table.contains_map] at hentry

end Function

/-! ## Sites that come first -/

/-- What comes before the instruction behind a site is the site itself or comes before it. -/
theorem Site.dominates_succ {s : Site} {function : FuncId} {b : Option BlockId} {n : Nat} {flow : Flow}
    (h : s.dominates ⟨function, b, n + 1⟩ flow = true) :
    s = ⟨function, b, n⟩ ∨ s.dominates ⟨function, b, n⟩ flow = true := by
  obtain ⟨function', block, index⟩ := s
  simp only [Site.dominates, Bool.and_eq_true, beq_iff_eq] at h ⊢
  obtain ⟨rfl, h⟩ := h
  cases block with
  | none =>
    cases b with
    | none =>
      simp only [decide_eq_true_eq, Site.mk.injEq, true_and] at h ⊢
      omega
    | some q => exact .inr ⟨rfl, rfl⟩
  | some p =>
    cases b with
    | none => cases h
    | some q =>
      simp only at h ⊢
      split at h
      · next hpq =>
        subst hpq
        simp only [decide_eq_true_eq, Site.mk.injEq, true_and, if_true] at h ⊢
        omega
      · next hpq =>
        rw [if_neg hpq]
        exact .inr ⟨trivial, h⟩

namespace Function

variable {f : Function} {env : Environment} {contents : Contents} {n : Nat}

/-- No block comes before the entry. -/
theorem HasFlow.not_dominates_entry (h : f.HasFlow) (hentry : f.blocks.contains f.entry = true)
    (p : BlockId) (index : Nat) :
    Site.dominates ⟨f.id, some p, index⟩ ⟨f.id, some f.entry, 0⟩ f.flow = false := by
  have hexact := Flow.exact_compute hentry
  rw [← h] at hexact
  rw [Bool.eq_false_iff]
  intro hdom
  simp only [Site.dominates, beq_self_eq_true, Bool.true_and] at hdom
  split at hdom
  · simp at hdom
  · next hne =>
    simp only [Flow.strictlyDominates, Bool.and_eq_true] at hdom
    exact hne (beq_iff_eq.2 ((hexact.dominates_iff p f.entry reachable_entry).1 hdom.2).eq_entry)

/-- What comes before a block comes before the end of each of its predecessors. -/
theorem HasFlow.dominates_pred (h : f.HasFlow) (hentry : f.blocks.contains f.entry = true)
    {b t p : BlockId} {index : Nat} (hb : Reachable f.entry (edgesOf f.blocks) b)
    (hedge : t ∈ (edgesOf f.blocks).getD b []) (hindex : index < (f.codeAt (some p)).length)
    (hdom : Site.dominates ⟨f.id, some p, index⟩ ⟨f.id, some t, 0⟩ f.flow = true) :
    Site.dominates ⟨f.id, some p, index⟩ ⟨f.id, some b, (f.codeAt (some b)).length⟩ f.flow = true := by
  have hexact := Flow.exact_compute hentry
  rw [← h] at hexact
  simp only [Site.dominates, beq_self_eq_true, Bool.true_and] at hdom ⊢
  split at hdom
  · simp at hdom
  · next hne =>
    simp only [Flow.strictlyDominates, Bool.and_eq_true] at hdom
    have hpt := (hexact.dominates_iff p t (hb.step hedge)).1 hdom.2
    have hpb := hpt.pred (fun heq => hne (beq_iff_eq.2 heq)) hedge
    split
    · next heq =>
      rw [beq_iff_eq] at heq
      subst heq
      simpa using hindex
    · next hpb' =>
      simp only [Flow.strictlyDominates, Bool.and_eq_true, bne_iff_ne, ne_eq]
      exact ⟨fun heq => hpb' (beq_iff_eq.2 heq), (hexact.dominates_iff p b hb).2 hpb⟩

/-- What the instruction at a site brings about, and no other instruction undoes, holds wherever the
site comes first. -/
theorem Reaches.of_dominates (hflow : f.HasFlow) {site : Option BlockId} {index : Nat}
    (hindex : index < (f.codeAt site).length) {Q : Contents → Prop}
    (hset : ∀ i before after d, f.Reaches env site index before → (f.codeAt site)[index]? = some i →
      i.Executes env before after d → Q after)
    (hkeep : ∀ b n i before after d, (b, n) ≠ (site, index) → (f.codeAt b)[n]? = some i →
      i.Executes env before after d → Q before → Q after)
    {b : Option BlockId} (h : f.Reaches env b n contents)
    (hentry : b.isSome = true → f.blocks.contains f.entry = true)
    (hdom : Site.dominates ⟨f.id, site, index⟩ ⟨f.id, b, n⟩ f.flow = true) : Q contents := by
  induction h with
  | start contents =>
    cases site <;> simp [Site.dominates] at hdom
  | @step b n i before after d hreach hi hexecutes ih =>
    by_cases hsite : (b, n) = (site, index)
    · cases hsite
      exact hset i before after d hreach hi hexecutes
    · have hdom := (Site.dominates_succ hdom).resolve_left fun heq => hsite (by cases heq; rfl)
      exact hkeep b n i before after d hsite hi hexecutes (ih hentry hdom)
  | enter _ ih =>
    cases site with
    | none =>
      refine ih (fun hsome => by cases hsome) ?_
      change index < f.header.length at hindex
      simpa [Site.dominates] using hindex
    | some p =>
      rw [hflow.not_dominates_entry (hentry rfl)] at hdom
      cases hdom
  | @jump b t contents hreach hedge ih =>
    refine ih hentry ?_
    cases site with
    | none => simp [Site.dominates]
    | some p => exact hflow.dominates_pred (hentry rfl) hreach.reachable hedge hindex hdom

end Function

end Whittle.Ir
