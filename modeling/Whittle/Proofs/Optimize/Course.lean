import Mathlib.Logic.Relation
import Mathlib.Tactic.Common
import Whittle.Proofs.Optimize.Execution

/-!
# The course of an execution

What a function executes depends on the outcomes of its tests only: given these, in order, the blocks it
passes through are settled, and with them the instructions that it performs, in order, and the place
that it returns.

A block that ends in a plain jump can take in the block behind it when nothing else leads there.  What
is performed and what is returned stay as they were, whatever the outcomes, because the two are always
passed through one after the other.

Main statements: `Function.performs_merge` and `Function.performs_dropUnreachable`, with their
companions for what is returned.
-/

namespace Whittle.Ir

/-- The tests that a terminal makes. -/
def Terminal.tests : Terminal → List Place
  | .branch test _ _ _ => [test]
  | _ => []

/-- Where a terminal leads when its test, should it make one, has the given outcome. -/
def Terminal.target? (outcome : Bool) : Terminal → Option BlockId
  | .jump target => some target
  | .branch _ consequent alternate _ => some (if outcome then consequent else alternate)
  | .ret _ => none

theorem Terminal.mem_successors_of_target? {t : Terminal} {outcome : Bool} {b : BlockId}
    (h : t.target? outcome = some b) : b ∈ t.successors := by
  cases t with
  | jump target => simpa [target?, successors, eq_comm] using h
  | branch test consequent alternate fallthrough =>
    cases outcome <;> simp_all [target?, successors]
  | ret value => cases h

/-- How far an execution has come. -/
structure Progress where
  /-- The instructions performed so far. -/
  performed : List Instr
  /-- The tests made so far. -/
  tests : List Place
  /-- The block that comes next. -/
  block : BlockId

namespace Function

/-- Where the next block takes an execution; `outcomes` tells the outcome of each test. -/
def proceed? (f : Function) (outcomes : Nat → Bool) (p : Progress) : Option Progress := do
  let block ← f.blocks.get? p.block
  let terminal ← block.terminal
  let next ← terminal.target? (outcomes p.tests.length)
  return ⟨p.performed ++ block.instructions, p.tests ++ terminal.tests, next⟩

/-- The execution comes as far as that. -/
def Arrives (f : Function) (outcomes : Nat → Bool) : Progress → Prop :=
  Relation.ReflTransGen (fun p q => f.proceed? outcomes p = some q) ⟨f.header, [], f.entry⟩

/-- The execution performs these instructions, in this order, before anything else, and has made these
tests when it comes to the block of the last one. -/
def Performs (f : Function) (outcomes : Nat → Bool) (is : List Instr) (tests : List Place) : Prop :=
  ∃ p, f.Arrives outcomes p ∧ p.tests = tests ∧ is <+: p.performed ++ f.codeAt (some p.block)

/-- The execution ends by returning the value; these are all instructions that it performs and all tests
that it makes. -/
def Returns (f : Function) (outcomes : Nat → Bool) (is : List Instr) (tests : List Place)
    (value : Option Place) : Prop :=
  ∃ p block, f.Arrives outcomes p ∧ f.blocks.get? p.block = some block ∧
    block.terminal = some (.ret value) ∧ p.tests = tests ∧ is = p.performed ++ block.instructions

variable {f f' : Function} {outcomes : Nat → Bool} {p q : Progress} {a b c : BlockId}

theorem proceed?_eq_some : f.proceed? outcomes p = some q ↔
    ∃ block t next, f.blocks.get? p.block = some block ∧ block.terminal = some t ∧
      t.target? (outcomes p.tests.length) = some next ∧
      q = ⟨p.performed ++ block.instructions, p.tests ++ t.tests, next⟩ := by
  simp only [proceed?, Option.bind_eq_bind, Option.bind_eq_some_iff, Option.pure_def, Option.some.injEq,
    exists_and_left, eq_comm (a := q)]

theorem codeAt_of_get? {block : Block} (h : f.blocks.get? b = some block) :
    f.codeAt (some b) = block.instructions := by
  rw [codeAt, h]
  rfl

theorem edge_of_proceed? (h : f.proceed? outcomes p = some q) : Edge f.blocks p.block q.block := by
  obtain ⟨block, t, next, hblock, hterminal, hnext, rfl⟩ := proceed?_eq_some.1 h
  refine edge_iff.2 ⟨block, hblock, ?_⟩
  rw [Block.successors, hterminal]
  exact Terminal.mem_successors_of_target? hnext

theorem Arrives.reachable (h : f.Arrives outcomes p) : Reachable f.entry (edgesOf f.blocks) p.block := by
  induction h with
  | refl => exact reachable_entry
  | tail _ hstep ih => exact ih.step (edge_of_proceed? hstep)

/-! ## Blocks that no execution comes to -/

section Agree

variable (hheader : f'.header = f.header) (hentry : f'.entry = f.entry)
  (hblocks : ∀ b, Reachable f.entry (edgesOf f.blocks) b → f'.blocks.get? b = f.blocks.get? b)

include hheader hentry hblocks

theorem arrives_congr : f'.Arrives outcomes p ↔ f.Arrives outcomes p := by
  have hproceed {p : Progress} (hp : f.Arrives outcomes p) :
      f'.proceed? outcomes p = f.proceed? outcomes p := by
    rw [proceed?, proceed?, hblocks _ hp.reachable]
  constructor
  · intro h
    induction h with
    | refl =>
      rw [hheader, hentry]
      exact .refl
    | tail _ hstep ih => exact ih.tail (hproceed ih ▸ hstep)
  · intro h
    induction h with
    | refl => rw [Arrives, hheader, hentry]
    | tail hp hstep ih => exact ih.tail ((hproceed hp).trans hstep)

theorem performs_congr : f'.Performs outcomes = f.Performs outcomes := by
  funext is tests
  refine propext (exists_congr fun p => ?_)
  rw [arrives_congr hheader hentry hblocks]
  refine and_congr_right fun hp => ?_
  rw [codeAt, codeAt, hblocks _ hp.reachable]

theorem returns_congr : f'.Returns outcomes = f.Returns outcomes := by
  funext is tests value
  refine propext (exists_congr fun p => exists_congr fun block => ?_)
  rw [arrives_congr hheader hentry hblocks]
  refine and_congr_right fun hp => ?_
  rw [hblocks _ hp.reachable]

end Agree

theorem HasFlow.isReachable_iff (h : f.HasFlow) :
    f.flow.isReachable b = true ↔ Reachable f.entry (edgesOf f.blocks) b := by
  rw [h]
  exact Flow.isReachable_compute

theorem HasFlow.get?_dropUnreachable (h : f.HasFlow) (hb : Reachable f.entry (edgesOf f.blocks) b) :
    f.dropUnreachable.2.blocks.get? b = f.blocks.get? b := by
  rw [Function.dropUnreachable]
  dsimp only
  split
  · rfl
  · rw [recomputeFlow, Table.get?_filter, h.isReachable_iff.2 hb]
    cases f.blocks.get? b <;> rfl

theorem HasFlow.performs_dropUnreachable (h : f.HasFlow) :
    f.dropUnreachable.2.Performs outcomes = f.Performs outcomes :=
  performs_congr (by rw [dropUnreachable_eq]) (by rw [dropUnreachable_eq]) fun _ => h.get?_dropUnreachable

theorem HasFlow.returns_dropUnreachable (h : f.HasFlow) :
    f.dropUnreachable.2.Returns outcomes = f.Returns outcomes :=
  returns_congr (by rw [dropUnreachable_eq]) (by rw [dropUnreachable_eq]) fun _ => h.get?_dropUnreachable

/-! ## Two blocks that are always passed through one after the other -/

/-- A reachable block that ends in a plain jump to another one, which is not the entry, which nothing else
that is reachable leads to, and which is not where the arms of a conditional meet. -/
structure Mergeable (f : Function) (a b : BlockId) : Prop where
  jumps : ∃ block, f.blocks.get? a = some block ∧ block.terminal = some (.jump b)
  ne : b ≠ a
  ne_entry : b ≠ f.entry
  only : ∀ p, Reachable f.entry (edgesOf f.blocks) p ∧ Edge f.blocks p b ↔ p = a
  apart : ∀ t ∈ f.terminals, ∀ test consequent alternate, t ≠ .branch test consequent alternate b

theorem Mergeable.reachable (h : f.Mergeable a b) : Reachable f.entry (edgesOf f.blocks) a :=
  ((h.only a).2 rfl).1

theorem Mergeable.edge (h : f.Mergeable a b) : Edge f.blocks a b := ((h.only a).2 rfl).2

section Merge

variable {block merged : Block}

theorem get?_merge_source (hne : c ≠ a) : (f.merge a c merged).blocks.get? c = none := by
  rw [merge, recomputeFlow, Table.get?_modify, if_neg hne, Table.get?_erase, if_pos rfl]

theorem get?_merge_target (hne : c ≠ a) (ha : f.blocks.get? a = some block) :
    (f.merge a c merged).blocks.get? a =
      some ⟨block.instructions ++ merged.instructions, merged.terminal⟩ := by
  rw [merge, recomputeFlow, Table.get?_modify, if_pos rfl, Table.get?_erase, if_neg hne.symm, ha]
  rfl

theorem get?_merge_other (ha : b ≠ a) (hc : b ≠ c) :
    (f.merge a c merged).blocks.get? b = f.blocks.get? b := by
  rw [merge, recomputeFlow, Table.get?_modify, if_neg ha, Table.get?_erase, if_neg hc]

/-- Only the jump of the first block leads to the second one. -/
theorem Mergeable.next_ne (h : f.Mergeable a c) (hp : f.Arrives outcomes p) (hpa : p.block ≠ a)
    (hstep : f.proceed? outcomes p = some q) : q.block ≠ c := by
  intro hq
  exact hpa ((h.only p.block).1 ⟨hp.reachable, hq ▸ edge_of_proceed? hstep⟩)

theorem Mergeable.proceed? (h : f.Mergeable a c) (ha : f.blocks.get? a = some block)
    (hpa : p.block = a) :
    f.proceed? outcomes p = some ⟨p.performed ++ block.instructions, p.tests, c⟩ := by
  obtain ⟨block', ha', hjump⟩ := h.jumps
  obtain rfl : block = block' := Option.some.inj (ha.symm.trans ha')
  exact proceed?_eq_some.2 ⟨block, .jump c, c, hpa ▸ ha, hjump, rfl, by simp [Terminal.tests]⟩

variable (h : f.Mergeable a c) (hmerged : f.blocks.get? c = some merged)

include h hmerged

/-- An execution comes to the same blocks as before, but for the one that has been taken in. -/
theorem Mergeable.arrives_merge (hp : (f.merge a c merged).Arrives outcomes p) :
    f.Arrives outcomes p ∧ p.block ≠ c := by
  obtain ⟨block, ha, -⟩ := h.jumps
  induction hp with
  | refl => exact ⟨.refl, h.ne_entry.symm⟩
  | @tail p q _ hstep ih =>
    obtain ⟨hp, hpc⟩ := ih
    obtain ⟨block', t, next, hblock', hterminal, hnext, hq⟩ := proceed?_eq_some.1 hstep
    by_cases hpa : p.block = a
    · -- the first block, and the second one behind it
      rw [hpa, get?_merge_target h.ne ha] at hblock'
      obtain rfl := Option.some.inj hblock'
      have hsecond : f.proceed? outcomes ⟨p.performed ++ block.instructions, p.tests, c⟩ = some q :=
        proceed?_eq_some.2 ⟨merged, t, next, hmerged, hterminal, hnext, by simp [hq]⟩
      have hmid := hp.tail (h.proceed? ha hpa)
      exact ⟨hmid.tail hsecond, h.next_ne hmid h.ne hsecond⟩
    · rw [get?_merge_other hpa hpc] at hblock'
      have hstep : f.proceed? outcomes p = some q :=
        proceed?_eq_some.2 ⟨block', t, next, hblock', hterminal, hnext, hq⟩
      exact ⟨hp.tail hstep, h.next_ne hp hpa hstep⟩

/-- Where an execution came before it comes now; where it came to the second block, it comes to the
first. -/
theorem Mergeable.arrives_of_arrives (ha : f.blocks.get? a = some block) (hp : f.Arrives outcomes p) :
    (p.block ≠ c → (f.merge a c merged).Arrives outcomes p) ∧
      (p.block = c → ∃ performed, p.performed = performed ++ block.instructions ∧
        (f.merge a c merged).Arrives outcomes ⟨performed, p.tests, a⟩) := by
  induction hp with
  | refl => exact ⟨fun _ => .refl, fun heq => absurd heq.symm h.ne_entry⟩
  | @tail p q hp hstep ih =>
    obtain ⟨block', t, next, hblock', hterminal, hnext, hq⟩ := proceed?_eq_some.1 hstep
    by_cases hpc : p.block = c
    · -- what the second block did, the first one does behind its own instructions
      obtain ⟨performed, hperformed, harrives⟩ := ih.2 hpc
      have hne : q.block ≠ c := h.next_ne hp (hpc ▸ h.ne) hstep
      obtain rfl : merged = block' := Option.some.inj (hmerged.symm.trans (hpc ▸ hblock'))
      refine ⟨fun _ => harrives.tail (proceed?_eq_some.2 ⟨_, t, next, get?_merge_target h.ne ha,
        hterminal, hnext, ?_⟩), fun heq => absurd heq hne⟩
      rw [hq, hperformed, List.append_assoc]
    · by_cases hpa : p.block = a
      · -- the jump itself: it is no step any more
        obtain rfl := Option.some.inj ((h.proceed? ha hpa).symm.trans hstep)
        refine ⟨fun hne => absurd rfl hne, fun _ => ⟨p.performed, rfl, ?_⟩⟩
        subst hpa
        exact ih.1 hpc
      · have hne : q.block ≠ c := h.next_ne hp hpa hstep
        refine ⟨fun _ => (ih.1 hpc).tail (proceed?_eq_some.2 ⟨block', t, next, ?_, hterminal, hnext, hq⟩),
          fun heq => absurd heq hne⟩
        rw [get?_merge_other hpa hpc, hblock']

/-- Taking in the block behind a jump changes nothing of what is performed. -/
theorem performs_merge : (f.merge a c merged).Performs outcomes = f.Performs outcomes := by
  obtain ⟨block, ha, -⟩ := h.jumps
  funext is tests
  refine propext ⟨?_, ?_⟩
  · rintro ⟨p, hp, rfl, his⟩
    obtain ⟨hp, hpc⟩ := h.arrives_merge hmerged hp
    by_cases hpa : p.block = a
    · refine ⟨_, hp.tail (h.proceed? ha hpa), rfl, ?_⟩
      rw [hpa, codeAt_of_get? (get?_merge_target h.ne ha)] at his
      rwa [codeAt_of_get? hmerged, List.append_assoc]
    · refine ⟨p, hp, rfl, ?_⟩
      rwa [codeAt, get?_merge_other hpa hpc] at his
  · rintro ⟨p, hp, rfl, his⟩
    obtain ⟨hother, hsecond⟩ := h.arrives_of_arrives hmerged ha hp
    by_cases hpc : p.block = c
    · obtain ⟨performed, hperformed, harrives⟩ := hsecond hpc
      refine ⟨_, harrives, rfl, ?_⟩
      rw [hpc, codeAt_of_get? hmerged, hperformed, List.append_assoc] at his
      rwa [codeAt_of_get? (get?_merge_target h.ne ha)]
    · refine ⟨p, hother hpc, rfl, ?_⟩
      by_cases hpa : p.block = a
      · rw [hpa, codeAt_of_get? ha] at his
        rw [hpa, codeAt_of_get? (get?_merge_target h.ne ha), ← List.append_assoc]
        exact his.trans (List.prefix_append _ _)
      · rwa [codeAt, get?_merge_other hpa hpc]

/-- Taking in the block behind a jump changes nothing of what is returned. -/
theorem returns_merge : (f.merge a c merged).Returns outcomes = f.Returns outcomes := by
  obtain ⟨block, ha, hjump⟩ := h.jumps
  funext is tests value
  refine propext ⟨?_, ?_⟩
  · rintro ⟨p, block', hp, hblock', hreturn, rfl, rfl⟩
    obtain ⟨hp, hpc⟩ := h.arrives_merge hmerged hp
    by_cases hpa : p.block = a
    · rw [hpa, get?_merge_target h.ne ha] at hblock'
      obtain rfl := Option.some.inj hblock'
      exact ⟨_, merged, hp.tail (h.proceed? ha hpa), hmerged, hreturn, rfl, (List.append_assoc ..).symm⟩
    · rw [get?_merge_other hpa hpc] at hblock'
      exact ⟨p, block', hp, hblock', hreturn, rfl, rfl⟩
  · rintro ⟨p, block', hp, hblock', hreturn, rfl, rfl⟩
    obtain ⟨hother, hsecond⟩ := h.arrives_of_arrives hmerged ha hp
    by_cases hpc : p.block = c
    · obtain ⟨performed, hperformed, harrives⟩ := hsecond hpc
      obtain rfl : merged = block' := Option.some.inj (hmerged.symm.trans (hpc ▸ hblock'))
      exact ⟨_, _, harrives, get?_merge_target h.ne ha, hreturn, rfl,
        by rw [hperformed, List.append_assoc]⟩
    · have hpa : p.block ≠ a := by
        intro hpa
        obtain rfl : block = block' := Option.some.inj (ha.symm.trans (hpa ▸ hblock'))
        cases hjump.symm.trans hreturn
      exact ⟨p, block', hother hpc, by rw [get?_merge_other hpa hpc, hblock'], hreturn, rfl, rfl⟩

end Merge

end Function

end Whittle.Ir
