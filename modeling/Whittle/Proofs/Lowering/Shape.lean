import Mathlib.Tactic.Common
import Whittle.Proofs.Lowering.Tree

/-!
# The shape of lowered functions

Blocks are handed out ahead of use and end in an order of their own.  Every block that ends comes after
all that ended before, so that its edges lead onward, to blocks that were set aside; only the end of a
loop leads back, to the test of the innermost loop around.  Since the test of a loop began, blocks begin
that were handed out after it, and nothing from before leads to them: the body is entered through the
test alone.

Main statement: `Syntax.Module.reducible_lower`, every function of a lowered module is a closed,
reducible graph.
-/

namespace Whittle.Lowering

open Ir

/-- The test of a loop whose body is being filled. -/
structure IsTest (entry current : BlockId) (blocks : Table BlockId Block) (head : BlockId) : Prop where
  branch : EndsInBranch blocks head
  after_entry : entry.index < head.index
  before_current : head.index < current.index
  /-- What was handed out after the test is entered from there on only. -/
  gate : ∀ p t, Edge blocks p t → head.index < t.index → head.index ≤ p.index

/-- The blocks of a function that is being filled are in shape. -/
structure Shaped (entry current : BlockId) (blocks : Table BlockId Block)
    (reserved heads : List BlockId) : Prop where
  /-- What is mentioned has ended, is being filled or is set aside. -/
  ends : ∀ b block, blocks.get? b = some block → ∃ terminal, block.terminal = some terminal ∧
    ∀ t ∈ terminal.mentions, blocks.contains t = true ∨ t = current ∨ t ∈ reserved
  tests : ∀ h ∈ heads, IsTest entry current blocks h
  nested : heads.Pairwise fun inner outer => outer.index < inner.index
  layout : ∃ rank latch, Layout entry blocks heads rank latch

section

variable {entry current next head : BlockId} {blocks : Table BlockId Block}
  {reserved reserved' heads : List BlockId} {instructions : List Instr} {terminal : Terminal}

theorem shaped_start (entry : BlockId) : Shaped entry entry ∅ [] [] where
  ends b block hb := by cases hb
  tests h hmem := by cases hmem
  nested := .nil
  layout := by
    refine ⟨fun _ => 0, fun _ => none, ⟨0, fun b hb => (by cases hb)⟩, fun p t _ ht => (by cases ht),
      fun head source hlatch => (by cases hlatch)⟩

theorem Shaped.newBlock (h : Shaped entry current blocks reserved heads) (b : BlockId) :
    Shaped entry current blocks (b :: reserved) heads where
  ends x block hx := by
    obtain ⟨terminal, hterminal, hmentions⟩ := h.ends x block hx
    refine ⟨terminal, hterminal, fun t ht => ?_⟩
    exact (hmentions t ht).imp_right fun ht => ht.imp_right (List.mem_cons_of_mem _)
  tests := h.tests
  nested := h.nested
  layout := h.layout

/-- What a block mentions that ends. -/
theorem Shaped.ends_insert (h : Shaped entry current blocks reserved heads)
    (hperm : reserved.Perm (next :: reserved'))
    (htargets : ∀ t ∈ terminal.mentions, t ∈ reserved ∨ blocks.contains t = true) (b : BlockId)
    (block : Block)
    (hb : (blocks.insert current ⟨instructions, some terminal⟩).get? b = some block) :
    ∃ terminal', block.terminal = some terminal' ∧ ∀ t ∈ terminal'.mentions,
      (blocks.insert current ⟨instructions, some terminal⟩).contains t = true ∨ t = next ∨
        t ∈ reserved' := by
  have hset {t : BlockId} (ht : t ∈ reserved ∨ blocks.contains t = true ∨ t = current) :
      (blocks.insert current ⟨instructions, some terminal⟩).contains t = true ∨ t = next ∨
        t ∈ reserved' := by
    rw [Table.contains_insert, Bool.or_eq_true, decide_eq_true_eq]
    rcases ht with ht | ht | ht
    · exact .inr (List.mem_cons.1 (hperm.mem_iff.1 ht))
    · exact .inl (.inr ht)
    · exact .inl (.inl ht)
  rw [Table.get?_insert] at hb
  split at hb
  · cases hb
    exact ⟨terminal, rfl, fun t ht => hset ((htargets t ht).imp_right .inl)⟩
  · obtain ⟨terminal', hterminal, hmentions⟩ := h.ends b block hb
    refine ⟨terminal', hterminal, fun t ht => hset ?_⟩
    rcases hmentions t ht with ht | ht | ht
    · exact .inr (.inl ht)
    · exact .inr (.inr ht)
    · exact .inl ht

/-- The tests of the loops around stay what they are when a block ends. -/
theorem IsTest.endBlock (h : IsTest entry current blocks head) (hnew : blocks.contains current = false)
    (hnext : head.index < next.index) (block : Block) :
    IsTest entry next (blocks.insert current block) head := by
  refine ⟨h.branch.insert hnew, h.after_entry, hnext, fun p t hedge ht => ?_⟩
  rw [edge_insert] at hedge
  split at hedge
  · next hp =>
    rw [hp]
    exact Nat.le_of_lt h.before_current
  · exact h.gate p t hedge ht

/-- A block ends that leads to blocks set aside. -/
theorem Shaped.endBlock (h : Shaped entry current blocks reserved heads)
    (hnew : blocks.contains current = false)
    (hreserved : ∀ b ∈ reserved, blocks.contains b = false ∧ b ≠ current)
    (hperm : reserved.Perm (next :: reserved')) (htargets : ∀ t ∈ terminal.mentions, t ∈ reserved)
    (hheads : ∀ h ∈ heads, h.index < next.index) :
    Shaped entry next (blocks.insert current ⟨instructions, some terminal⟩) reserved' heads := by
  obtain ⟨rank, latch, hlayout⟩ := h.layout
  refine ⟨h.ends_insert hperm fun t ht => .inl (htargets t ht),
    fun head hhead => (h.tests head hhead).endBlock hnew (hheads head hhead) _, h.nested,
    hlayout.onward hnew (fun t ht => ?_) fun x hx => .inl hx⟩
  exact hreserved t (htargets t (Terminal.mem_mentions ht))

/-- The test of a loop ends and its body begins. -/
theorem Shaped.openLoop (h : Shaped entry current blocks reserved heads)
    (hnew : blocks.contains current = false)
    (hreserved : ∀ b ∈ reserved, blocks.contains b = false ∧ b ≠ current)
    (hentry : entry.index < current.index) (hperm : reserved.Perm (next :: reserved'))
    {exit : BlockId} (hexit : exit ∈ reserved') (hnext : current.index < next.index)
    (hedges : ∀ p t, Edge blocks p t → t.index ≤ current.index) (test : Place) :
    Shaped entry next (blocks.insert current ⟨instructions, some (.branch test next exit exit)⟩)
      reserved' (current :: heads) := by
  obtain ⟨rank, latch, hlayout⟩ := h.layout
  have htargets (t : BlockId) (ht : t ∈ (Terminal.branch test next exit exit).mentions) :
      t ∈ reserved := by
    rw [hperm.mem_iff]
    simp only [Terminal.mentions, List.mem_cons, List.not_mem_nil, or_false] at ht
    rcases ht with rfl | rfl | rfl
    · exact List.mem_cons_self
    · exact List.mem_cons_of_mem _ hexit
    · exact List.mem_cons_of_mem _ hexit
  refine ⟨h.ends_insert hperm fun t ht => .inl (htargets t ht), fun head hhead => ?_,
    List.pairwise_cons.2 ⟨fun outer houter => (h.tests outer houter).before_current, h.nested⟩,
    hlayout.onward hnew (fun t ht => ?_) fun x hx => (List.mem_cons.1 hx).symm⟩
  · rcases List.mem_cons.1 hhead with rfl | hhead
    · refine ⟨⟨_, _, _, _, _, Table.get?_insert_self .., rfl⟩, hentry, hnext, fun p t hedge ht => ?_⟩
      rw [edge_insert] at hedge
      split at hedge
      · next hp => rw [hp]
      · exact absurd (hedges p t hedge) (Nat.not_le_of_lt ht)
    · have htest := h.tests head hhead
      exact htest.endBlock hnew (Nat.lt_trans htest.before_current hnext) _
  · exact hreserved t (htargets t (Terminal.mem_mentions ht))

/-- The body of the innermost loop ends.  It consists of the blocks handed out after the test. -/
theorem Shaped.closeLoop (h : Shaped entry current blocks reserved (head :: heads))
    (hnew : blocks.contains current = false) (hperm : reserved.Perm (next :: reserved'))
    (hheads : ∀ h ∈ heads, h.index < next.index) :
    Shaped entry next (blocks.insert current ⟨instructions, some (.jump head)⟩) reserved' heads := by
  obtain ⟨rank, latch, hlayout⟩ := h.layout
  obtain ⟨houter, hnested⟩ := List.pairwise_cons.1 h.nested
  have htest := h.tests head List.mem_cons_self
  have hne : head ≠ current := by
    rintro rfl
    exact Nat.lt_irrefl _ htest.before_current
  have hjump (t : BlockId) (ht : t ∈ (Terminal.jump head).mentions) : t = head :=
    List.mem_singleton.1 ht
  refine ⟨h.ends_insert hperm fun t ht => .inr (hjump t ht ▸ htest.branch.contains),
    fun outer hmem => (h.tests outer (List.mem_cons_of_mem _ hmem)).endBlock hnew (hheads outer hmem) _,
    hnested, ?_⟩
  set block : Block := ⟨instructions, some (.jump head)⟩
  let body (b : BlockId) : Prop := (blocks.insert current block).contains b = true ∧ head.index < b.index
  have hbody : IsBody entry (blocks.insert current block) head body := by
    refine ⟨fun hentry => Nat.lt_asymm hentry.2 htest.after_entry, fun b hb => hb.1,
      fun p t hedge ht => ?_⟩
    have hle : head.index ≤ p.index :=
      (htest.endBlock hnew (Nat.lt_of_lt_of_le ht.2 (Nat.le_refl t.index)) block).gate p t hedge ht.2
    rcases Nat.lt_or_eq_of_le hle with hlt | heq
    · obtain ⟨b, hb, -⟩ := edge_iff.1 hedge
      exact .inl ⟨Table.contains_iff.2 ⟨b, hb⟩, hlt⟩
    · exact .inr (by cases p; cases head; simp_all)
  have hopen : latch head = none := by
    rw [Option.eq_none_iff_forall_ne_some]
    intro source hlatch
    exact (hlayout.closed head source hlatch).1 List.mem_cons_self
  obtain ⟨rank', hlayout'⟩ := hlayout.insert hnew block heads
    (fun b => if b = head then some current else latch b)
    (fun b source hlatch => by
      rw [if_neg, hlatch]
      rintro rfl
      rw [hopen] at hlatch
      cases hlatch)
    (fun t ht => by
      rw [hjump t ht]
      exact ⟨hne, fun _ => if_pos rfl⟩)
    (fun b source hlatch => by
      split at hlatch
      · next hb =>
        cases hlatch
        subst hb
        refine ⟨fun hmem => Nat.lt_irrefl _ (houter b hmem), htest.branch.insert hnew, body, hbody,
          ⟨?_, htest.before_current⟩, fun outer hmem hin => Nat.lt_asymm hin.2 (houter outer hmem)⟩
        rw [Table.contains_insert, decide_eq_true rfl, Bool.true_or]
      · have hinto : ∀ t ∈ block.successors, blocks.contains t = false ∨ t ∈ head :: heads :=
          fun t ht => .inr (hjump t ht ▸ List.mem_cons_self)
        exact hlayout.closed_insert hnew hinto (fun x hx => .inl (List.mem_cons_of_mem _ hx)) hlatch)
  exact ⟨rank', _, hlayout'⟩

end

/-! ## Steps -/

/-- The function being filled is in shape. -/
def Frame.IsShaped (frame : Frame) (plan : Plan) : Prop :=
  Shaped frame.function.entry frame.block frame.function.blocks plan.reserved plan.heads

/-- All functions of a configuration are in shape. -/
structure Formed (c : Config) : Prop where
  current : c.state.frame.IsShaped c.plan
  saved : ∀ o ∈ c.saved, o.1.IsShaped o.2
  closed : ∀ id f, c.state.functions.get? id = some f → f.Reducible

variable {s s' : State} {plan plan' : Plan} {saved : List (Frame × Plan)}
  {home home' : Table BlockId FuncId} {c c' : Config}

theorem Formed.advance (h : Formed ⟨s, plan, saved, home⟩) (hfunctions : s'.functions = s.functions)
    (hcurrent : s'.frame.IsShaped plan') : Formed ⟨s', plan', saved, home'⟩ :=
  ⟨hcurrent, h.saved, fun id f hf => h.closed id f (hfunctions ▸ hf)⟩

theorem Formed.put (h : Formed ⟨s, plan, saved, home⟩) (place : Place) (op : Op) (origin : Option Nat)
    {due : Option (DeclId × Place)} :
    Formed ⟨s.put place op origin, { plan with due }, saved, home⟩ := by
  refine h.advance rfl ?_
  obtain ⟨header, filled, heq⟩ := s.frame.put_eq (s.env.newInstrAt place origin op).1
  have hframe : (s.put place op origin).frame = _ := heq
  rw [hframe]
  exact h.current

theorem Formed.emit (h : Formed ⟨s, plan, saved, home⟩) (op : Op) (origin : Option Nat)
    {due : Option (DeclId × Place)} : Formed ⟨s.emit op origin, { plan with due }, saved, home⟩ :=
  Formed.put (s := { s with env := (s.env.newTemporary s.frame.function.id).2 })
    (h.advance rfl h.current) _ op origin

theorem Formed.withVersion (h : Formed ⟨s, plan, saved, home⟩) (d : DeclId)
    {due : Option (DeclId × Place)} : Formed ⟨s.withVersion d, { plan with due }, saved, home⟩ := by
  obtain ⟨_, _, heq, -⟩ := s.withVersion_eq d
  rw [heq]
  exact h.advance rfl h.current

/-- The last block of a function leads nowhere. -/
theorem Frame.IsShaped.close {env : Environment} {frame : Frame} (h : frame.IsShaped {})
    (hopen : Open env home frame {}) : (frame.close (.ret none)).recomputeFlow.Reducible := by
  have hclosed := hopen.close rfl
  obtain ⟨rank, latch, hlayout⟩ := h.layout
  have hlast : ∃ rank' latch', Layout frame.function.entry (frame.function.blocks.insert frame.block
      ⟨frame.filled.reverse, some (.ret none)⟩) [] rank' latch' :=
    hlayout.onward hopen.block_new (fun t ht => by cases ht) fun x hx => by cases hx
  obtain ⟨rank', latch', hlayout'⟩ := hlast
  refine Layout.reducible hlayout' hclosed.flow hclosed.entry (fun b block hb => ?_) fun p hedge => ?_
  · change (frame.function.blocks.insert frame.block _).get? b = some block at hb
    rw [Table.get?_insert] at hb
    split at hb
    · cases hb
      exact ⟨_, rfl, fun t ht => by cases ht⟩
    · obtain ⟨terminal, hterminal, hmentions⟩ := h.ends b block hb
      refine ⟨terminal, hterminal, fun t ht => ?_⟩
      change (frame.function.blocks.insert frame.block _).contains t = true
      rw [Table.contains_insert, Bool.or_eq_true, decide_eq_true_eq]
      rcases hmentions t ht with ht | ht | ht
      · exact .inr ht
      · exact .inl ht
      · cases ht
  · obtain ⟨block, hblock, ht⟩ := edge_iff.1 hedge
    exact (hclosed.charted.edges p block hblock _ ht).2.1 rfl

/-- Steps from sound configurations keep all functions in shape. -/
theorem Formed.step (h : Formed c) (hsound : Sound c) (hstep : Step c c') : Formed c' := by
  have hnew := hsound.current.block_new
  have hreserved (b : BlockId) (hb : b ∈ c.plan.reserved) :
      c.state.frame.function.blocks.contains b = false ∧ b ≠ c.state.frame.block :=
    ⟨(hsound.current.reserved b hb).1, (hsound.current.reserved b hb).2.1⟩
  cases hstep with
  | quiet hquiet =>
    obtain ⟨_, hfunction⟩ := hquiet.function
    refine h.advance hquiet.functions ?_
    rw [Frame.IsShaped, hfunction, hquiet.block]
    exact h.current
  | newBlock => exact h.advance rfl (Shaped.newBlock h.current _)
  | declare _ _ | claim _ _ | offer _ | drop _ | hoist _ | unhoist | unkeep | openHeader _ _
  | closeHeader => exact h.advance rfl h.current
  | version d => exact h.withVersion d
  | bind op origin _ => exact h.put _ op origin
  | store op origin _ | emit op origin _ => exact h.emit op origin
  | endBlock _ hperm _ htargets hheads =>
    exact h.advance rfl (Shaped.endBlock h.current hnew hreserved hperm htargets hheads)
  | openLoop _ hentry hperm _ hexit _ hbody hedges =>
    refine h.advance rfl (Shaped.openLoop h.current hnew hreserved hentry hperm hexit hbody
      (fun p t hedge => ?_) _)
    obtain ⟨block, hblock, ht⟩ := edge_iff.1 hedge
    exact hedges p block hblock t ht
  | closeLoop _ _ hperm hheads => exact h.advance rfl (Shaped.closeLoop h.current hnew hperm hheads)
  | enter name kind origin outer =>
    refine ⟨shaped_start _, fun o ho => ?_, h.closed⟩
    rcases List.mem_cons.1 ho with rfl | ho
    · exact h.current
    · exact h.saved o ho
  | leave outer =>
    refine ⟨h.saved _ List.mem_cons_self, fun o ho => h.saved o (List.mem_cons_of_mem _ ho),
      fun id f hf => ?_⟩
    change (Table.insert _ _ _).get? id = some f at hf
    rw [Table.get?_insert] at hf
    split at hf
    · cases hf
      exact h.current.close hsound.current
    · exact h.closed id f hf

theorem Formed.steps (h : Formed c) (hsound : Sound c) (hsteps : Steps c c') : Formed c' := by
  induction hsteps with
  | refl => exact h
  | tail hsteps hstep ih => exact ih.step (hsound.steps hsteps) hstep

theorem formed_start (globals : Table String ImportBinding) : Formed (Config.start globals) :=
  ⟨shaped_start _, fun o ho => (by cases ho), fun id f hf => (by cases hf)⟩

end Whittle.Lowering

namespace Whittle.Syntax.Module

open Ir Lowering

theorem reducible_of_lower {path : String} {m : Syntax.Module} {ir : Ir.Module} {env : Environment}
    (h : m.lower path {} = .ok (ir, env)) {id : FuncId} {f : Ir.Function}
    (hf : ir.functions.get? id = some f) : f.Reducible := by
  obtain ⟨s, home, hsteps, -, hfunctions⟩ := steps_lower h
  have hsound := (sound_start _).steps hsteps
  have hformed := (formed_start _).steps (sound_start _) hsteps
  rw [hfunctions, Table.get?_insert] at hf
  split at hf
  · cases hf
    exact hformed.current.close hsound.current
  · exact hformed.closed id f hf

/-- Lowering turns every function into a closed, reducible graph: every block ends and mentions blocks
of the function only, nothing leads to the entry, loops have one back edge each, from blocks that their
test dominates, and no other way leads back. -/
theorem reducible_lower {path : String} {m : Syntax.Module} {ir : Ir.Module} {env : Environment}
    (h : m.lower path {} = .ok (ir, env)) :
    ∀ id f, ir.functions.get? id = some f → f.Reducible :=
  fun _ _ hf => reducible_of_lower h hf

/-- `while (a) { while (b) { if (c) { break; } } }` -/
def breaking : Syntax.Module :=
  let name (text : String) : Expr := .name .synthetic (.synthetic text)
  let block (s : Stmt) : Stmt := .block .synthetic [s]
  ⟨⟨0, 0⟩,
    [.while .synthetic (name "a") (block (.while .synthetic (name "b")
      (block (.ifElse .synthetic (name "c") (block (.break .synthetic none)) none))))]⟩

/-- Both loops lead back to their tests, the inner one from where the branch meets again, the outer one
from the exit of the inner one. -/
theorem reducible_lower_breaking : ∃ ir env f, breaking.lower "m" {} = .ok (ir, env) ∧
    ir.functions.get? ⟨0⟩ = some f ∧ f.flow.isBackEdge ⟨8⟩ ⟨4⟩ = true ∧
    f.flow.isBackEdge ⟨6⟩ ⟨1⟩ = true ∧ f.Reducible := by
  obtain ⟨⟨ir, env⟩, hlower, f, hf, hinner, houter⟩ : ∃ t ∈ (breaking.lower "m" {}).toOption,
      ∃ f ∈ t.1.functions.get? ⟨0⟩, f.flow.isBackEdge ⟨8⟩ ⟨4⟩ = true ∧
        f.flow.isBackEdge ⟨6⟩ ⟨1⟩ = true := by
    decide +kernel
  have hlower := eq_ok_of_toOption hlower
  exact ⟨ir, env, f, hlower, hf, hinner, houter, reducible_lower hlower ⟨0⟩ f hf⟩

end Whittle.Syntax.Module
