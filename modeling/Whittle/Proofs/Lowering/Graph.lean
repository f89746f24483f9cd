import Mathlib.Tactic.Common
import Whittle.Proofs.Lowering.Runs

/-!
# Branches, loops and functions

Statements end blocks and go on in others that were set aside before.  What they set aside they use up,
so that the plan is afterwards what it was.
-/

namespace Whittle.Lowering

open Ir Syntax

variable {α β : Type}

/-! ## Blocks -/

theorem newBlock_run (s : State) :
    newBlock s = .ok (s.env.nextBlock, { s with env := s.env.newBlock.2 }) := rfl

theorem endBlock_run (terminal : Terminal) (next : BlockId) (s : State) :
    endBlock terminal next s = .ok ((), { s with frame := s.frame.endBlock terminal next }) := rfl

theorem goes_newBlock (s : State) (reserved heads : List BlockId) :
    Goes s ⟨reserved, heads, [], none⟩ { s with env := s.env.newBlock.2 }
      ⟨s.env.nextBlock :: reserved, heads, [], none⟩ :=
  .of_step fun _ _ _ => ⟨_, .newBlock⟩

theorem goes_endBlock {s : State} {t : Terminal} {next : BlockId} {reserved reserved' : List BlockId}
    (heads : List BlockId) (hheader : s.frame.inHeader = false)
    (hperm : reserved.Perm (next :: reserved')) (hnext : next ∉ s.frame.loops.map (·.exit))
    (htargets : ∀ b ∈ t.mentions, b ∈ reserved) (hheads : ∀ h ∈ heads, h.index < next.index) :
    Goes s ⟨reserved, heads, [], none⟩ { s with frame := s.frame.endBlock t next }
      ⟨reserved', heads, [], none⟩ :=
  .of_step fun _ home _ => ⟨home, .endBlock hheader hperm hnext htargets hheads⟩

theorem same_endBlock (s : State) (t : Terminal) (next : BlockId) :
    Same s { s with frame := s.frame.endBlock t next } := ⟨rfl, rfl, rfl, rfl⟩

/-- Blocks that are in use were handed out before. -/
theorem Sound.index_lt {c : Config} (h : Sound c) :
    c.state.frame.function.entry.index < c.state.env.nextBlock.index ∧
      ∀ b ∈ c.state.frame.loops.map (·.exit), b.index < c.state.env.nextBlock.index := by
  refine ⟨?_, fun b hb => ?_⟩
  · rcases h.current.entry with heq | hcontains
    · rw [heq]
      exact h.handed _ _ h.current.block_home
    · exact h.handed _ _ (h.current.charted.own _ hcontains)
  · exact h.handed _ _ (h.current.reserved b (h.current.exits b hb)).2.2

theorem Sound.not_mem_exits {c : Config} (h : Sound c) {b : BlockId}
    (hb : c.state.env.nextBlock.index ≤ b.index) : b ∉ c.state.frame.loops.map (·.exit) := fun hmem =>
  Nat.lt_irrefl _ (Nat.lt_of_lt_of_le (h.index_lt.2 b hmem) hb)

/-- So were the tests of the loops around. -/
theorem Sound.head_lt {c : Config} (h : Sound c) {b : BlockId}
    (hb : c.state.env.nextBlock.index ≤ b.index) : ∀ head ∈ c.plan.heads, head.index < b.index :=
  fun head hmem => Nat.lt_of_lt_of_le
    (h.handed _ _ (h.current.charted.own head (h.current.heads head hmem).1)) hb

/-- So was everything that an edge leads to. -/
theorem Sound.target_lt {c : Config} (h : Sound c) {b t : BlockId} {block : Block}
    (hb : c.state.frame.function.blocks.get? b = some block) (ht : t ∈ block.successors) :
    t.index < c.state.env.nextBlock.index :=
  h.handed _ _ (h.current.charted.edges b block hb t ht).2.2

/-- The state in a new block. -/
def State.nextBlock (s : State) (terminal : Terminal) : State :=
  { s with env := s.env.newBlock.2, frame := s.frame.endBlock terminal s.env.nextBlock }

theorem goes_nextBlock {s : State} {terminal : Terminal} {reserved : List BlockId}
    (hheader : s.frame.inHeader = false)
    (htargets : ∀ t ∈ terminal.mentions, t = s.env.nextBlock ∨ t ∈ reserved)
    (heads : List BlockId) :
    Goes s ⟨reserved, heads, [], none⟩ (s.nextBlock terminal) ⟨reserved, heads, [], none⟩ := by
  intro saved home hsound
  refine ⟨_, (Relation.ReflTransGen.single .newBlock).tail
    (.endBlock (s := { s with env := s.env.newBlock.2 }) hheader (.refl _) ?_ ?_ ?_)⟩
  · exact hsound.not_mem_exits (Nat.le_refl _)
  · exact fun t ht => List.mem_cons.2 (htargets t ht)
  · exact hsound.head_lt (Nat.le_refl _)

theorem same_nextBlock (s : State) (terminal : Terminal) : Same s (s.nextBlock terminal) :=
  ⟨rfl, rfl, rfl, rfl⟩

/-- A block ends and the next one begins. -/
theorem moves_start : Moves (newBlock >>= fun start => endBlock (.jump start) start) := by
  intro s u s' hrun hheader
  obtain rfl : s.nextBlock (.jump s.env.nextBlock) = s' := (Prod.mk.inj (Except.ok.inj hrun)).2
  refine ⟨same_nextBlock s _, fun reserved heads => goes_nextBlock hheader (fun t ht => ?_) heads⟩
  exact .inl (List.mem_singleton.1 ht)

theorem quiet_unreachable (s : State) :
    Quiet s { s with frame := { s.frame with isReachable := false } } := { Quiet.refl s with }

theorem endUnreachable_run {terminal : Terminal} {s s' : State} {u : Unit}
    (h : endUnreachable terminal s = .ok (u, s')) :
    s' = { s.nextBlock terminal with
      frame := { (s.nextBlock terminal).frame with isReachable := false } } :=
  (Prod.mk.inj (Except.ok.inj h)).2.symm

theorem moves_return (value : Option Place) : Moves (endUnreachable (.ret value)) := by
  intro s u s' hrun hheader
  obtain rfl := endUnreachable_run hrun
  refine ⟨(same_nextBlock s _).trans (quiet_unreachable _).same, fun reserved heads => ?_⟩
  exact (goes_nextBlock hheader (fun t ht => by cases ht) heads).trans
    (.of_quiet (quiet_unreachable _) _)

theorem moves_leaveLoop : Moves leaveLoop := by
  intro s u s' hrun hheader
  unfold leaveLoop at hrun
  obtain ⟨frame, s₁, hframe, hrun⟩ := bind_eq_ok hrun
  cases hframe
  cases hloops : s.frame.loops with
  | nil =>
    simp only [hloops] at hrun
    cases hrun
  | cons inner loops =>
    simp only [hloops] at hrun
    -- the versions at a reachable `break` are noted before the block ends
    have hquiet {s₁ : State} (hnoted : Quiet s s₁)
        (hend : endUnreachable (.jump inner.exit) s₁ = .ok (u, s')) :
        Same s s' ∧ ∀ reserved heads,
          Goes s ⟨reserved, heads, [], none⟩ s' ⟨reserved, heads, [], none⟩ := by
      obtain rfl := endUnreachable_run hend
      refine ⟨(hnoted.same.trans (same_nextBlock _ _)).trans (quiet_unreachable _).same, ?_⟩
      intro reserved heads saved home hsound
      have hexit : inner.exit ∈ reserved := by
        refine hsound.current.exits _ ?_
        simp [hloops]
      have hnext : Goes s₁ ⟨reserved, heads, [], none⟩ (s₁.nextBlock (.jump inner.exit))
          ⟨reserved, heads, [], none⟩ := by
        refine goes_nextBlock (hnoted.inHeader.trans hheader) (fun t ht => ?_) heads
        exact .inr (List.mem_singleton.1 ht ▸ hexit)
      exact (((Goes.of_quiet hnoted _).trans hnext).trans
        (.of_quiet (quiet_unreachable _) _)) saved home hsound
    by_cases hreachable : s.frame.isReachable = true
    · simp only [hreachable, if_true] at hrun
      obtain ⟨u', s₁, hnote, hend⟩ := bind_eq_ok hrun
      cases hnote
      refine hquiet ?_ hend
      exact { Quiet.refl s with exits := by simp [hloops] }
    · simp only [hreachable] at hrun
      exact hquiet (.refl s) hrun

/-! ## Loops -/

theorem Moves.loopOver {test : Lower Place} {body : Lower Unit} (htest : Keeps test)
    (hbody : Moves body) : Moves (loopOver test body) := by
  intro s u s' hrun hheader
  unfold Lowering.loopOver at hrun
  obtain ⟨testBlock, s₁, hnew, hrun⟩ := bind_eq_ok hrun
  rw [newBlock_run] at hnew
  cases hnew
  obtain ⟨bodyBlock, s₁, hnew, hrun⟩ := bind_eq_ok hrun
  rw [newBlock_run] at hnew
  cases hnew
  obtain ⟨exit, s₁, hnew, hrun⟩ := bind_eq_ok hrun
  rw [newBlock_run] at hnew
  cases hnew
  obtain ⟨u₁, s₁, hend, hrun⟩ := bind_eq_ok hrun
  rw [endBlock_run] at hend
  cases hend
  obtain ⟨frame, s₁, hframe, hrun⟩ := bind_eq_ok hrun
  cases hframe
  obtain ⟨t, s₁, hrunTest, hrun⟩ := bind_eq_ok hrun
  obtain ⟨u₂, s₂, hend, hrun⟩ := bind_eq_ok hrun
  rw [endBlock_run] at hend
  cases hend
  obtain ⟨u₃, s₂, hpush, hrun⟩ := bind_eq_ok hrun
  cases hpush
  obtain ⟨u₄, s₂, hrunBody, hrun⟩ := bind_eq_ok hrun
  obtain ⟨frame, s₃, hframe, hrun⟩ := bind_eq_ok hrun
  cases hframe
  obtain ⟨u₅, s₃, hend, hrun⟩ := bind_eq_ok hrun
  rw [endBlock_run] at hend
  cases hend
  obtain ⟨frame, s₃, hframe, hrun⟩ := bind_eq_ok hrun
  cases hframe
  obtain ⟨hsame₁, hblock₁, hgoes₁⟩ := htest _ _ _ hrunTest
  have hheader₁ : s₁.frame.inHeader = false := hsame₁.inHeader.trans hheader
  obtain ⟨hsame₂, hgoes₂⟩ := hbody _ _ _ hrunBody hheader₁
  have hheader₂ : s₂.frame.inHeader = false := hsame₂.inHeader.trans hheader₁
  have hexits : s₂.frame.loops.map (·.exit) =
      s.env.newBlock.2.newBlock.2.nextBlock :: s.frame.loops.map (·.exit) :=
    hsame₂.exits.trans (congrArg _ hsame₁.exits)
  cases hloops : s₂.frame.loops with
  | nil =>
    rw [hloops] at hexits
    cases hexits
  | cons inner loops =>
    rw [hloops, List.map_cons, List.cons.injEq] at hexits
    obtain ⟨hexit, hexits⟩ := hexits
    have hloops' : (s₂.frame.endBlock (.jump s.env.nextBlock)
        s.env.newBlock.2.newBlock.2.nextBlock).loops = inner :: loops := hloops
    simp only [hloops'] at hrun
    obtain ⟨u₆, s₃, hpop, hrun⟩ := bind_eq_ok hrun
    cases hpop
    cases hrun
    refine ⟨⟨hsame₂.function.trans hsame₁.function, hsame₂.entry.trans hsame₁.entry, hheader₂.trans
      hheader.symm, hexits⟩, fun reserved heads saved home hsound => ?_⟩
    set testBlock := s.env.nextBlock
    set bodyBlock := s.env.newBlock.2.nextBlock
    set exit := s.env.newBlock.2.newBlock.2.nextBlock
    have hnew {b : BlockId} (hb : testBlock.index ≤ b.index) :
        b ∉ s.frame.loops.map (·.exit) := hsound.not_mem_exits hb
    have hbody₀ : bodyBlock ∉ s.frame.loops.map (·.exit) := hnew (Nat.le_succ _)
    have hexit₀ : exit ∉ s.frame.loops.map (·.exit) := hnew (Nat.le_add_right _ 2)
    have hexits₁ : s₁.frame.loops.map (·.exit) = s.frame.loops.map (·.exit) := hsame₁.exits
    have htest₁ : s₁.frame.block = testBlock := hblock₁
    have hentry₁ : s₁.frame.function.entry.index < testBlock.index := by
      have hsame : s₁.frame.function.entry = s.frame.function.entry := hsame₁.entry
      rw [hsame]
      exact hsound.index_lt.1
    have hset := ((goes_newBlock s reserved heads).trans (goes_newBlock _ _ heads)).trans
      (goes_newBlock _ _ heads)
    have hperm : (exit :: bodyBlock :: testBlock :: reserved).Perm
        (testBlock :: exit :: bodyBlock :: reserved) :=
      ((List.Perm.swap ..).cons exit).trans (.swap ..)
    have hjump := goes_endBlock (s := { s with env := s.env.newBlock.2.newBlock.2.newBlock.2 }) heads
      hheader hperm (hnew (Nat.le_refl _)) (t := .jump testBlock) (by simp [Terminal.mentions])
      (hsound.head_lt (Nat.le_refl _))
    obtain ⟨home₀, hsteps₀⟩ := (hset.trans hjump) saved home hsound
    obtain ⟨home₁, hsteps₁⟩ := hgoes₁ _ _ saved home₀ (hsound.steps hsteps₀)
    -- the test stays in its block, so that no edge leads past it when it ends
    have hblocks₁ : s₁.frame.function.blocks = s.frame.function.blocks.insert s.frame.block
        ⟨s.frame.filled.reverse, some (.jump testBlock)⟩ :=
      (hsound.steps hsteps₀).blocks_eq hsteps₁ hsame₁.function hblock₁
    have hedges₁ (b : BlockId) (block : Block) (hb : s₁.frame.function.blocks.get? b = some block)
        (t : BlockId) (ht : t ∈ block.successors) : t.index ≤ testBlock.index := by
      rw [hblocks₁, Table.get?_insert] at hb
      split at hb
      · cases hb
        rw [List.mem_singleton.1 ht]
      · exact Nat.le_of_lt (hsound.target_lt hb ht)
    have hopen : Goes s₁ ⟨exit :: bodyBlock :: reserved, heads, [], none⟩
        { s₁ with frame := { s₁.frame.endBlock (.branch t bodyBlock exit exit) bodyBlock with
          loops := ⟨exit, []⟩ :: s₁.frame.loops } } ⟨exit :: reserved, testBlock :: heads, [], none⟩ := by
      rw [← htest₁] at hentry₁ hedges₁ ⊢
      refine .of_step fun _ home _ => ⟨home, .openLoop hheader₁ hentry₁ (.swap ..)
        (by rwa [hexits₁]) List.mem_cons_self (by rwa [hexits₁]) ?_ hedges₁⟩
      rw [htest₁]
      exact Nat.lt_succ_self _
    have hclose : Goes s₂ ⟨exit :: reserved, testBlock :: heads, [], none⟩
        { s₂ with frame := { s₂.frame.endBlock (.jump testBlock) exit with loops } }
        ⟨reserved, heads, [], none⟩ := by
      rw [← hexit]
      refine .of_step fun _ home _ => ⟨home, .closeLoop hheader₂ hloops (.refl _) ?_⟩
      rw [hexit]
      exact hsound.head_lt (Nat.le_add_right _ 2)
    refine (((((hset.trans hjump).trans (hgoes₁ _ _)).trans hopen).trans (hgoes₂ _ _)).trans
      hclose).trans (.of_quiet ?_ _) saved home hsound
    exact { Quiet.refl _ with }

/-! ## Branches -/

theorem isQuiet_resume (path : Path) : IsQuiet (resume path) := by
  intro s u s' hrun
  cases hrun
  exact { Quiet.refl s with }

/-- The end of all arms of a branch. -/
theorem goes_join {s : State} (join : BlockId) (hheader : s.frame.inHeader = false)
    (hjoin : join ∉ s.frame.loops.map (·.exit)) (reserved : List BlockId) {heads : List BlockId}
    (hheads : ∀ h ∈ heads, h.index < join.index) :
    Goes s ⟨join :: reserved, heads, [], none⟩ { s with frame := s.frame.endBlock (.jump join) join }
      ⟨reserved, heads, [], none⟩ :=
  goes_endBlock heads hheader (.refl _) hjoin (by simp [Terminal.mentions]) hheads

theorem Moves.branch {test : Lower Place} {consequent : Lower Unit} (htest : Keeps test)
    (hconsequent : Moves consequent) (merge : Frame → Frame → Path) : Moves (do
      let t ← test
      let c ← newBlock
      let join ← newBlock
      endBlock (.branch t c join join) c
      let base ← getFrame
      consequent
      let first ← getFrame
      endBlock (.jump join) join
      resume (merge base first)) := by
  refine htest.moves.bind fun t => ?_
  intro s u s' hrun hheader
  obtain ⟨c, s₁, hnew, hrun⟩ := bind_eq_ok hrun
  rw [newBlock_run] at hnew
  cases hnew
  obtain ⟨join, s₁, hnew, hrun⟩ := bind_eq_ok hrun
  rw [newBlock_run] at hnew
  cases hnew
  obtain ⟨u₁, s₁, hend, hrun⟩ := bind_eq_ok hrun
  rw [endBlock_run] at hend
  cases hend
  obtain ⟨base, s₁, hbase, hrun⟩ := bind_eq_ok hrun
  cases hbase
  obtain ⟨u₂, s₁, harm, hrun⟩ := bind_eq_ok hrun
  obtain ⟨first, s₂, hfirst, hrun⟩ := bind_eq_ok hrun
  cases hfirst
  obtain ⟨u₃, s₂, hend, hrun⟩ := bind_eq_ok hrun
  rw [endBlock_run] at hend
  cases hend
  have hresume := isQuiet_resume _ _ _ _ hrun
  obtain ⟨hsame, hgoes⟩ := hconsequent _ _ _ harm hheader
  have hheader₁ : s₁.frame.inHeader = false := hsame.inHeader.trans hheader
  have hexits₁ : s₁.frame.loops.map (·.exit) = s.frame.loops.map (·.exit) := hsame.exits
  have hsame₁ : Same s s₁ := ⟨hsame.function, hsame.entry, hsame.inHeader, hsame.exits⟩
  refine ⟨(hsame₁.trans (same_endBlock ..)).trans hresume.same,
    fun reserved heads saved home hsound => ?_⟩
  set c := s.env.nextBlock
  set join := s.env.newBlock.2.nextBlock
  have hset := (goes_newBlock s reserved heads).trans (goes_newBlock _ _ heads)
  have hbranch := goes_endBlock (s := { s with env := s.env.newBlock.2.newBlock.2 }) heads hheader
    (List.Perm.swap c join reserved) (hsound.not_mem_exits (Nat.le_refl _))
    (t := .branch t c join join) (by simp [Terminal.mentions]) (hsound.head_lt (Nat.le_refl _))
  have hjoin := goes_join join hheader₁
    (by rw [hexits₁]; exact hsound.not_mem_exits (Nat.le_succ _)) reserved
    (hsound.head_lt (Nat.le_succ _))
  exact ((((hset.trans hbranch).trans (hgoes _ _)).trans hjoin).trans (.of_quiet hresume _))
    saved home hsound

theorem Moves.branchElse {test : Lower Place} {consequent alternate : Lower Unit}
    (htest : Keeps test) (hconsequent : Moves consequent) (halternate : Moves alternate)
    (merge : Frame → Frame → Frame → Path) : Moves (do
      let t ← test
      let c ← newBlock
      let join ← newBlock
      let a ← newBlock
      endBlock (.branch t c a join) c
      let base ← getFrame
      consequent
      let first ← getFrame
      endBlock (.jump join) a
      resume base.path
      alternate
      let second ← getFrame
      endBlock (.jump join) join
      resume (merge base first second)) := by
  refine htest.moves.bind fun t => ?_
  intro s u s' hrun hheader
  obtain ⟨c, s₁, hnew, hrun⟩ := bind_eq_ok hrun
  rw [newBlock_run] at hnew
  cases hnew
  obtain ⟨join, s₁, hnew, hrun⟩ := bind_eq_ok hrun
  rw [newBlock_run] at hnew
  cases hnew
  obtain ⟨a, s₁, hnew, hrun⟩ := bind_eq_ok hrun
  rw [newBlock_run] at hnew
  cases hnew
  obtain ⟨u₁, s₁, hend, hrun⟩ := bind_eq_ok hrun
  rw [endBlock_run] at hend
  cases hend
  obtain ⟨base, s₁, hbase, hrun⟩ := bind_eq_ok hrun
  cases hbase
  obtain ⟨u₂, s₁, harm, hrun⟩ := bind_eq_ok hrun
  obtain ⟨first, s₂, hfirst, hrun⟩ := bind_eq_ok hrun
  cases hfirst
  obtain ⟨u₃, s₂, hend, hrun⟩ := bind_eq_ok hrun
  rw [endBlock_run] at hend
  cases hend
  obtain ⟨u₄, s₂, hrunBack, hrun⟩ := bind_eq_ok hrun
  have hback := isQuiet_resume _ _ _ _ hrunBack
  obtain ⟨u₅, s₃, harm', hrun⟩ := bind_eq_ok hrun
  obtain ⟨second, s₄, hsecond, hrun⟩ := bind_eq_ok hrun
  cases hsecond
  obtain ⟨u₆, s₄, hend, hrun⟩ := bind_eq_ok hrun
  rw [endBlock_run] at hend
  cases hend
  have hresume := isQuiet_resume _ _ _ _ hrun
  obtain ⟨hsame, hgoes⟩ := hconsequent _ _ _ harm hheader
  have hsame₁ : Same s s₁ := ⟨hsame.function, hsame.entry, hsame.inHeader, hsame.exits⟩
  have hheader₁ : s₁.frame.inHeader = false := hsame₁.inHeader.trans hheader
  have hsame₂ : Same s s₂ := (hsame₁.trans (same_endBlock ..)).trans hback.same
  obtain ⟨hsame', hgoes'⟩ := halternate _ _ _ harm' (hsame₂.inHeader.trans hheader)
  have hsame₃ := hsame₂.trans hsame'
  have hheader₃ : s₃.frame.inHeader = false := hsame₃.inHeader.trans hheader
  refine ⟨(hsame₃.trans (same_endBlock ..)).trans hresume.same,
    fun reserved heads saved home hsound => ?_⟩
  set c := s.env.nextBlock
  set join := s.env.newBlock.2.nextBlock
  set a := s.env.newBlock.2.newBlock.2.nextBlock
  have hset := ((goes_newBlock s reserved heads).trans (goes_newBlock _ _ heads)).trans
    (goes_newBlock _ _ heads)
  have hperm : (a :: join :: c :: reserved).Perm (c :: a :: join :: reserved) :=
    ((List.Perm.swap ..).cons a).trans (.swap ..)
  have hbranch := goes_endBlock (s := { s with env := s.env.newBlock.2.newBlock.2.newBlock.2 }) heads
    hheader hperm (hsound.not_mem_exits (Nat.le_refl _)) (t := .branch t c a join)
    (by simp [Terminal.mentions]) (hsound.head_lt (Nat.le_refl _))
  have hother : Goes s₁ ⟨a :: join :: reserved, heads, [], none⟩
      { s₁ with frame := s₁.frame.endBlock (.jump join) a } ⟨join :: reserved, heads, [], none⟩ := by
    refine goes_endBlock heads hheader₁ (.refl _) ?_ (by simp [Terminal.mentions])
      (hsound.head_lt (Nat.le_add_right _ 2))
    rw [hsame₁.exits]
    exact hsound.not_mem_exits (Nat.le_add_right _ 2)
  have hjoin := goes_join join hheader₃
    (by rw [hsame₃.exits]; exact hsound.not_mem_exits (Nat.le_succ _)) reserved
    (hsound.head_lt (Nat.le_succ _))
  exact (((((((hset.trans hbranch).trans (hgoes _ _)).trans hother).trans (.of_quiet hback _)).trans
    (hgoes' _ _)).trans hjoin).trans (.of_quiet hresume _)) saved home hsound

/-! ## Functions -/

/-- Runs of an action fill a function from its start. -/
def Fills (fill : Lower Unit) : Prop :=
  ∀ s u s', fill s = .ok (u, s') → s.frame.block = s.frame.function.entry → s.frame.filled = [] →
    s.frame.inHeader = false → s'.frame.function.id = s.frame.function.id ∧ Goes s {} s' {}

theorem Fills.inScope {fill : Lower Unit} (h : Fills fill) (kind : ScopeKind) :
    Fills (inScope kind fill) := by
  intro s u s' hrun hblock hfilled hheader
  obtain ⟨u₁, s₁, henter, hrun⟩ := bind_eq_ok hrun
  obtain ⟨u₂, s₂, hfill, hrun⟩ := bind_eq_ok hrun
  obtain ⟨u₃, s₃, hleave, hrun⟩ := bind_eq_ok hrun
  obtain ⟨-, rfl⟩ := pure_run hrun
  have henter := isQuiet_enterScope kind _ _ _ henter
  have hleave := isQuiet_leaveScope _ _ _ hleave
  obtain ⟨hid, hgoes⟩ := h _ _ _ hfill
    (henter.block.trans (hblock.trans henter.same.entry.symm)) (henter.filled.trans hfilled)
    (henter.inHeader.trans hheader)
  refine ⟨hleave.same.function.trans (hid.trans henter.same.function), ?_⟩
  exact ((Goes.of_quiet henter _).trans hgoes).trans (.of_quiet hleave _)

/-- A nested function leaves everything around it as it was. -/
theorem keepsHoisted_inFunction (name : Option String) (kind : FunctionKind) (origin : Option Nat)
    {fill : Lower Unit} (h : Fills fill) :
    KeepsHoisted (onEnv (·.newFunc) >>= fun id => inFunction id name kind origin fill) := by
  intro s a s' hrun
  obtain ⟨id, s₁, hnew, hrun⟩ := bind_eq_ok hrun
  cases hnew
  unfold inFunction at hrun
  obtain ⟨entry, s₁, hnew, hrun⟩ := bind_eq_ok hrun
  rw [newBlock_run] at hnew
  cases hnew
  obtain ⟨around, s₁, haround, hrun⟩ := bind_eq_ok hrun
  cases haround
  obtain ⟨u₁, s₁, henter, hrun⟩ := bind_eq_ok hrun
  obtain rfl : s.enter name kind origin ((s.frame.function.id, s.frame.versions) :: s.outer) = s₁ :=
    (Prod.mk.inj (Except.ok.inj henter)).2
  obtain ⟨u₂, s₂, hfill, hrun⟩ := bind_eq_ok hrun
  obtain ⟨hid, hgoes⟩ := h.inScope .function _ _ _ hfill rfl rfl rfl
  obtain ⟨u₃, s₃, hleave, hrun⟩ := bind_eq_ok hrun
  obtain ⟨-, rfl⟩ := pure_run hrun
  have hid : s₂.frame.function.id = s.env.nextFunc := hid
  obtain rfl : s₂.leave s.frame s₂.outer.tail = s' := by
    rw [State.leave, hid]
    exact (Prod.mk.inj (Except.ok.inj hleave)).2
  refine ⟨⟨rfl, rfl, rfl, rfl⟩, rfl, fun reserved heads hoisted saved home hsound => ?_⟩
  have henter : Step ⟨s, ⟨reserved, heads, hoisted, none⟩, saved, home⟩ _ :=
    .enter name kind origin ((s.frame.function.id, s.frame.versions) :: s.outer)
  obtain ⟨home', hsteps⟩ := hgoes _ _ (hsound.step henter)
  exact ⟨home', ((Relation.ReflTransGen.single henter).trans hsteps).tail (.leave _)⟩

/-- Runs of an action build some of the functions that were kept for later. -/
def Builds (functions : List (DeclId × Place)) (act : Lower (List (DeclId × Place))) : Prop :=
  ∀ s rest s', act s = .ok (rest, s') → Same s s' ∧ s'.frame.block = s.frame.block ∧
    ∀ reserved heads, Goes s ⟨reserved, heads, functions, none⟩ s' ⟨reserved, heads, rest, none⟩

theorem builds_pure (functions : List (DeclId × Place)) : Builds functions (pure functions) := by
  intro s rest s' hrun
  obtain ⟨rfl, rfl⟩ := pure_run hrun
  exact ⟨.refl _, rfl, fun _ _ => .refl _ _⟩

/-- A function is built and bound to the version that was kept for it. -/
theorem builds_function {build : Lower FuncId} (h : KeepsHoisted build) (d : DeclId) (place : Place)
    (functions : List (DeclId × Place)) (origin : Option Nat) :
    Builds ((d, place) :: functions) (do
      let id ← build
      modify fun s => { s with env := s.env.bindFunction d id }
      let _ ← put place (.functionDeclaration id) origin
      pure functions) := by
  intro s rest s' hrun
  obtain ⟨id, s₁, hbuild, hrun⟩ := bind_eq_ok hrun
  obtain ⟨u, s₂, hbind, hrun⟩ := bind_eq_ok hrun
  obtain ⟨i, s₃, hput, hrun⟩ := bind_eq_ok hrun
  obtain rfl := put_run hput
  obtain ⟨rfl, rfl⟩ := pure_run hrun
  obtain ⟨hsame, hblock, hgoes⟩ := h s id s₁ hbuild
  have hquiet : Quiet s₁ s₂ := by
    cases hbind
    exact { Quiet.refl s₁ with env := ⟨_, _, rfl, fun _ hd => hd⟩ }
  obtain ⟨hsame', hblock'⟩ := same_put place (.functionDeclaration id) origin s₂
  refine ⟨(hsame.trans hquiet.same).trans hsame', hblock'.trans (hquiet.block.trans hblock), ?_⟩
  intro reserved heads
  refine ((hgoes reserved heads _).trans (.of_quiet hquiet _)).trans fun saved home _ => ⟨home, ?_⟩
  exact (Relation.ReflTransGen.single .unhoist).tail (.bind _ _ rfl)

/-- Runs of an action build all functions that were kept for later. -/
def BuildsAll (functions : List (DeclId × Place)) (act : Lower Unit) : Prop :=
  ∀ s u s', act s = .ok (u, s') → Same s s' ∧ s'.frame.block = s.frame.block ∧
    ∀ reserved heads, Goes s ⟨reserved, heads, functions, none⟩ s' ⟨reserved, heads, [], none⟩

theorem buildsAll_pure (functions : List (DeclId × Place)) : BuildsAll functions (pure ()) := by
  intro s u s' hrun
  obtain ⟨-, rfl⟩ := pure_run hrun
  exact ⟨.refl _, rfl, fun _ _ => .of_step fun _ home _ => ⟨home, .unkeep⟩⟩

theorem Builds.all {functions : List (DeclId × Place)} {act : Lower (List (DeclId × Place))}
    {next : List (DeclId × Place) → Lower Unit} (h : Builds functions act)
    (h' : ∀ rest, BuildsAll rest (next rest)) : BuildsAll functions (act >>= next) := by
  intro s u s'' hrun
  obtain ⟨rest, s', hact, hnext⟩ := bind_eq_ok hrun
  obtain ⟨hsame, hblock, hgoes⟩ := h s rest s' hact
  obtain ⟨hsame', hblock', hgoes'⟩ := h' rest s' u s'' hnext
  exact ⟨hsame.trans hsame', hblock'.trans hblock, fun reserved heads =>
    (hgoes reserved heads).trans (hgoes' reserved heads)⟩

/-- A statement list declares its names and builds its functions first. -/
theorem keeps_declareLexical (bindings : List LexicalBinding)
    {next : List (DeclId × Place) → Lower Unit} (h : ∀ functions, BuildsAll functions (next functions)) :
    Keeps (declareLexical bindings >>= next) := by
  intro s u s'' hrun
  obtain ⟨functions, s', hdeclare, hnext⟩ := bind_eq_ok hrun
  obtain ⟨hsame, hblock, hgoes⟩ := goes_declareLexical bindings s functions s' hdeclare
  obtain ⟨hsame', hblock', hgoes'⟩ := h functions s' u s'' hnext
  exact ⟨hsame.trans hsame', hblock'.trans hblock, fun reserved heads =>
    (hgoes reserved heads []).trans (hgoes' reserved heads)⟩

/-- What stands before the parameters of a function writes nothing. -/
def Names (act : Lower Unit) : Prop :=
  ∀ s u s', act s = .ok (u, s') → Same s s' ∧ s'.frame.block = s.frame.block ∧
    s'.frame.filled = s.frame.filled ∧ Goes s {} s' {}

theorem names_pure : Names (pure ()) := by
  intro s u s' hrun
  obtain ⟨-, rfl⟩ := pure_run hrun
  exact ⟨.refl _, rfl, rfl, .refl _ _⟩

/-- A function expression can name itself. -/
theorem names_self (name : String) : Names (do
    let d ← newDeclaration name .constKind
    onScopes (Scopes.bind? name d)
    let _ ← newVersion d
    pure ()) := by
  intro s u s' hrun
  obtain ⟨scopes, hscopes, hrun⟩ := introduce_run hrun
  obtain ⟨-, rfl⟩ := pure_run hrun
  obtain ⟨hsame, hblock⟩ := same_introduce s name .constKind scopes
  refine ⟨hsame, hblock, ?_, fun saved home hsound => ⟨home, ?_⟩⟩
  · obtain ⟨captured, versions, heq, -⟩ :=
      State.withVersion_eq { s.declare name .constKind with scopes } s.nextDeclaration
    rw [State.introduce, heq]
    rfl
  · obtain ⟨hsteps, honly⟩ := steps_introduce hsound name .constKind
      (Scopes.bindsOnly_bind? hscopes)
    exact hsteps.tail (.drop honly)

theorem fills_function {names body : Lower Unit} {params : Lower (List Place)} (hnames : Names names)
    (hparams : Keeps params) (hbody : Moves body) : Fills (do
      names
      onFrame ({ · with inHeader := true })
      let places ← params
      onFrame fun frame =>
        { frame with inHeader := false, function := { frame.function with params := places } }
      body) := by
  intro s u s' hrun hblock hfilled hheader
  obtain ⟨u₁, s₁, hrunNames, hrun⟩ := bind_eq_ok hrun
  obtain ⟨hsame₁, hblock₁, hfilled₁, hgoes₁⟩ := hnames _ _ _ hrunNames
  obtain ⟨u₂, s₂, hopen, hrun⟩ := bind_eq_ok hrun
  cases hopen
  obtain ⟨places, s₂, hrunParams, hrun⟩ := bind_eq_ok hrun
  obtain ⟨hsame₂, -, hgoes₂⟩ := hparams _ _ _ hrunParams
  obtain ⟨u₃, s₃, hclose, hrun⟩ := bind_eq_ok hrun
  cases hclose
  obtain ⟨hsame₃, hgoes₃⟩ := hbody _ _ _ hrun rfl
  refine ⟨hsame₃.function.trans (hsame₂.function.trans hsame₁.function), ?_⟩
  have hopen : Goes s₁ {} { s₁ with frame := { s₁.frame with inHeader := true } } {} := by
    refine .of_step fun _ home _ => ⟨home, .openHeader ?_ (hfilled₁.trans hfilled)⟩
    exact hblock₁.trans (hblock.trans hsame₁.entry.symm)
  have hclose : Goes s₂ {} { s₂ with frame := { s₂.frame with
      inHeader := false, function := { s₂.frame.function with params := places } } } {} :=
    .of_step fun _ home _ => ⟨home, .closeHeader places⟩
  exact (((hgoes₁.trans hopen).trans (hgoes₂ [] [])).trans hclose).trans (hgoes₃ [] [])

end Whittle.Lowering
