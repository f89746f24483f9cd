import Mathlib.Tactic.Common
import Whittle.Proofs.Emit.Functions
import Whittle.Proofs.Emit.OrderedInstructions

/-!
# Blocks in order

The code of a function is the effects of its blocks, one block behind the other as they were emitted, and
those of a block in the order of its instructions.

Main statement: `Ir.Module.emitWith_inOrder`.
-/

namespace Whittle.Emit

open Ir Syntax Ledger

namespace Watch

variable {ctx : Context} {W : Watch ctx} {st st' st'' : State} {ids ids' : List BlockId}

/-- The effects of blocks, one behind the other. -/
def blockEffects (W : Watch ctx) (ids : List BlockId) : List Effect :=
  ids.flatMap fun id => W.of (((ctx.function.blocks.get? id).elim [] (·.instructions)).flatMap
    (effectsOf W.written ctx.env))

/-- No effects wait. -/
structure Calm (W : Watch ctx) (st : State) : Prop where
  sound : W.Sound st
  load : W.load st = []

theorem Calm.trail_eq (h : W.Calm st) : W.trail st = W.written? st := by
  rw [trail, h.load]
  exact List.append_nil _

theorem Calm.stacked (h : W.Calm st) : W.Stacked [] st :=
  ⟨h.sound, List.nodup_nil, by rw [h.load]; exact List.Sublist.refl _⟩

/-- Between two states the given blocks were emitted, in this order. -/
structure Wrote (W : Watch ctx) (ids : List BlockId) (st st' : State) : Prop where
  calm : W.Calm st'
  nodup : ids.Nodup
  fresh : ∀ id ∈ ids, st.emitted.contains id = false
  emitted : ∀ id, st'.emitted.contains id = (st.emitted.contains id || ids.contains id)

theorem Wrote.nil (h : W.Calm st') (hemitted : st'.emitted = st.emitted) : W.Wrote [] st st' :=
  ⟨h, List.nodup_nil, nofun, fun id => by simp [hemitted]⟩

theorem Wrote.trans (h : W.Wrote ids st st') (h' : W.Wrote ids' st' st'') :
    W.Wrote (ids ++ ids') st st'' where
  calm := h'.calm
  nodup := by
    refine List.nodup_append.2 ⟨h.nodup, h'.nodup, fun id hid id' hid' heq => ?_⟩
    have hfresh := h'.fresh id' hid'
    rw [h.emitted, ← heq, List.contains_iff_mem.2 hid, Bool.or_true] at hfresh
    cases hfresh
  fresh id hid := by
    rcases List.mem_append.1 hid with hid | hid
    · exact h.fresh id hid
    · have hfresh := h'.fresh id hid
      rw [h.emitted] at hfresh
      exact (Bool.or_eq_false_iff.1 hfresh).1
  emitted id := by
    rw [h'.emitted, h.emitted, Bool.or_assoc]
    congr 1
    simp

/-- Which blocks were emitted depends on the emitted ones only. -/
theorem Wrote.of_emitted (h : W.Wrote ids st' st'') (hemitted : st'.emitted = st.emitted) :
    W.Wrote ids st st'' :=
  ⟨h.calm, h.nodup, fun id hid => hemitted ▸ h.fresh id hid, fun id => by rw [h.emitted, hemitted]⟩

theorem blockEffects_append (ids ids' : List BlockId) :
    W.blockEffects (ids ++ ids') = W.blockEffects ids ++ W.blockEffects ids' :=
  List.flatMap_append

/-! ## Steps that emit blocks -/

variable {α β : Type} {act : Step α} {next : α → Step β} {hand : List Effect} {held : α → List Effect}
  {held' : β → List Effect}

/-- A step emits blocks one behind the other.  What is at hand comes first; of all these effects its
result holds the last part outside of the state. -/
def Writes (W : Watch ctx) (act : Step α) (hand : List Effect) (held : α → List Effect) : Prop :=
  ∀ st a st', W.Calm st → act ctx st = .ok (a, st') →
    ∃ ids, W.Wrote ids st st' ∧ W.written? st' ++ held a = W.written? st ++ hand ++ W.blockEffects ids

namespace Writes

theorem bind (h : W.Writes act hand held) (h' : ∀ a, W.Writes (next a) (held a) held') :
    W.Writes (act >>= next) hand held' := by
  intro st b st'' hst hrun
  obtain ⟨a, st', hact, hnext⟩ := step_bind_eq_ok hrun
  obtain ⟨ids, hwrote, heffects⟩ := h st a st' hst hact
  obtain ⟨ids', hwrote', heffects'⟩ := h' a st' b st'' hwrote.calm hnext
  refine ⟨ids ++ ids', hwrote.trans hwrote', ?_⟩
  rw [heffects', heffects, blockEffects_append, List.append_assoc _ (W.blockEffects ids)]

theorem pure {a : α} (h : held a = hand) : W.Writes (Pure.pure a) hand held := by
  intro st b st' hst hrun
  cases hrun
  exact ⟨[], .nil hst rfl, by simp [h, blockEffects]⟩

theorem throw (e : Error) : W.Writes (throw e : Step α) hand held := by
  intro st b st' _ hrun
  cases hrun

theorem push {s : Stmt} (h : W.of s.effects = hand) : W.Writes (push s) hand fun _ => [] := by
  intro st u st' hst hrun
  obtain ⟨rfl, rfl⟩ := Prod.mk.inj (Except.ok.inj ((push_run s st).symm.trans hrun))
  refine ⟨[], .nil ⟨hst.sound.push s, hst.load⟩ rfl, ?_⟩
  rw [written?_push, h]
  simp [blockEffects]

/-- A step that changes nothing that the effects depend on comes first. -/
theorem of_looks {P : α → Prop} (hlook : W.Looks act P) (h : ∀ a, P a → W.Writes (next a) hand held') :
    W.Writes (act >>= next) hand held' := by
  intro st b st'' hst hrun
  obtain ⟨a, st', hact, hnext⟩ := step_bind_eq_ok hrun
  obtain ⟨hst', hemitted, hout, hvalues, ha⟩ := hlook st a st' hst.sound hact
  have hload : W.load st' = [] := by rw [load, hvalues, ← load, hst.load]
  have hwritten : W.written? st' = W.written? st := by rw [written?, hout, written?]
  obtain ⟨ids, hwrote, heffects⟩ := h a ha st' b st'' ⟨hst', hload⟩ hnext
  rw [hwritten] at heffects
  exact ⟨ids, hwrote.of_emitted hemitted, heffects⟩

/-- Where no effects wait, settling what waits changes nothing. -/
theorem of_settled {next : Unit → Step β} (h : ∀ u, W.Writes (next u) hand held') :
    W.Writes (settleEverything >>= next) hand held' := by
  intro st b st'' hst hrun
  obtain ⟨u, st', hsettle, hnext⟩ := step_bind_eq_ok hrun
  obtain ⟨hst', hemitted, hload, hwritten⟩ := settle_run (fun _ _ => rfl) hst.sound hsettle
  obtain ⟨ids, hwrote, heffects⟩ := h u st' b st'' ⟨hst', hload⟩ hnext
  rw [hwritten, hst.trail_eq] at heffects
  exact ⟨ids, hwrote.of_emitted hemitted, heffects⟩

/-- Statements of a list of their own come behind what is at hand outside. -/
theorem inList {inner : List Effect} (total : α → List Effect → List Effect)
    (h : ∀ st a st', W.Calm st → W.written? st = [] → act ctx st = .ok (a, st') →
      ∃ ids, W.Wrote ids st st' ∧ total a (W.written? st') = inner ++ W.blockEffects ids) :
    W.Writes (inList act) (hand ++ inner) fun r => hand ++ total r.1 (W.of (Stmt.effectsAll r.2)) := by
  intro st r st'' hst hrun
  obtain ⟨st₀, st₁, hget, hrun⟩ := step_bind_eq_ok hrun
  cases hget
  obtain ⟨u, st₁, hset, hrun⟩ := step_bind_eq_ok hrun
  cases hset
  obtain ⟨a, st', hact, hrun⟩ := step_bind_eq_ok hrun
  cases hrun
  have hinner : W.Calm { st with
      out := [], region := st.region ++ [st.lastRegion + 1], lastRegion := st.lastRegion + 1 } :=
    ⟨{ hst.sound with }, hst.load⟩
  obtain ⟨ids, hwrote, htotal⟩ := h _ a st' hinner rfl hact
  refine ⟨ids, ⟨⟨{ hwrote.calm.sound with }, hwrote.calm.load⟩, hwrote.nodup, hwrote.fresh,
    hwrote.emitted⟩, ?_⟩
  change W.written? st ++ (hand ++ total a (W.written? st')) = _
  rw [htotal]
  simp only [List.append_assoc]

end Writes

/-- What it means that in a block what waited last is read first. -/
theorem exists_stack {waits : CellId → Bool} {is : List Instr} {behind : List Place}
    (h : LastFirst waits is behind = true) : ∃ stack rest,
      is.foldlM (Instr.stack? waits) [] = some stack ∧
        taken? stack (behind.map (·.cell.id)) = some rest := by
  obtain ⟨rest, hrest⟩ := Option.isSome_iff_exists.1 h
  obtain ⟨stack, his, htaken⟩ := Option.bind_eq_some_iff.1 hrest
  exact ⟨stack, rest, his, htaken⟩

/-! ## Structured code -/

section Structured

variable {emitBlock : BlockId → Step Unit}

theorem looks_bordersLoop (block : BlockId) : W.Looks (bordersLoop block) Anything := by
  intro st b st' hst hrun
  obtain rfl := bordersLoop_run hrun
  exact ⟨hst, rfl, rfl, rfl, trivial⟩

theorem writes_goTo (hblock : ∀ id, W.Writes (emitBlock id) [] fun _ => []) (target : BlockId) :
    W.Writes (goTo emitBlock target) [] fun _ => [] := by
  refine .of_looks Looks.get fun st _ => ?_
  split
  · exact Writes.push rfl
  · refine .of_looks (looks_bordersLoop target) fun borders _ => ?_
    split
    · exact Writes.pure rfl
    · exact hblock target

/-- The statements of an arm. -/
theorem writes_arm (hblock : ∀ id, W.Writes (emitBlock id) [] fun _ => []) (target : BlockId)
    (hand : List Effect) : W.Writes (inList (goTo emitBlock target)) hand fun r =>
      hand ++ W.of (Stmt.effectsAll r.2) := by
  have harm : W.Writes (inList (goTo emitBlock target)) (hand ++ []) fun r =>
      hand ++ W.of (Stmt.effectsAll r.2) :=
    Writes.inList (fun _ written => written) fun st u st' hst hnone hrun => by
      obtain ⟨ids, hwrote, heffects⟩ := writes_goTo hblock target st u st' hst hrun
      exact ⟨ids, hwrote, by simpa [hnone] using heffects⟩
  rwa [List.append_nil] at harm

/-- A block without instructions may be left out. -/
theorem writes_leaveOut {id : BlockId}
    (hempty : (ctx.function.blocks.get? id).any (·.instructions.isEmpty) = true) :
    W.Writes (modify fun st => { st with emitted := KeySet.add st.emitted id } : Step Unit) []
      fun _ => [] := by
  intro st u st' hst hrun
  cases hrun
  have hcalm : W.Calm { st with emitted := KeySet.add st.emitted id } := ⟨{ hst.sound with }, hst.load⟩
  cases hid : st.emitted.contains id with
  | true =>
    refine ⟨[], ⟨hcalm, List.nodup_nil, nofun, fun id' => ?_⟩, ?_⟩
    · rw [KeySet.contains_add]
      by_cases heq : id' = id
      · simp [heq, hid]
      · simp [heq]
    · simp [blockEffects, written?]
  | false =>
    refine ⟨[id], ⟨hcalm, List.nodup_singleton _, by simpa using hid, fun id' => ?_⟩, ?_⟩
    · rw [KeySet.contains_add]
      by_cases heq : id' = id
      · simp [heq]
      · simp [heq]
    · have hnone : W.blockEffects [id] = [] := by
        cases hb : ctx.function.blocks.get? id with
        | none => simp [hb] at hempty
        | some b =>
          have hempty' : b.instructions = [] := by simpa [hb] using hempty
          simp [blockEffects, hb, hempty']
      rw [hnone]
      simp [written?]

/-- What comes behind a conditional. -/
theorem writes_emitBehind (hblock : ∀ id, W.Writes (emitBlock id) [] fun _ => []) (isOurs : Bool)
    (fallthrough : BlockId) : W.Writes (emitBehind emitBlock isOurs fallthrough) [] fun _ => [] := by
  refine .of_looks (looks_bordersLoop fallthrough) fun borders _ => ?_
  split
  · refine .of_looks Looks.read fun ctx' hctx => ?_
    subst hctx
    dsimp only
    split
    case isTrue h => exact writes_leaveOut (Bool.and_eq_true_iff.1 h).2
    case isFalse => exact writes_goTo hblock fallthrough
  · exact Writes.pure rfl

theorem effects_joinedStmt (test : Expr) (first : List Stmt) (second : Option (List Stmt)) :
    W.of (joinedStmt test first second).effects =
      W.trace test ++ W.of (Stmt.effectsAll first) ++ W.of (Stmt.effectsAll (second.getD [])) := by
  rw [joinedStmt.eq_def]
  split
  · simp [Stmt.effects, Stmt.effectsOpt, Stmt.effectsAll, negated, blockStmt, Expr.effects, trace]
  · cases second with
    | none => simp [Stmt.effects, Stmt.effectsOpt, Stmt.effectsAll, blockStmt, trace]
    | some second => simp [Stmt.effects, Stmt.effectsOpt, blockStmt, trace]

theorem writes_emitJoined (hblock : ∀ id, W.Writes (emitBlock id) [] fun _ => []) (isOurs : Bool)
    (test : Expr) (fallthrough : BlockId) (first : List Stmt) (second : Option (List Stmt)) :
    W.Writes (emitJoined emitBlock isOurs test fallthrough first second)
      (W.trace test ++ W.of (Stmt.effectsAll first) ++ W.of (Stmt.effectsAll (second.getD [])))
      fun _ => [] := by
  have hif : W.Writes
      (push (joinedStmt test first second) >>= fun _ => emitBehind emitBlock isOurs fallthrough)
      (W.trace test ++ W.of (Stmt.effectsAll first) ++ W.of (Stmt.effectsAll (second.getD [])))
      fun _ => [] :=
    (Writes.push (effects_joinedStmt test first second)).bind fun _ =>
      writes_emitBehind hblock isOurs fallthrough
  rw [emitJoined_eq]
  split
  · exact .of_looks (Looks.modify (fun _ h => { h with }) fun _ => ⟨rfl, rfl, rfl⟩) fun _ _ => hif
  · exact hif

theorem writes_emitIf (hblock : ∀ id, W.Writes (emitBlock id) [] fun _ => []) (test : Expr)
    (consequent alternate fallthrough : BlockId) :
    W.Writes (emitIf emitBlock test consequent alternate fallthrough) (W.trace test) fun _ => [] := by
  have hfirst : W.Writes
      (if consequent == fallthrough then pure []
        else (·.2) <$> inList (goTo emitBlock consequent)) (W.trace test)
      (fun first => W.trace test ++ W.of (Stmt.effectsAll first)) := by
    split
    · exact Writes.pure (List.append_nil _)
    · rw [map_eq_pure_bind]
      exact (writes_arm hblock consequent _).bind fun r => Writes.pure rfl
  have hsecond (first : List Stmt) : W.Writes
      (if alternate == fallthrough then pure none
        else (some ·.2) <$> inList (goTo emitBlock alternate))
      (W.trace test ++ W.of (Stmt.effectsAll first)) fun second =>
        W.trace test ++ W.of (Stmt.effectsAll first) ++ W.of (Stmt.effectsAll (second.getD [])) := by
    split
    · exact Writes.pure (List.append_nil _)
    · rw [map_eq_pure_bind]
      exact (writes_arm hblock alternate _).bind fun r => Writes.pure rfl
  rw [emitIf_eq]
  refine .of_looks Looks.get fun st _ =>
    .of_looks (Looks.modify (fun _ h => { h with }) fun _ => ⟨rfl, rfl, rfl⟩) fun _ _ => ?_
  exact hfirst.bind fun first => (hsecond first).bind fun second =>
    writes_emitJoined hblock _ test _ first second

/-- The effects of the instructions of a block. -/
theorem blockEffects_cons {id : BlockId} {b : Block} (hb : ctx.function.blocks.get? id = some b)
    (ids : List BlockId) : W.blockEffects (id :: ids) =
      W.of (b.instructions.flatMap (effectsOf W.written ctx.env)) ++ W.blockEffects ids := by
  rw [blockEffects, List.flatMap_cons, hb]
  rfl

/-- The test of a loop and its body: the header comes first. -/
theorem emitLoopBody_run (hblock : ∀ id, W.Writes (emitBlock id) [] fun _ => []) {header : Block}
    {test : Place} {consequent : BlockId} {stack rest : List CellId}
    (hheader : header.instructions.foldlM (Instr.stack? (readOnce ctx.counts)) [] = some stack)
    (htest : taken? stack [test.cell.id] = some rest) {t : Expr} (hst : W.Calm st)
    (hnone : W.written? st = [])
    (hrun : emitLoopBody emitBlock header test consequent ctx st = .ok (t, st')) :
    ∃ ids, W.Wrote ids st st' ∧ W.trace t ++ W.written? st' =
      W.of (header.instructions.flatMap (effectsOf W.written ctx.env)) ++ W.blockEffects ids := by
  obtain ⟨u₁, st₁, hinstrs, hrun⟩ := step_bind_eq_ok hrun
  obtain ⟨hst₁, hemitted₁, htrail₁⟩ := hst.stacked.emitInstrs hheader hinstrs
  obtain ⟨p, st₂, htake, hrun⟩ := step_bind_eq_ok hrun
  obtain ⟨u₂, st₃, hsettle, hrun⟩ := step_bind_eq_ok hrun
  obtain ⟨hst₃, hload₃, hemitted₃, htrail₃⟩ := hst₁.takeLast htest htake hsettle
  rw [htrail₁, hst.trail_eq, hnone, List.nil_append] at htrail₃
  have hwrote₃ : W.Wrote [] st st₃ := .nil ⟨hst₃, hload₃⟩ (hemitted₃.trans hemitted₁)
  obtain ⟨st₄, st₅, hget, hrun⟩ := step_bind_eq_ok hrun
  cases hget
  cases hout : st₃.out with
  | nil =>
    simp only [hout, List.isEmpty_nil, if_true] at hrun
    obtain ⟨u₃, st₄, hgo, hrun⟩ := step_bind_eq_ok hrun
    cases hrun
    obtain ⟨ids, hwrote, heffects⟩ := writes_goTo hblock consequent st₃ u₃ st' hwrote₃.calm hgo
    have hwritten₃ : W.written? st₃ = [] := by rw [written?, hout]; rfl
    refine ⟨ids, hwrote₃.trans hwrote, ?_⟩
    rw [hwritten₃, List.nil_append] at htrail₃
    rw [htrail₃]
    simpa [hwritten₃] using heffects
  | cons s out =>
    simp only [hout, List.isEmpty_cons] at hrun
    obtain ⟨u₃, st₄, hpush, hrun⟩ := step_bind_eq_ok hrun
    obtain ⟨rfl, rfl⟩ := Prod.mk.inj (Except.ok.inj ((push_run _ st₃).symm.trans hpush))
    obtain ⟨u₄, st₅, hgo, hrun⟩ := step_bind_eq_ok hrun
    cases hrun
    have hwrote₄ : W.Wrote [] st
        (st₃.push (.ifElse Node.synthetic (negated p.expr) (blockStmt [breakStmt]) none)) :=
      .nil ⟨hst₃.push _, hload₃⟩ (hemitted₃.trans hemitted₁)
    obtain ⟨ids, hwrote, heffects⟩ := writes_goTo hblock consequent _ u₄ st' hwrote₄.calm hgo
    refine ⟨ids, hwrote₄.trans hwrote, ?_⟩
    rw [List.append_nil, List.append_nil, written?_push] at heffects
    rw [heffects, ← htrail₃]
    simp [trace, Expr.effects, Stmt.effects, Stmt.effectsOpt, Stmt.effectsAll, negated, blockStmt, breakStmt]

/-- A block that waits for its turn to be emitted as a loop: its instructions come first. -/
theorem writes_emitLoop (hblock : ∀ id, W.Writes (emitBlock id) [] fun _ => []) {id : BlockId}
    {header : Block} {stack rest : List CellId}
    (hheader : header.instructions.foldlM (Instr.stack? (readOnce ctx.counts)) [] = some stack)
    (hbehind : taken? stack ((header.terminal.toList.flatMap (·.reads)).map (·.cell.id)) = some rest) :
    W.Writes (emitLoop emitBlock id header)
      (W.of (header.instructions.flatMap (effectsOf W.written ctx.env))) fun _ => [] := by
  rw [emitLoop]
  split
  case h_1 test consequent alternate fallthrough hterminal =>
    have htest : taken? stack [test.cell.id] = some rest := by
      simpa [hterminal, Terminal.reads] using hbehind
    have hbody : W.Writes (inList (emitLoopBody emitBlock header test consequent))
        ([] ++ W.of (header.instructions.flatMap (effectsOf W.written ctx.env)))
        fun r => [] ++ (W.trace r.1 ++ W.of (Stmt.effectsAll r.2)) :=
      Writes.inList (fun t written => W.trace t ++ written) fun st t st' hst hnone hrun =>
        emitLoopBody_run hblock hheader htest hst hnone hrun
    refine .of_settled fun _ => .of_looks (Looks.modify (fun _ h => { h with }) fun _ => ⟨rfl, rfl, rfl⟩)
      fun _ _ => hbody.bind fun r => ?_
    refine .of_looks (Looks.modify (fun _ h => { h with }) fun _ => ⟨rfl, rfl, rfl⟩) fun _ _ => ?_
    exact (Writes.push (by simp [Stmt.effects, blockStmt, trace])).bind fun _ => writes_goTo hblock _
  case h_2 => exact Writes.throw _

/-- The end of a block comes behind its instructions, and the blocks behind it come then. -/
theorem emitTerminal_run (hblock : ∀ id, W.Writes (emitBlock id) [] fun _ => []) {id : BlockId}
    {terminal : Option Terminal} {stack rest : List CellId} {u : Unit} (hst : W.Stacked stack st)
    (hbehind : taken? stack ((terminal.toList.flatMap (·.reads)).map (·.cell.id)) = some rest)
    (hrun : emitTerminal emitBlock id terminal ctx st = .ok (u, st')) :
    ∃ ids, W.Wrote ids st st' ∧ W.written? st' = W.trail st ++ W.blockEffects ids := by
  -- what comes behind a place where nothing waits, with the value that is read last at hand
  have hlast {st₁ : State} {act : Step Unit} {hand : List Effect} (hcalm : W.Calm st₁)
      (hemitted : st₁.emitted = st.emitted) (hhand : W.written? st₁ ++ hand = W.trail st)
      (hact : W.Writes act hand fun _ => []) (hrun : act ctx st₁ = .ok (u, st')) :
      ∃ ids, W.Wrote ids st st' ∧ W.written? st' = W.trail st ++ W.blockEffects ids := by
    obtain ⟨ids, hwrote, heffects⟩ := hact st₁ u st' hcalm hrun
    refine ⟨ids, (Wrote.nil hcalm hemitted).trans hwrote, ?_⟩
    rwa [List.append_nil, hhand] at heffects
  have hsettled {next : Unit → Step Unit} (hnext : ∀ u, W.Writes (next u) [] fun _ => [])
      (hrun : (settleEverything >>= next) ctx st = .ok (u, st')) :
      ∃ ids, W.Wrote ids st st' ∧ W.written? st' = W.trail st ++ W.blockEffects ids := by
    obtain ⟨u₁, st₁, hsettle, hrun⟩ := step_bind_eq_ok hrun
    obtain ⟨hst₁, hemitted, hload, hwritten⟩ := settle_run (fun _ _ => rfl) hst.sound hsettle
    exact hlast ⟨hst₁, hload⟩ hemitted (by rw [hwritten, List.append_nil]) (hnext u₁) hrun
  have htaken {place : Place} {next : Pending → Step Unit}
      (hplace : taken? stack [place.cell.id] = some rest)
      (hnext : ∀ p, W.Writes (next p) (W.trace p.expr) fun _ => [])
      (hrun : (take place >>= fun p => settleEverything >>= fun _ => next p) ctx st = .ok (u, st')) :
      ∃ ids, W.Wrote ids st st' ∧ W.written? st' = W.trail st ++ W.blockEffects ids := by
    obtain ⟨p, st₁, htake, hrun⟩ := step_bind_eq_ok hrun
    obtain ⟨u₁, st₂, hsettle, hrun⟩ := step_bind_eq_ok hrun
    obtain ⟨hst₂, hload, hemitted, hwritten⟩ := hst.takeLast hplace htake hsettle
    exact hlast ⟨hst₂, hload⟩ hemitted hwritten (hnext p) hrun
  cases terminal with
  | none => cases hrun
  | some terminal =>
    cases terminal with
    | jump target => exact hsettled (fun _ => writes_goTo hblock target) hrun
    | branch test consequent alternate fallthrough =>
      exact htaken (by simpa [Terminal.reads] using hbehind)
        (fun p => writes_emitIf hblock p.expr consequent alternate fallthrough) hrun
    | ret value =>
      cases value with
      | none =>
        refine hsettled (fun _ => .of_looks Looks.get fun st _ => .of_looks Looks.read fun ctx' _ => ?_) hrun
        dsimp only
        split
        · exact Writes.push rfl
        · exact Writes.pure rfl
      | some value =>
        refine htaken (by simpa [Terminal.reads] using hbehind) (fun p => Writes.push ?_) hrun
        simp [Stmt.effects, Expr.effectsOpt, trace]

end Structured

/-- Emitting a block emits its instructions in order, and then the blocks behind it. -/
theorem writes_emitBlock (horder : ∀ b ∈ ctx.function.blocks.values,
      LastFirst (readOnce ctx.counts) b.instructions (b.terminal.toList.flatMap (·.reads)) = true)
    (fuel : Nat) (id : BlockId) : W.Writes (emitBlock fuel id) [] fun _ => [] := by
  induction fuel generalizing id with
  | zero => exact Writes.throw _
  | succ fuel ih =>
    intro st u st' hst hrun
    rw [emitBlock] at hrun
    obtain ⟨st₀, st₁, hget, hrun⟩ := step_bind_eq_ok hrun
    cases hget
    cases hid : st.emitted.contains id with
    | true =>
      rw [hid] at hrun
      cases hrun
      exact ⟨[], .nil hst rfl, by simp [blockEffects]⟩
    | false =>
      rw [hid] at hrun
      obtain ⟨u₁, st₁, hmark, hrun⟩ := step_bind_eq_ok hrun
      obtain ⟨ctx', st₂, hread, hrun⟩ := step_bind_eq_ok hrun
      cases hread
      dsimp only at hrun
      cases hb : ctx.function.blocks.get? id with
      | none =>
        rw [hb] at hrun
        cases hrun
      | some b =>
        rw [hb] at hrun
        cases hmark
        obtain ⟨stack, rest, hinstrs, hbehind⟩ := exists_stack (horder b (Table.mem_values.2 ⟨id, hb⟩))
        obtain ⟨edge, st₂, hedge, hrun⟩ := step_bind_eq_ok hrun
        have hcalm : W.Calm { st with
            emitted := KeySet.add st.emitted id
            blockRegions := st.blockRegions.insert id st.region } := ⟨{ hst.sound with }, hst.load⟩
        have hmarked : W.Wrote [id] st { st with
            emitted := KeySet.add st.emitted id
            blockRegions := st.blockRegions.insert id st.region } := by
          refine ⟨hcalm, List.nodup_singleton _, by simpa using hid, fun id' => ?_⟩
          rw [KeySet.contains_add]
          by_cases heq : id' = id
          · simp [heq]
          · simp [heq]
        cases hflow : ctx.function.flow.backEdge id with
        | error e =>
          rw [hflow] at hedge
          cases hedge
        | ok r =>
          rw [hflow] at hedge
          cases hedge
          cases edge with
          | some back =>
            obtain ⟨ids, hwrote, heffects⟩ := writes_emitLoop ih hinstrs hbehind _ u st' hcalm hrun
            refine ⟨id :: ids, hmarked.trans hwrote, ?_⟩
            rw [heffects, blockEffects_cons hb, List.append_nil, List.append_assoc]
            rfl
          | none =>
            obtain ⟨u₂, st₃, hrunInstrs, hrun⟩ := step_bind_eq_ok hrun
            obtain ⟨hst₃, hemitted₃, htrail₃⟩ := hcalm.stacked.emitInstrs hinstrs hrunInstrs
            obtain ⟨ids, hwrote, heffects⟩ := emitTerminal_run ih hst₃ hbehind hrun
            refine ⟨id :: ids, hmarked.trans (hwrote.of_emitted hemitted₃), ?_⟩
            rw [List.append_nil, heffects, htrail₃, hcalm.trail_eq, blockEffects_cons hb, List.append_assoc,
              List.append_nil]
            rfl

/-! ## Functions -/

variable {names : Names} {hoisted : KeySet DeclId}

theorem sound_start (hoisted : KeySet DeclId) (hnames : ∀ d, names.get? ctx.env d = W.written d) :
    W.Calm { names, declared := hoisted } :=
  ⟨⟨nofun, List.nodup_nil, fun c => by simp, fun c r hr => by simp at hr, hnames⟩, rfl⟩

theorem Looks.takeParams (ps : List Place) : W.Looks (takeParams ps) Anything := by
  induction ps with
  | nil => exact Looks.pure trivial
  | cons p ps ih =>
    refine (Looks.takePattern p).bind fun r _ =>
      Looks.bind (Looks.modify (fun _ h => { h with }) fun _ => ⟨rfl, rfl, rfl⟩) fun _ _ => ?_
    exact ih.bind fun _ _ => Looks.pure trivial

/-- Declarations of variables for later do nothing. -/
theorem effects_hoistedStmt (names : List String) : (hoistedStmt names).effects = [] := by
  simp only [hoistedStmt, Stmt.effects]
  induction names with
  | nil => rfl
  | cons name names ih =>
    rw [List.map_cons, Declarator.effectsAll, ih]
    rfl

/-- Declaring hoisted variables does nothing else. -/
theorem hoist_run (W : Watch ctx) {params : List Pattern} {body : List Stmt}
    {r : List Pattern × List Stmt}
    (hrun : (if hoisted.isEmpty then pure (params, body)
      else do pure (params, hoistedStmt (← namesOf hoisted.keys) :: body) : Step _) ctx st = .ok (r, st')) :
    st' = st ∧ W.of (Stmt.effectsAll r.2) = W.of (Stmt.effectsAll body) := by
  split at hrun
  · cases hrun
    exact ⟨rfl, rfl⟩
  · obtain ⟨written, st₁, hnames, hrun⟩ := step_bind_eq_ok hrun
    cases hrun
    refine ⟨namesOf_run hnames, ?_⟩
    rw [Stmt.effectsAll, effects_hoistedStmt, List.nil_append]

/-- The code of a function is the effects of its blocks in the order in which they were emitted. -/
theorem emitFunction_run (horder : ctx.function.LastFirst (readOnce ctx.counts))
    (hnames : ∀ d, names.get? ctx.env d = W.written d) {params : List Pattern} {body : List Stmt}
    (hrun : emitFunction hoisted ctx { names, declared := hoisted } = .ok ((params, body), st')) :
    ∃ order : List BlockId, order.Nodup ∧ (∀ id, id ∈ order ↔ st'.emitted.contains id = true) ∧
      W.of (Stmt.effectsAll body) = W.blockEffects order := by
  obtain ⟨hheader, hblocks⟩ := horder
  have hstart : W.Calm { names, declared := hoisted } := sound_start hoisted hnames
  obtain ⟨ctx', st₁, hread, hrun⟩ := step_bind_eq_ok hrun
  cases hread
  obtain ⟨u₁, st₁, hinstrs, hrun⟩ := step_bind_eq_ok hrun
  obtain ⟨hst₁, hemitted₁, htrail₁⟩ := hstart.stacked.emitInstrs hheader hinstrs
  have hload₁ : W.load st₁ = [] := List.map_eq_nil_iff.1 (List.sublist_nil.1 hst₁.load)
  obtain ⟨st₂, st₃, hget, hrun⟩ := step_bind_eq_ok hrun
  cases hget
  cases hout : st₁.out with
  | cons s out =>
    simp only [hout] at hrun
    cases hrun
  | nil =>
    simp only [hout, List.isEmpty_nil] at hrun
    obtain ⟨params', st₂, hparams, hrun⟩ := step_bind_eq_ok hrun
    obtain ⟨hst₂, hemitted₂, hout₂, hvalues₂, -⟩ :=
      Looks.takeParams _ st₁ params' st₂ hst₁.sound hparams
    obtain ⟨u₂, st₃, hblock, hrun⟩ := step_bind_eq_ok hrun
    have hcalm₂ : W.Calm st₂ := ⟨hst₂, by rw [load, hvalues₂, ← load, hload₁]⟩
    have hwritten₂ : W.written? st₂ = [] := by rw [written?, hout₂, hout]; rfl
    obtain ⟨order, hwrote, heffects⟩ := writes_emitBlock hblocks _ _ st₂ u₂ st₃ hcalm₂ hblock
    obtain ⟨st₄, st₅, hget, hrun⟩ := step_bind_eq_ok hrun
    cases hget
    rw [hwritten₂] at heffects
    have hbody : W.of (Stmt.effectsAll st₃.out.reverse) = W.blockEffects order := by
      simpa [written?] using heffects
    obtain ⟨rfl, hcode⟩ := hoist_run W hrun
    refine ⟨order, hwrote.nodup, fun id => ?_, hcode.trans hbody⟩
    rw [hwrote.emitted, hemitted₂, hemitted₁]
    simp

end Watch

end Whittle.Emit

namespace Whittle.Ir

open Emit Syntax

variable {m : Module} {env : Environment} {counts : CellMap Nat}

/-- Emission keeps the order of effects.  Where what waited last is read first, the code of a function is
the effects of its blocks, one block behind the other as they were emitted, and each block has its effects
once and in the order of its instructions. -/
theorem Module.emitWith_inOrder {fuel : Nat} {f : Function} {names names' : Names} {params : List Pattern}
    {body : List Stmt} (hm : m.DefinesOnce) (hf : f ∈ m.functions.values)
    (horder : f.LastFirst (readOnce counts))
    (h : emitWith m env counts (emitNested m env counts fuel) f names = .ok ((params, body), names'))
    (keeps : Effect → Bool)
    (hkeeps : ∀ d name, names.get? env d = some name → keeps (.write name) = false) :
    ∃ (hoisted : KeySet DeclId) (start : Names) (st : State) (order : List BlockId),
      emitFunction hoisted ⟨m, env, counts, f, emitNested m env counts fuel⟩
        { names := start, declared := hoisted } = .ok ((params, body), st) ∧
      order.Nodup ∧ (∀ id, id ∈ order ↔ st.emitted.contains id = true) ∧
      (Stmt.effectsAll body).filter keeps = order.flatMap fun id =>
        (((f.blocks.get? id).elim [] (·.instructions)).flatMap
          (effectsOf (names.get? env) env)).filter keeps := by
  let ctx : Context := ⟨m, env, counts, f, emitNested m env counts fuel⟩
  let L : Ledger ctx := .counting .call (names.get? env) (fun _ _ _ => nofun)
    fun _ _ _ _ hnested d => hm.get?_emitNested hnested d
  let W : Watch ctx :=
    ⟨keeps, names.get? env, hkeeps, fun _ _ _ _ hnested d => hm.get?_emitNested hnested d⟩
  obtain ⟨-, hoisted, start, st, hrun, hstart⟩ := Ledger.emitHoisting_run (L := L) (hm f hf)
    (fun _ => rfl) Ledger.follower_counting h
  obtain ⟨order, hnodup, hemitted, heffects⟩ := Watch.emitFunction_run (W := W) horder hstart hrun
  exact ⟨hoisted, start, st, order, hrun, hnodup, hemitted, heffects⟩

/-- `f(o.a, o.b = o.c()); while (o.d) { o.e(o.g); }` -/
def chaining : Syntax.Module :=
  let o (property : String) : Expr := .member .synthetic (nameExpr "o") property
  let call (callee : Expr) (arguments : List Expr) : Expr := .call .synthetic callee (arguments.map .one)
  ⟨⟨0, 0⟩,
    [exprStmt (call (nameExpr "f") [o "a", assignExpr (memberPattern (o "b")) (call (o "c") [])]),
      .while .synthetic (o "d") (blockStmt [exprStmt (call (o "e") [o "g"])])]⟩

/-- Whether an effect is more than a write to a variable. -/
def isNoWrite : Effect → Bool
  | .write _ => false
  | _ => true

/-- The effects come in the order of the source. -/
theorem Module.emitWith_inOrder_chaining :
    ∃ (m : Module) (env : Environment) (f : Function) (params : List Pattern) (body : List Stmt)
      (names' : Names),
      entryCode? chaining = some ((m, env, f), (params, body), names') ∧ m.DefinesOnce ∧
      f.LastFirst (readOnce m.readCounts) ∧
      (Stmt.effectsAll body).filter isNoWrite =
        [.load "a", .load "c", .call, .store "b", .call, .load "d", .load "e", .load "g", .call] ∧
      ∃ (hoisted : KeySet DeclId) (start : Names) (st : State) (order : List BlockId),
        emitFunction hoisted ⟨m, env, m.readCounts, f, emitNested m env m.readCounts 1⟩
          { names := start, declared := hoisted } = .ok ((params, body), st) ∧
        order.Nodup ∧ (∀ id, id ∈ order ↔ st.emitted.contains id = true) ∧
        (Stmt.effectsAll body).filter isNoWrite = order.flatMap fun id =>
          (((f.blocks.get? id).elim [] (·.instructions)).flatMap
            (effectsOf ((Names.assign m env).get? env) env)).filter isNoWrite := by
  obtain ⟨⟨⟨m, env, f⟩, ⟨params, body⟩, names'⟩, hcode, honce, horder, heffects⟩ :
      ∃ t ∈ entryCode? chaining, t.1.1.DefinesOnce ∧ t.1.2.2.LastFirst (readOnce t.1.1.readCounts) ∧
        (Stmt.effectsAll t.2.1.2).filter isNoWrite =
          [.load "a", .load "c", .call, .store "b", .call, .load "d", .load "e", .load "g", .call] := by
    decide +kernel
  obtain ⟨hf, hwith⟩ := entryCode?_eq_some hcode
  exact ⟨m, env, f, params, body, names', hcode, honce, horder, heffects,
    Module.emitWith_inOrder honce hf horder hwith isNoWrite fun _ _ _ => rfl⟩

end Whittle.Ir
