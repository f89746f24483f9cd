import Mathlib.Tactic.Common
import Whittle.Proofs.Lowering.Places
import Whittle.Proofs.Lowering.Tree

/-!
# Lowered modules are coherent

One induction over the tree shows that the instructions of lowered code mention only places that were
handed out before, that they read temporaries of their own block behind the definitions, that variables
of other functions are captured, that functions return temporaries of their own, and that declared
functions write their variables before they read them as long as control goes straight.

Main statements: `Module.lowered_lower`, `Module.coherent_lower`, `Module.runsInTurn_lower`.
-/

namespace Whittle.Lowering

open Ir Syntax

variable {s : State} {cells : List Cell} {op : Op}

/-! ## Where paths meet -/

theorem Versions.Fits.merge {base : Versions} {paths : List Path} (hbase : Versions.Fits base cells)
    (hpaths : ∀ path ∈ paths, Versions.Fits path.versions cells) :
    Versions.Fits (mergeVersions base paths) cells := by
  refine List.foldlRecOn (motive := fun merged => Versions.Fits merged cells) _ _ hbase
    fun merged hmerged path hpath => ?_
  have hversions := hpaths path (List.mem_of_mem_filter hpath)
  refine List.foldlRecOn (motive := fun merged => Versions.Fits merged cells) _ _ hmerged
    fun merged hmerged e he => ?_
  split
  · exact hmerged
  · obtain ⟨hof, hdeclaration⟩ := hversions e.1 e.2 (Table.mem_entries.1 he)
    exact hmerged.insert hof hdeclaration

theorem yields_resume {path : Path} (h : Versions.Fits path.versions cells) (hleft : Left s) :
    Yields .block s cells (resume path) Anything := by
  have hsame : s.frame.SameCode { s.frame with
      versions := path.versions, isReachable := path.isReachable } := .of_function rfl rfl rfl
  exact yields_onFrame (fun hframe => { hframe with
    versions := h
    settles := fun hkind => (hframe.settles hkind).of_left (hleft hkind) hsame }) hsame rfl

/-- The loops around change where control may not come straight. -/
theorem yields_loops (change : List LoopFrame → List LoopFrame)
    (h : ∀ loop ∈ change s.frame.loops, ∀ versions ∈ loop.breaks, Versions.Fits versions cells)
    (hleft : Left s) :
    Yields .block s cells (onFrame fun frame => { frame with loops := change frame.loops })
      Anything := by
  have hsame : s.frame.SameCode { s.frame with loops := change s.frame.loops } :=
    .of_function rfl rfl rfl
  exact yields_onFrame (fun hframe => { hframe with
    breaks := h
    settles := fun hkind => (hframe.settles hkind).of_left (hleft hkind) hsame }) hsame rfl

/-! ## Parts of expressions and statements -/

/-- What is known of the answer for an expression: where only effects matter, nothing. -/
def Answer (use : Use) (p : Place) (s : State) (cells : List Cell) : Prop := use = .value → Own p s cells

theorem Yields.answer {act : Lower Place} (h : Yields .block s cells act Own) (use : Use) :
    Yields .block s cells act (Answer use) :=
  h.weaken fun _ _ _ hplace _ => hplace

theorem Yields.value {act : Lower Place} (h : Yields .block s cells act (Answer .value)) :
    Yields .block s cells act Own :=
  h.weaken fun _ _ _ hplace => hplace rfl

theorem yields_finish (use : Use) (node : Node) {place : Place} (h : Own place s cells) :
    Yields .block s cells (use.finish node place) (Answer use) := by
  cases use with
  | value => exact .pure fun _ => h
  | effect => exact (yields_emit (by simpa [Op.reads] using h.toUsable) rfl).answer .effect

theorem yields_finishEmpty (use : Use) : Yields .block s cells use.finishEmpty (Answer use) := by
  cases use with
  | value => exact .throw _
  | effect => exact .pure nofun

/-- An expression that is an instruction. -/
theorem yields_finished (use : Use) (node : Node) (hreads : ∀ q ∈ op.reads, Usable q s cells)
    (hop : op.isOrdinary = true) {origin : Option Nat} :
    Yields .block s cells (emit op origin >>= use.finish node) (Answer use) :=
  (yields_emit hreads hop).bind fun _ _ _ _ hplace => yields_finish use node hplace

/-- An expression that stays as it is written. -/
theorem yields_kept (use : Use) (node : Node) (e : Expr) :
    Yields .block s cells (keepExpr e >>= use.finish node) (Answer use) :=
  (yields_keepExpr e).bind fun _ _ _ _ hplace => yields_finish use node hplace

theorem yields_combined (node : Node) (op : AssignOp) {current value : Lower Place}
    (hcurrent : Yields .block s cells current Own)
    (hvalue : ∀ s' cells', Yields .block s' cells' value Own) :
    Yields .block s cells (combined node op current value) Own := by
  unfold combined
  cases op.binary? with
  | some binary =>
    exact hcurrent.bind fun left _ _ _ hleft => (hvalue _ _).bind fun right _ _ hcomes hright =>
      yields_emit (by simp [Op.reads, (hleft.mono hcomes).toUsable, hright.toUsable]) rfl
  | none => exact hvalue s cells

theorem yields_stepped (node : Node) (op : UpdateOp) (before : Bool) {load : Lower Place}
    {store : Place → Lower Place} (hload : Yields .block s cells load Own)
    (hstore : ∀ value s' cells', Comes .block s cells s' cells' → Own value s' cells' →
      Yields .block s' cells' (store value) Own) :
    Yields .block s cells (stepped node op before load store) Own := by
  refine hload.bind fun old _ _ h₁ hold => ?_
  refine Yields.bind (yields_emit (by simp [Op.reads]) rfl) fun one _ _ h₂ hone => ?_
  refine Yields.bind (yields_emit ?_ rfl) fun new _ _ h₃ hnew => ?_
  · simp [Op.reads, (hold.mono h₂).toUsable, hone.toUsable]
  · refine (hstore new _ _ ((h₁.trans h₂).trans h₃) hnew).bind fun stored _ _ h₄ hstored => .pure ?_
    split
    · exact hstored
    · exact ((hold.mono h₂).mono h₃).mono h₄

theorem yields_bindVariable (name : String) (kind : VarKind) {value : Place}
    (hvalue : Usable value s cells) (origin : Option Nat) :
    Yields .block s cells (bindVariable name kind value origin) Anything := by
  refine (yields_declared name).bind fun d _ _ h₁ hd => ?_
  refine (yields_bindingPlace hd).bind fun target _ _ h₂ htarget => ?_
  exact (yields_store (hvalue.mono (h₁.trans h₂)) htarget _ origin).bind fun _ _ _ _ _ => .pure trivial

theorem yields_importAll (origin : Option Nat) (specifiers : List Syntax.ImportSpecifier) :
    Yields .block s cells (importAll origin specifiers) (Known id) := by
  induction specifiers generalizing s cells with
  | nil => exact .pure (by rintro p ⟨⟩)
  | cons specifier more ih =>
    exact (yields_emit (by simp [Op.reads]) rfl).bind fun _ _ _ _ hplace => ih.bind
      fun _ _ _ hcomes hrest =>
        .pure (List.forall_mem_cons.2 ⟨(hplace.mono hcomes).toUsable, hrest⟩)

theorem yields_declaredAll (names : List String) :
    Yields .block s cells (declaredAll names) fun locals s _ =>
      ∀ e ∈ locals, s.env.isTemporary e.1 = false := by
  induction names generalizing s cells with
  | nil => exact .pure (by rintro e ⟨⟩)
  | cons name names ih =>
    exact (yields_declared name).bind fun _ _ _ _ hd => ih.bind fun _ _ _ hcomes hrest =>
      .pure (List.forall_mem_cons.2 ⟨hcomes.named hd, hrest⟩)

/-- Exported names that are variables of the module. -/
theorem State.Fits.exported? (h : s.Fits cells) {specifiers : List Syntax.ExportSpecifier}
    {locals : List (DeclId × String)} (hlocals : Scopes.exported? s.scopes specifiers = some locals) :
    ∀ e ∈ locals, s.env.isTemporary e.1 = false := by
  rw [Scopes.exported?] at hlocals
  induction specifiers generalizing locals with
  | nil =>
    obtain rfl := Option.some.inj hlocals
    rintro e ⟨⟩
  | cons specifier specifiers ih =>
    rw [List.mapM_cons] at hlocals
    obtain ⟨e, he, hlocals⟩ := Option.bind_eq_some_iff.1 hlocals
    obtain ⟨rest, hrest, hlocals⟩ := Option.bind_eq_some_iff.1 hlocals
    obtain rfl := Option.some.inj hlocals
    obtain ⟨d, hd, rfl⟩ := Option.map_eq_some_iff.1 he
    exact List.forall_mem_cons.2 ⟨h.named hd, ih hrest⟩

/-- A block ends and the next one begins. -/
theorem yields_starting {act : Lower Unit} (h : ∀ s' cells', Yields .function s' cells' act Anything) :
    Yields .function s cells (do
      let start ← newBlock
      endBlock (.jump start) start
      act) Anything :=
  yields_newBlock.bind fun _ _ _ _ hnew => (yields_goOn hnew.ahead).andThen fun _ _ _ _ _ => h _ _

theorem yields_loopOver {test : Lower Place} {body : Lower Unit}
    (htest : ∀ s' cells', Yields .block s' cells' test Own)
    (hbody : ∀ s' cells', Yields .function s' cells' body Anything) :
    Yields .function s cells (loopOver test body) Anything := by
  refine yields_newBlock.bind fun testBlock _ _ _ hfirst => yields_newBlock.bind
    fun bodyBlock _ _ h hsecond => yields_newBlock.bind fun exit _ _ h' hthird => ?_
  -- the blocks are handed out in the order in which control comes to them
  have hbefore : testBlock.index < bodyBlock.index := hsecond.first ▸ hfirst.handed
  have hbefore' : testBlock.index < exit.index :=
    hthird.first ▸ hfirst.handed.trans_le h.env.nextBlock
  refine (yields_goOn ((hfirst.ahead.mono h).mono h')).andThen fun _ s₁ _ h₁ hahead => ?_
  refine .reading (a := s₁.frame) rfl ((htest _ _).bind fun t _ _ h₂ ht => ?_)
  have hbodyAhead := (hahead _ (hsecond.ahead.mono h') hbefore).mono h₂
  have hexitAhead := (hahead _ hthird.ahead hbefore').mono h₂
  refine (yields_branch ht.toUsable _ _ _ hbodyAhead).andThen fun _ s₃ _ h₃ hleft => ?_
  obtain ⟨hleft₃, hstill⟩ := hleft
  refine (yields_loops (⟨exit, []⟩ :: ·) (List.forall_mem_cons.2
    ⟨by rintro versions ⟨⟩, h₃.fits.frame.breaks⟩) hleft₃).bind fun _ _ _ h₄ _ => ?_
  have hleft₄ := hleft₃.mono h₄
  refine (hbody _ _).andThen fun _ s₅ _ h₅ _ => .reading (a := s₅.frame) rfl ?_
  have hexitAhead₅ := ((hstill _ hexitAhead).mono h₄).mono_left h₅ hleft₄
  refine (yields_jump _ hexitAhead₅ (hleft₄.mono h₅)).andThen fun _ s₆ cells₆ h₆ _ =>
    .reading (a := s₆.frame) rfl ?_
  have hleft₆ := (hleft₄.mono h₅).mono h₆
  cases hloops : s₆.frame.loops with
  | nil => exact .throw _
  | cons inner loops =>
    have hbreaks := h₆.fits.frame.breaks
    rw [hloops] at hbreaks
    obtain ⟨hinner, hothers⟩ := List.forall_mem_cons.1 hbreaks
    refine (yields_loops (fun _ => loops) hothers hleft₆).bind fun _ _ _ h₇ _ => ?_
    -- versions meet from the test that fails, from the end of the body and from every break
    have hafter := ((((h₂.env.trans h₃.env).trans h₄.env).trans h₅.env).trans h₆.env).trans h₇.env
    refine (yields_resume (.merge (h₁.fits.frame.versions.mono hafter.cells) ?_) (hleft₆.mono h₇)).loosen
    refine List.forall_mem_cons.2 ⟨h₅.fits.frame.versions.mono (h₆.env.trans h₇.env).cells, ?_⟩
    intro path hpath
    obtain ⟨versions, hversions, rfl⟩ := List.mem_map.1 hpath
    exact (hinner versions (List.mem_reverse.1 hversions)).mono h₇.env.cells

theorem yields_leaveLoop : Yields .function s cells leaveLoop Anything := by
  intro hs
  refine Yields.reading (a := s.frame) rfl ?_ hs
  have hleave (target : BlockId) {s' : State} {cells' : List Cell} (hleft : Left s') :
      Yields .function s' cells' (endUnreachable (.jump target)) Anything :=
    yields_endUnreachable ⟨by simp [Terminal.reads], by simp⟩ fun _ _ => hleft
  cases hloops : s.frame.loops with
  | nil => exact .throw _
  | cons inner loops =>
    have hbreaks := hs.frame.breaks
    rw [hloops] at hbreaks
    obtain ⟨hinner, hothers⟩ := List.forall_mem_cons.1 hbreaks
    -- loops are only around where control did not come straight
    have hleft : Left s := fun hkind hplain => by
      have hnone := ((hs.frame.settles hkind).straight hplain).loops
      rw [hloops] at hnone
      cases hnone
    dsimp only
    split
    · refine (yields_loops (fun _ => { inner with breaks := s.frame.versions :: inner.breaks } :: loops)
        ?_ hleft).bind fun _ _ _ h _ => hleave inner.exit (hleft.mono h)
      exact List.forall_mem_cons.2 ⟨List.forall_mem_cons.2 ⟨hs.frame.versions, hinner⟩, hothers⟩
    · exact hleave inner.exit hleft

/-- Both arms of a conditional and what comes behind them. -/
theorem yields_arms {consequent : Lower Unit} {other : Path → Lower Path}
    {a : BlockId} (hconsequent : ∀ s' cells', Yields .function s' cells' consequent Anything)
    (hother : ∀ base s' cells', Versions.Fits base.versions cells' → Ahead a s' → Left s' →
      Yields .function s' cells' (other base) fun path _ cells => Versions.Fits path.versions cells)
    {t : Place} (ht : Usable t s cells) {c join : BlockId} (hc : Ahead c s) (ha : Ahead a s)
    (hjoin : Ahead join s) :
    Yields .function s cells (do
      endBlock (.branch t c a join) c
      let base := (← getFrame).path
      consequent
      let first := (← getFrame).path
      let second ← other base
      endBlock (.jump join) join
      resume ⟨mergeVersions base.versions [first, second],
        first.isReachable || second.isReachable⟩) Anything := by
  refine (yields_branch ht _ _ _ hc).andThen fun _ s₁ _ h₁ hended => .reading (a := s₁.frame) rfl ?_
  obtain ⟨hleft, hahead⟩ := hended
  refine (hconsequent _ _).andThen fun _ s₂ _ h₂ _ => .reading (a := s₂.frame) rfl ?_
  have hbase := h₁.fits.frame.versions
  refine (hother _ _ _ (hbase.mono h₂.env.cells) ((hahead a ha).mono_left h₂ hleft)
    (hleft.mono h₂)).andThen fun second _ _ h₃ hsecond => ?_
  have hleft₃ := hleft.mono (h₂.trans h₃)
  refine (yields_jump _ ((hahead join hjoin).mono_left (h₂.trans h₃) hleft) hleft₃).andThen
    fun _ _ _ h₄ _ => (yields_resume (.merge ?_ ?_) (hleft₃.mono h₄)).loosen
  · exact hbase.mono ((h₂.trans h₃).trans h₄).env.cells
  · have hfirst := h₂.fits.frame.versions.mono (h₃.trans h₄).env.cells
    simpa [Frame.path] using ⟨hfirst, hsecond.mono h₄.env.cells⟩

/-- The parameters of a function and its body.  The parameters go to the header. -/
theorem yields_filled (s : State) (cells : List Cell) {params : Lower (List Place)} {body : Lower Unit}
    (hparams : ∀ s' cells', Yields .block s' cells' params (Known id))
    (hbody : ∀ s' cells', Yields .function s' cells' body Anything) :
    Yields .function s cells (do
      onFrame ({ · with inHeader := true })
      let places ← params
      onFrame fun frame =>
        { frame with inHeader := false, function := { frame.function with params := places } }
      body) Anything := by
  intro hs hheader u s' hrun
  obtain ⟨_, s₁, henter, hrun⟩ := bind_eq_ok hrun
  cases henter
  obtain ⟨places, s₂, hplaces, hrun⟩ := bind_eq_ok hrun
  obtain ⟨_, s₃, hleave, hrun⟩ := bind_eq_ok hrun
  cases hleave
  have hinside : State.Fits { s with frame := { s.frame with inHeader := true } } cells :=
    { hs with
      frame := hs.frame.congr hs.frame.function (.of_function rfl rfl rfl) rfl rfl rfl
        hs.frame.unclaimed }
  obtain ⟨cells₂, h₂, hknown⟩ := hparams _ _ hinside nofun places s₂ hplaces
  obtain ⟨hfits, horder, hvisible⟩ := h₂.fits.frame.function
  have hfunction : Function.Lowered { s₂.frame.function with params := places } s₂.env cells₂
      s₂.frame.function.id :=
    ⟨⟨rfl, { hfits.uses with params := fun p hp => (hknown p hp).isOf }, hfits.phis⟩,
      ⟨horder.header, horder.blocks⟩, ⟨hvisible.header, hvisible.blocks⟩⟩
  have houtside : State.Fits { s₂ with frame := { s₂.frame with
      inHeader := false, function := { s₂.frame.function with params := places } } } cells₂ :=
    { h₂.fits with
      frame := h₂.fits.frame.congr hfunction ⟨rfl, rfl, rfl, rfl, rfl, rfl, rfl⟩ rfl rfl rfl
        h₂.fits.frame.unclaimed }
  obtain ⟨cells₄, h₄, -⟩ := hbody _ _ houtside (fun _ => rfl) u s' hrun
  have honward : s.frame.Onward s'.frame := by
    refine .trans ?_ (h₂.onward.trans (.trans ?_ h₄.onward))
    · exact .of_blocks rfl rfl rfl
    · exact .of_blocks rfl rfl rfl
  exact ⟨cells₄, ⟨hs.logs, h₂.env.trans h₄.env, h₄.fits, h₄.id.trans h₂.id,
    h₄.inHeader.trans (hheader rfl).symm, nofun, honward, nofun⟩, trivial⟩

/-! ## The walk over the tree -/

theorem yields_destructured (n : Node) (op : AssignOp) {target : Pattern} {value : Expr}
    (hvalue : ∀ s' cells', Yields .block s' cells' (lowerExpr .value value) Own)
    (hpattern : ∀ s' cells', Yields .block s' cells' (lowerPattern .assignment target) Usable) :
    Yields .block s cells (do
      if op == .set && target.isPlain && (← allLocal target) then
        let place ← lowerExpr .value value
        let pattern ← lowerPattern .assignment target
        emit (.destructure pattern place .reassign) n.id
      else keepExpr (.assign n op target value)) Own := by
  refine .reading (a := target.bound.all fun ident => (s.scopes.find? ident.name).isSome) rfl ?_
  split
  · exact (hvalue _ _).bind fun place _ _ _ hplace => (hpattern _ _).bind fun pattern _ _ h hpattern =>
      yields_emit (by simp [Op.reads, hpattern, (hplace.mono h).toUsable]) rfl
  · exact yields_keepExpr _

/-- An assignment that may not happen stays as it is written. -/
theorem Yields.unlessLogical (use : Use) (n : Node) {op : AssignOp} (e : Expr) {act : Lower Place}
    (h : Yields .block s cells act Own) :
    Yields .block s cells (if op.isLogical then keepExpr e >>= use.finish n else act) (Answer use) := by
  split
  · exact yields_kept use n e
  · exact h.answer use

mutual

theorem yields_lowerExpr (use : Use) : (e : Expr) → (s : State) → (cells : List Cell) →
    Yields .block s cells (lowerExpr use e) (Answer use)
  | .name n ident, _, _ => (yields_loadName ident).bind fun _ _ _ _ h => yields_finish use n h
  | .literal n _, _, _ => yields_finished use n (by simp [Op.reads]) rfl
  | .array n elements, _, _ =>
    (yields_lowerElements elements _ _).bind fun _ _ _ _ h =>
      yields_finished use n (by exact h) rfl
  | .object n properties, _, _ =>
    (yields_lowerProperties properties _ _).bind fun _ _ _ _ h =>
      yields_finished use n (by exact h) rfl
  | .function n f, _, _ =>
    (yields_lowerFunc _ f _ _).bind fun _ _ _ _ _ =>
      yields_finished use n (by simp [Op.reads]) rfl
  | .unary n op argument, _, _ => by
    rw [lowerExpr]
    split
    · exact yields_kept use n _
    · exact (yields_lowerExpr .value argument _ _).value.bind fun _ _ _ _ h =>
        yields_finished use n (by simp [Op.reads, h.toUsable]) rfl
  | .update n op before argument, s, cells => yields_lowerUpdated use n op before argument s cells
  | .binary n _ left right, _, _ =>
    (yields_lowerExpr .value left _ _).value.bind fun _ _ _ _ hl =>
      (yields_lowerExpr .value right _ _).value.bind fun _ _ _ h hr =>
        yields_finished use n (by simp [Op.reads, (hl.mono h).toUsable, hr.toUsable]) rfl
  | .logical n op left right, _, _ => by
    rw [lowerExpr]
    split
    · exact (yields_lowerExpr .value left _ _).value.bind fun _ _ _ _ hl =>
        (yields_lowerExpr .value right _ _).value.bind fun _ _ _ h hr =>
          yields_finished use n (by simp [Op.reads, (hl.mono h).toUsable, hr.toUsable]) rfl
    · exact yields_kept use n _
  | .assign n op target value, s, cells =>
    yields_lowerAssigned use n op (fun s cells => (yields_lowerExpr .value value s cells).value) target
      (yields_lowerPattern .assignment target) s cells
  | .conditional n test consequent alternate, _, _ => by
    rw [lowerExpr]
    split
    · exact (yields_lowerExpr .value test _ _).value.bind fun _ _ _ _ ht =>
        (yields_lowerExpr .value consequent _ _).value.bind fun _ _ _ h hc =>
          (yields_lowerExpr .value alternate _ _).value.bind fun _ _ _ h' ha =>
            yields_finished use n
              (by simp [Op.reads, (ht.mono (h.trans h')).toUsable, (hc.mono h').toUsable, ha.toUsable]) rfl
    · exact yields_kept use n _
  | .call n callee arguments, _, _ =>
    (yields_lowerExpr .value callee _ _).value.bind fun _ _ _ _ hc =>
      (yields_lowerElements arguments _ _).bind fun _ _ _ h hs =>
        yields_finished use n (by exact List.forall_mem_cons.2 ⟨(hc.mono h).toUsable, hs⟩) rfl
  | .construct n callee arguments, _, _ =>
    (yields_lowerExpr .value callee _ _).value.bind fun _ _ _ _ hc =>
      (yields_lowerElements arguments _ _).bind fun _ _ _ h hs =>
        yields_finished use n (by exact List.forall_mem_cons.2 ⟨(hc.mono h).toUsable, hs⟩) rfl
  | .member n base _, _, _ =>
    (yields_lowerExpr .value base _ _).value.bind fun _ _ _ _ h =>
      yields_finished use n (by simp [Op.reads, h.toUsable]) rfl
  | .index n base property, _, _ =>
    (yields_lowerExpr .value base _ _).value.bind fun _ _ _ _ hb =>
      (yields_lowerExpr .value property _ _).value.bind fun _ _ _ h hp =>
        yields_finished use n (by simp [Op.reads, (hb.mono h).toUsable, hp.toUsable]) rfl
  | .sequence _ expressions, s, cells => yields_lowerSequence use expressions s cells
  | .this n, _, _ => yields_kept use n _

theorem yields_lowerUpdated (use : Use) (n : Node) (op : UpdateOp) (before : Bool) :
    (argument : Expr) → (s : State) → (cells : List Cell) →
    Yields .block s cells (lowerExpr use (.update n op before argument)) (Answer use)
  | .name _ ident, _, _ =>
    (yields_stepped n op before (yields_loadName ident) fun _ _ _ _ h =>
      yields_storeName ident h.toUsable _).answer use
  | .member _ base _, _, _ =>
    (yields_lowerExpr .value base _ _).value.bind fun _ _ _ _ hb =>
      (yields_stepped n op before (yields_emit (by simp [Op.reads, hb.toUsable]) rfl) fun _ _ _ h hv =>
        yields_emit (by simp [Op.reads, (hb.mono h).toUsable, hv.toUsable]) rfl).answer use
  | .index _ base _, _, _ =>
    (yields_lowerExpr .value base _ _).value.bind fun _ _ _ _ _ => (yields_keepExpr _).answer use
  | .literal .., _, _ | .array .., _, _ | .object .., _, _ | .function .., _, _ | .unary .., _, _
  | .update .., _, _ | .binary .., _, _ | .logical .., _, _ | .assign .., _, _
  | .conditional .., _, _ | .call .., _, _ | .construct .., _, _ | .sequence .., _, _
  | .this .., _, _ => .throw _

theorem yields_lowerAssigned (use : Use) (n : Node) (op : AssignOp) {value : Expr}
    (hvalue : ∀ s cells, Yields .block s cells (lowerExpr .value value) Own) : (target : Pattern) →
    (∀ s cells, Yields .block s cells (lowerPattern .assignment target) Usable) →
    (s : State) → (cells : List Cell) → Yields .block s cells (lowerExpr use (.assign n op target value)) (Answer use)
  | .name _ ident, _, _, _ =>
    .unlessLogical use n _ ((yields_combined n op (yields_loadName ident) hvalue).bind fun _ _ _ _ h =>
      yields_storeName ident h.toUsable _)
  | .expression m e, hpattern, s, cells => yields_lowerAssignedExpr use n op hvalue m e hpattern s cells
  | .array .., hpattern, _, _ | .object .., hpattern, _, _ | .withDefault .., hpattern, _, _
  | .rest .., hpattern, _, _ => .unlessLogical use n _ (yields_destructured n op hvalue hpattern)

theorem yields_lowerAssignedExpr (use : Use) (n : Node) (op : AssignOp) {value : Expr}
    (hvalue : ∀ s cells, Yields .block s cells (lowerExpr .value value) Own) (m : Node) : (e : Expr) →
    (∀ s cells, Yields .block s cells (lowerPattern .assignment (.expression m e)) Usable) →
    (s : State) → (cells : List Cell) →
    Yields .block s cells (lowerExpr use (.assign n op (.expression m e) value)) (Answer use)
  | .member _ base _, _, _, _ =>
    .unlessLogical use n _ ((yields_lowerExpr .value base _ _).value.bind fun _ _ _ _ hb =>
      (yields_combined n op (yields_emit (by simp [Op.reads, hb.toUsable]) rfl) hvalue).bind fun _ _ _ h hv =>
        yields_emit (by simp [Op.reads, (hb.mono h).toUsable, hv.toUsable]) rfl)
  | .index _ base property, _, _, _ =>
    .unlessLogical use n _ ((yields_lowerExpr .value base _ _).value.bind fun _ _ _ _ hb =>
      (yields_lowerExpr .value property _ _).value.bind fun _ _ _ h hp =>
        (yields_combined n op (yields_emit (by simp [Op.reads, (hb.mono h).toUsable, hp.toUsable]) rfl)
          hvalue).bind fun _ _ _ h' hv =>
            yields_emit
              (by simp [Op.reads, (hb.mono (h.trans h')).toUsable, (hp.mono h').toUsable, hv.toUsable]) rfl)
  | .name .., hpattern, _, _ | .literal .., hpattern, _, _ | .array .., hpattern, _, _
  | .object .., hpattern, _, _ | .function .., hpattern, _, _ | .unary .., hpattern, _, _
  | .update .., hpattern, _, _ | .binary .., hpattern, _, _ | .logical .., hpattern, _, _
  | .assign .., hpattern, _, _ | .conditional .., hpattern, _, _ | .call .., hpattern, _, _
  | .construct .., hpattern, _, _ | .sequence .., hpattern, _, _ | .this .., hpattern, _, _ =>
    .unlessLogical use n _ (yields_destructured n op hvalue hpattern)

theorem yields_lowerSequence (use : Use) : (es : List Expr) → (s : State) → (cells : List Cell) →
    Yields .block s cells (lowerSequence use es) (Answer use)
  | [], _, _ => yields_finishEmpty use
  | [e], s, cells => yields_lowerExpr use e s cells
  | e :: e' :: es, _, _ =>
    (yields_lowerExpr .effect e _ _).bind fun _ _ _ _ _ => yields_lowerSequence use (e' :: es) _ _

theorem yields_lowerElements : (es : List Element) → (s : State) → (cells : List Cell) →
    Yields .block s cells (lowerElements es) (Known id)
  | [], _, _ => .pure (by rintro p ⟨⟩)
  | .one e :: es, _, _ =>
    (yields_lowerExpr .value e _ _).value.bind fun _ _ _ _ hp => (yields_lowerElements es _ _).bind
      fun _ _ _ h hs => .pure (List.forall_mem_cons.2 ⟨(hp.mono h).toUsable, hs⟩)
  | .spread e :: es, _, _ =>
    (yields_lowerExpr .value e _ _).value.bind fun _ _ _ _ hp =>
      (yields_emit (by simp [Op.reads, hp.toUsable]) rfl).bind fun _ _ _ _ hp =>
        (yields_lowerElements es _ _).bind fun _ _ _ h hs =>
          .pure (List.forall_mem_cons.2 ⟨(hp.mono h).toUsable, hs⟩)

theorem yields_lowerKey : (key : PropertyKey) → (s : State) → (cells : List Cell) →
    Yields .block s cells (lowerKey key) (Known Key.reads)
  | .name _, _, _ | .string _, _, _ | .number _, _, _ => .pure (by rintro p ⟨⟩)
  | .computed e, _, _ =>
    (yields_lowerExpr .value e _ _).value.bind fun _ _ _ _ hp => .pure (List.forall_mem_singleton.2 hp.toUsable)

theorem yields_lowerProperties : (ps : List Syntax.Property) → (s : State) → (cells : List Cell) →
    Yields .block s cells (lowerProperties ps) (Known (·.flatMap Property.reads))
  | [], _, _ => .pure (by rintro p ⟨⟩)
  | .keyValue key value _ :: ps, _, _ =>
    (yields_lowerKey key _ _).bind fun _ _ _ _ hk => (yields_lowerExpr .value value _ _).value.bind
      fun _ _ _ h hv => (yields_lowerProperties ps _ _).bind fun _ _ _ h' hs => .pure <|
        List.forall_mem_append.2 ⟨List.forall_mem_append.2 ⟨(h.trans h').usable hk,
          by simp [(hv.mono h').toUsable]⟩, hs⟩
  | .method key f :: ps, _, _ =>
    (yields_lowerKey key _ _).bind fun _ _ _ _ hk => (yields_lowerFunc .method f _ _).bind
      fun _ _ _ h _ => (yields_lowerProperties ps _ _).bind fun _ _ _ h' hs => .pure <|
        List.forall_mem_append.2 ⟨(h.trans h').usable hk, hs⟩
  | .spread value :: ps, _, _ =>
    (yields_lowerExpr .value value _ _).value.bind fun _ _ _ _ hv =>
      (yields_lowerProperties ps _ _).bind fun _ _ _ h hs => .pure <|
        List.forall_mem_cons.2 ⟨(hv.mono h).toUsable, hs⟩

theorem yields_lowerPattern (use : PatternUse) : (p : Pattern) → (s : State) → (cells : List Cell) →
    Yields .block s cells (lowerPattern use p) Usable
  | .name _ ident, _, _ =>
    yields_target use ident.name fun _ _ _ _ hp =>
      (yields_define hp.toNamed (hp.writes (.inl rfl)) rfl rfl rfl _).bind fun _ _ _ _ h => .pure h.usable
  | .array _ elements, _, _ =>
    (yields_lowerHoles use elements _ _).bind fun _ _ _ _ hs =>
      (yields_emit (by exact hs) rfl).weaken fun _ _ _ h => h.toUsable
  | .object _ properties, _, _ =>
    (yields_lowerPatternProperties use properties _ _).bind fun _ _ _ _ hs =>
      (yields_emit (by exact hs) rfl).weaken fun _ _ _ h => h.toUsable
  | .withDefault _ target value, _, _ =>
    (yields_lowerExpr .value value _ _).value.bind fun _ _ _ _ hv =>
      (yields_lowerPattern use target _ _).bind fun _ _ _ h ht =>
        (yields_emit (by simp [Op.reads, ht, (hv.mono h).toUsable]) rfl).weaken fun _ _ _ h => h.toUsable
  | .rest _ argument, _, _ =>
    (yields_lowerPattern use argument _ _).bind fun _ _ _ _ ha =>
      (yields_emit (by simpa [Op.reads] using ha) rfl).weaken fun _ _ _ h => h.toUsable
  | .expression _ _, _, _ => .throw _

theorem yields_lowerHoles (use : PatternUse) : (ps : List (Option Pattern)) → (s : State) →
    (cells : List Cell) → Yields .block s cells (lowerHoles use ps) (Known (·.flatMap Option.toList))
  | [], _, _ => .pure (by rintro p ⟨⟩)
  | none :: ps, _, _ => (yields_lowerHoles use ps _ _).bind fun _ _ _ _ hs => .pure hs
  | some p :: ps, _, _ =>
    (yields_lowerPattern use p _ _).bind fun _ _ _ _ hp => (yields_lowerHoles use ps _ _).bind
      fun _ _ _ h hs => .pure (List.forall_mem_cons.2 ⟨hp.mono h, hs⟩)

theorem yields_lowerPatternProperties (use : PatternUse) :
    (ps : List Syntax.PatternProperty) → (s : State) → (cells : List Cell) →
    Yields .block s cells (lowerPatternProperties use ps) (Known (·.flatMap PatternProperty.reads))
  | [], _, _ => .pure (by rintro p ⟨⟩)
  | .keyValue key value :: ps, _, _ =>
    (yields_lowerKey key _ _).bind fun _ _ _ _ hk => (yields_lowerPattern use value _ _).bind
      fun _ _ _ h hv => (yields_lowerPatternProperties use ps _ _).bind fun _ _ _ h' hs => .pure <|
        List.forall_mem_append.2 ⟨List.forall_mem_append.2 ⟨(h.trans h').usable hk,
          by simpa using hv.mono h'⟩, hs⟩
  | .rest argument :: ps, _, _ =>
    (yields_lowerPattern use argument _ _).bind fun _ _ _ _ ha =>
      (yields_lowerPatternProperties use ps _ _).bind fun _ _ _ h hs => .pure <|
        List.forall_mem_cons.2 ⟨ha.mono h, hs⟩

theorem yields_lowerParams : (ps : List Pattern) → (s : State) → (cells : List Cell) →
    Yields .block s cells (lowerParams ps) (Known id)
  | [], _, _ => .pure (by rintro p ⟨⟩)
  | p :: ps, _, _ =>
    (yields_lowerPattern .parameter p _ _).bind fun _ _ _ _ hp => (yields_lowerParams ps _ _).bind
      fun _ _ _ h hs => .pure (List.forall_mem_cons.2 ⟨hp.mono h, hs⟩)

theorem yields_lowerFunc (kind : FunctionKind) : (f : Func) → (s : State) → (cells : List Cell) →
    Yields .block s cells (lowerFunc kind f) Anything
  | .mk node name params body _, _, _ => by
    have hfilled (s : State) (cells : List Cell) :=
      yields_filled s cells (yields_lowerParams params) (yields_lowerBody body)
    rw [lowerFunc]
    refine Yields.bind yields_newFunc fun id _ _ _ _ => yields_inFunction _ _ _ _ fun s cells hkind => ?_
    split
    · next ident =>
      refine yields_introduce ident.name .constKind nofun (fun _ _ _ => Scopes.bindsOnly_bind?)
        fun _ _ _ h _ => (hfilled _ _).refit fun hs => hs.undeclared ?_ none
      rw [h.onward.kind, hkind]
      nofun
    · exact hfilled s cells

theorem yields_lowerBody : (body : Body) → (s : State) → (cells : List Cell) →
    Yields .function s cells (lowerBody body) Anything
  | .block statements, _, _ =>
    (yields_declareHoisted _).bind fun _ _ _ _ _ => (yields_declareLexical _).bind
      fun _ _ _ _ hfunctions => (yields_lowerHoisted _ statements _ _ hfunctions).bind
        fun _ _ _ _ _ => yields_lowerAll statements _ _
  | .expression value, _, _ => by
    refine (yields_lowerExpr .value value _ _).value.bind fun place _ _ _ hplace => ?_
    refine (yields_onFrame (fun hframe => hframe.congr ?_ ⟨rfl, rfl, rfl, rfl, rfl, rfl, rfl⟩ rfl rfl rfl
      hframe.unclaimed) ⟨rfl, rfl, rfl, rfl, rfl, rfl, rfl⟩ rfl).bind fun _ _ _ h _ =>
        yields_return (by simpa using hplace.mono h)
    obtain ⟨hfits, horder, hvisible⟩ := hframe.function
    exact ⟨⟨rfl, { hfits.uses with }, hfits.phis⟩, ⟨horder.header, horder.blocks⟩,
      ⟨hvisible.header, hvisible.blocks⟩⟩

theorem yields_lowerHoistedOne (functions : List (DeclId × Place)) :
    (stmt : Stmt) → (s : State) → (cells : List Cell) → Awaiting functions s cells →
    Yields .block s cells (lowerHoistedOne functions stmt) Awaiting
  | .function _ f, _, _, hfunctions => by
    have hfunc := yields_lowerFunc .declaration f
    unfold lowerHoistedOne
    cases functions with
    | nil => exact .pure hfunctions
    | cons e functions =>
      obtain ⟨hplace, hrest⟩ := List.forall_mem_cons.1 hfunctions
      dsimp only
      split
      · refine (hfunc _ _).bind fun id s _ h _ => Yields.bind
          (yields_sameCells rfl rfl rfl rfl (fun _ hd => hd) (Nat.le_refl _) fun d hd => ?_)
            fun _ s' _ h' _ => ?_
        · rw [Environment.bindFunction, Table.contains_insert, Bool.or_eq_true, decide_eq_true_eq] at hd
          obtain rfl | hd := hd
          · exact .inr (Environment.index_lt_of_named (hplace.mono h).named)
          · exact .inl hd
        refine Yields.bind (yields_define (hplace.mono (h.trans h')) s'.writes_none rfl rfl rfl _)
          fun _ _ _ h'' _ => .pure ?_
        exact fun e he => (hrest e he).mono ((h.trans h').trans h'')
      · exact .pure hfunctions
  | .exportDeclaration _ inner, s, cells, hfunctions =>
    yields_lowerHoistedOne functions inner s cells hfunctions
  | .declaration .., _, _, h | .classDeclaration .., _, _, h | .return .., _, _, h
  | .ifElse .., _, _, h | .while .., _, _, h | .doWhile .., _, _, h | .for .., _, _, h
  | .forEach .., _, _, h | .block .., _, _, h | .break .., _, _, h | .continue .., _, _, h
  | .throw .., _, _, h | .expression .., _, _, h | .importFrom .., _, _, h
  | .exportNames .., _, _, h | .exportDefault .., _, _, h | .empty .., _, _, h => .pure h

theorem yields_lowerHoisted (functions : List (DeclId × Place)) :
    (ss : List Stmt) → (s : State) → (cells : List Cell) →
    Awaiting functions s cells →
    Yields .block s cells (lowerHoisted functions ss) Anything
  | [], _, _, _ => .pure trivial
  | stmt :: ss, _, _, h =>
    (yields_lowerHoistedOne functions stmt _ _ h).bind fun rest _ _ _ hrest =>
      yields_lowerHoisted rest ss _ _ hrest

theorem yields_lowerDeclarators (kind : VarKind) (origin : Option Nat) :
    (ds : List Declarator) → (s : State) → (cells : List Cell) →
    Yields .block s cells (lowerDeclarators kind origin ds) Anything
  | [], _, _ => .pure trivial
  | .mk n target (some value) :: ds, _, _ => by
    have hvalue (s : State) (cells : List Cell) := (yields_lowerExpr .value value s cells).value
    have hpattern := yields_lowerPattern .declaration target
    have hrest := yields_lowerDeclarators kind origin ds
    cases target
    case name ident =>
      exact (hvalue _ _).bind fun _ _ _ _ hv =>
        (yields_bindVariable ident.name kind hv.toUsable origin).bind fun _ _ _ _ _ => hrest _ _
    all_goals
      exact (hvalue _ _).bind fun _ _ _ _ hv => (hpattern _ _).bind fun _ _ _ h hp =>
        (yields_emit (by simp [Op.reads, hp, (hv.mono h).toUsable]) rfl).bind fun _ _ _ _ _ => hrest _ _
  | .mk n target none :: ds, _, _ => by
    have hrest := yields_lowerDeclarators kind origin ds
    cases target
    case name ident =>
      unfold lowerDeclarators
      dsimp only
      split
      · exact (yields_emit (by simp [Op.reads]) rfl).bind fun _ _ _ _ hv =>
          (yields_bindVariable ident.name kind hv.toUsable origin).bind fun _ _ _ _ _ => hrest _ _
      · exact hrest _ _
    all_goals exact Yields.bind (Q := Anything) (.throw _) fun _ _ _ _ _ => hrest _ _

theorem yields_lowerHead : (head : Option ForHead) → (s : State) → (cells : List Cell) →
    Yields .block s cells (lowerHead head) Anything
  | none, _, _ => .pure trivial
  | some (.declaration kind declarators), _, _ =>
    (yields_declareLexical _).bind fun _ _ _ _ _ => yields_lowerDeclarators kind none declarators _ _
  | some (.expression value), _, _ =>
    (yields_lowerExpr .effect value _ _).bind fun _ _ _ _ _ => .pure trivial

theorem yields_lowerTest : (test : Option Expr) → (s : State) → (cells : List Cell) →
    Yields .block s cells (lowerTest test) Own
  | none, _, _ => yields_emit (by simp [Op.reads]) rfl
  | some e, s, cells => (yields_lowerExpr .value e s cells).value

theorem yields_lowerUpdate : (update : Option Expr) → (s : State) → (cells : List Cell) →
    Yields .block s cells (lowerUpdate update) Anything
  | none, _, _ => .pure trivial
  | some e, _, _ => (yields_lowerExpr .effect e _ _).bind fun _ _ _ _ _ => .pure trivial

theorem yields_lowerResult : (value : Option Expr) → (s : State) → (cells : List Cell) →
    Yields .block s cells (lowerResult value) fun value s cells => ∀ p ∈ value, Own p s cells
  | none, _, _ => .pure (by rintro p ⟨⟩)
  | some e, _, _ =>
    (yields_lowerExpr .value e _ _).value.bind fun _ _ _ _ h => .pure (by simpa using h)

theorem yields_lowerElse (base : Path) (block join : BlockId) :
    (alternate : Option Stmt) → (s : State) → (cells : List Cell) →
    Versions.Fits base.versions cells → Ahead block s → Left s →
    Yields .function s cells (lowerElse base block join alternate) fun path _ cells =>
      Versions.Fits path.versions cells
  | none, _, _, hbase, _, _ => .pure hbase
  | some stmt, _, _, hbase, hblock, hleft =>
    (yields_jump _ hblock hleft).andThen fun _ _ _ h _ =>
      (yields_resume (hbase.mono h.env.cells) (hleft.mono h)).bind fun _ _ _ _ _ =>
        (yields_lowerStmt true stmt _ _).andThen fun _ s₁ _ h _ =>
          .reading (a := s₁.frame) rfl (.pure h.fits.frame.versions)

theorem yields_lowerStmt (isArm : Bool) : (stmt : Stmt) → (s : State) → (cells : List Cell) →
    Yields .function s cells (lowerStmt isArm stmt) Anything
  | .declaration n kind declarators, s, cells => (yields_lowerDeclarators kind n.id declarators s cells).loosen
  | .function _ _, _, _ => .pure trivial
  | .return _ value, _, _ =>
    (yields_lowerResult value _ _).bind fun _ _ _ _ h => yields_return h
  | .ifElse _ test consequent alternate, _, _ => by
    have hconsequent := yields_lowerStmt true consequent
    have helse := fun base block join => yields_lowerElse base block join alternate
    refine (yields_lowerExpr .value test _ _).value.bind fun t _ _ _ ht => yields_newBlock.bind
      fun c _ _ h₁ hc => yields_newBlock.bind fun join _ _ h₂ hjoin => ?_
    have ht := (ht.mono (h₁.trans h₂)).toUsable
    have hc := hc.ahead.mono h₂
    dsimp only
    split
    · refine yields_newBlock.bind fun a _ _ h ha => ?_
      exact yields_arms hconsequent (fun base => helse base a join) (ht.mono h) (hc.mono h) ha.ahead
        (hjoin.ahead.mono h)
    · exact yields_arms hconsequent (fun base => helse base join join) ht hc hjoin.ahead hjoin.ahead
  | .while _ test body, _, _ =>
    yields_loopOver (fun s cells => (yields_lowerExpr .value test s cells).value) (yields_lowerStmt true body)
  | .for _ head test update body, _, _ =>
    .inScope .block fun _ _ _ => yields_starting fun _ _ => (yields_lowerHead head _ _).bind
      fun _ _ _ _ _ => yields_loopOver (yields_lowerTest test) fun _ _ =>
        (yields_lowerStmt true body _ _).andThen fun _ _ _ _ _ => (yields_lowerUpdate update _ _).loosen
  | .block _ statements, s, cells => by
    have hall := yields_lowerAll statements
    have hhoisted := fun functions => yields_lowerHoisted functions statements
    have hscope (s : State) (cells : List Cell) : Yields .function s cells (inScope .block (do
        let functions ← declareLexical (statements.flatMap Stmt.lexical)
        lowerHoisted functions statements
        lowerAll statements)) Anything :=
      .inScope .block fun _ _ _ => (yields_declareLexical _).bind fun _ _ _ _ hfunctions =>
        (hhoisted _ _ _ hfunctions).bind fun _ _ _ _ _ => hall _ _
    cases isArm with
    | true => exact hscope s cells
    | false => exact yields_starting hscope
  | .break _ none, _, _ => yields_leaveLoop
  | .break _ (some _), _, _ => .throw _
  | .continue _ _, _, _ => .throw _
  | .expression _ value, _, _ =>
    (yields_lowerExpr .effect value _ _).bind fun _ _ _ _ _ => .pure trivial
  | .importFrom n specifiers _, _, _ => by
    refine (yields_importAll n.id specifiers).bind fun places _ _ _ hplaces => ?_
    refine Yields.bind (yields_emit ?_ rfl) fun _ _ _ _ _ => .pure trivial
    exact hplaces
  | .exportNames n specifiers source, s, _ => by
    rw [lowerStmt]
    intro hs
    refine Yields.reading (a := s) rfl ?_ hs
    split
    · next hlocals => exact (yields_exportAll _ (hs.exported? hlocals)).loosen
    · exact (yields_keepStmt _ (by rintro d ⟨⟩)).loosen
  | .exportDeclaration n inner, _, _ =>
    (yields_lowerStmt false inner _ _).andThen fun _ _ _ _ _ =>
      (yields_declaredAll _).bind fun _ _ _ _ hlocals => (yields_exportAll n.id hlocals).loosen
  | .exportDefault _ value, _, _ =>
    (yields_lowerExpr .value value _ _).value.bind fun _ _ _ _ h =>
      (yields_emitExport (by simp [Op.reads, h.toUsable]) rfl rfl (by rintro ⟨⟩) _ _).bind fun _ _ _ _ _ => .pure trivial
  | .classDeclaration n cls, _, _ => by
    rw [lowerStmt]
    cases cls.name with
    | some ident =>
      simp only [map_eq_pure_bind, bind_assoc, pure_bind]
      exact (yields_declared ident.name).bind fun d _ _ _ hd =>
        (yields_keepStmt _ (by simpa using hd)).loosen
    | none => exact (yields_keepStmt _ (by rintro d ⟨⟩)).loosen
  | .empty _, _, _ => .pure trivial
  | .doWhile .., _, _ | .forEach .., _, _ | .throw .., _, _ =>
    (yields_keepStmt _ (by rintro d ⟨⟩)).loosen

theorem yields_lowerAll : (ss : List Stmt) → (s : State) → (cells : List Cell) →
    Yields .function s cells (lowerAll ss) Anything
  | [], _, _ => .pure trivial
  | stmt :: ss, _, _ =>
    (yields_lowerStmt false stmt _ _).andThen fun _ _ _ _ _ => yields_lowerAll ss _ _

end

/-! ## Modules -/

theorem fits_start (globals : Table String ImportBinding) : (State.start globals).Fits [] where
  logs := ⟨rfl, by rintro c ⟨⟩, by rintro c ⟨⟩, by rintro d r ⟨⟩⟩
  scopes := by rintro d ⟨scope, ⟨⟩, -⟩
  frame :=
    { function := Function.lowered_start _ _ _ _ _ _ _ _
      opened := Block.lowered_empty ..
      versions := by rintro d p ⟨⟩
      breaks := by rintro loop ⟨⟩
      unclaimed := by rintro d ⟨⟩
      settles := nofun }
  outer := by rintro o ⟨⟩
  functions := by rintro id f ⟨⟩
  turns := by rintro id f ⟨⟩

end Whittle.Lowering

namespace Whittle.Syntax.Module

open Ir Lowering

/-- Lowering leads from an empty state to one that holds the module's functions. -/
theorem comes_lower {path : String} {m : Syntax.Module} {ir : Ir.Module} {env : Environment}
    (h : m.lower path {} = .ok (ir, env)) :
    ∃ s cells, Comes .function (State.start (importsOf m.body)) [] s cells ∧ s.env = env ∧
      s.frame.inHeader = false ∧
      ir.functions = s.functions.insert ⟨0⟩ (s.frame.close (.ret none)).recomputeFlow := by
  change (inScope .function (lowerBody (.block m.body)) (State.start (importsOf m.body)) >>=
    fun out => pure (_, out.2.env)) = _ at h
  cases hrun : inScope .function (lowerBody (.block m.body)) (State.start (importsOf m.body)) with
  | error e =>
    rw [hrun] at h
    cases h
  | ok out =>
    rw [hrun] at h
    cases h
    obtain ⟨cells, hcomes, -⟩ := Yields.inScope .function
      (fun s cells _ => yields_lowerBody (.block m.body) s cells) (fits_start _) (fun _ => rfl) _ _ hrun
    exact ⟨out.2, cells, hcomes, rfl, hcomes.inHeader, rfl⟩

/-- All functions of a lowered module are lowered code on places that were handed out. -/
theorem lowered_lower {path : String} {m : Syntax.Module} {ir : Ir.Module} {env : Environment}
    (h : m.lower path {} = .ok (ir, env)) :
    ∃ cells, env.Logs cells ∧ ∀ id f, ir.functions.get? id = some f → f.Lowered env cells id := by
  obtain ⟨s, cells, hcomes, rfl, hheader, hfunctions⟩ := comes_lower h
  refine ⟨cells, hcomes.fits.logs, fun id f hf => ?_⟩
  rw [hfunctions, Table.get?_insert] at hf
  split at hf
  · next heq =>
    obtain rfl := Option.some.inj hf
    have hid : s.frame.function.id = ⟨0⟩ := hcomes.id
    rw [heq, ← hid]
    exact hcomes.fits.done hheader
  · exact hcomes.fits.functions id f hf

/-- Declared functions of a lowered module run straight from their entries to their ends, and write
variables before they read them. -/
theorem runsInTurn_lower {path : String} {m : Syntax.Module} {ir : Ir.Module} {env : Environment}
    (h : m.lower path {} = .ok (ir, env)) {id : FuncId} {f : Function}
    (hf : ir.functions.get? id = some f) (hkind : f.kind = .declaration) : f.RunsInTurn env := by
  obtain ⟨s, cells, hcomes, rfl, -, hfunctions⟩ := comes_lower h
  rw [hfunctions, Table.get?_insert] at hf
  split at hf
  · obtain rfl := Option.some.inj hf
    exact hcomes.fits.done_inTurn hkind
  · exact hcomes.fits.turns id f hf hkind

/-- Lowering binds functions only to declarations that there are. -/
theorem bound_lower {path : String} {m : Syntax.Module} {ir : Ir.Module} {env : Environment}
    (h : m.lower path {} = .ok (ir, env)) {d : DeclId} (hd : env.functions.contains d = true) :
    d.index < env.declarations.size := by
  obtain ⟨s, cells, hcomes, rfl, -, -⟩ := comes_lower h
  rcases hcomes.env.bound d hd with hd | hlt
  · cases hd
  · exact hlt

/-- Lowered modules are coherent. -/
theorem coherent_lower {path : String} {m : Syntax.Module} {ir : Ir.Module} {env : Environment}
    (h : m.lower path {} = .ok (ir, env)) : ir.Coherent env := by
  obtain ⟨cells, hlogs, hlowered⟩ := lowered_lower h
  exact ⟨cells, hlogs, fun id f hf => (hlowered id f hf).fits⟩

end Whittle.Syntax.Module
