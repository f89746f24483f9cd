import Mathlib.Tactic.Common
import Whittle.Emit.Block
import Whittle.Proofs.Emit.Instructions
import Whittle.Proofs.Table

/-!
# Marks of blocks

While a function is emitted, each of its effects is in one of four places: in the statements, in what
waits, in the instructions at hand or in a block that is not emitted yet.  Every step of emission
keeps what all of them weigh together (`Ledger.Emits`).
-/

namespace Whittle.Emit

open Ir Syntax

/-- The instructions of the blocks that are not emitted. -/
def ahead (f : Function) (emitted : KeySet BlockId) : List Instr :=
  (f.blocks.entries.filter fun e => !emitted.contains e.1).flatMap (·.2.instructions)

/-- A block that gets emitted is ahead no longer. -/
theorem ahead_perm {f : Function} {emitted : KeySet BlockId} {id : BlockId} {b : Block}
    (hb : f.blocks.get? id = some b) (hid : emitted.contains id = false) :
    (ahead f emitted).Perm (b.instructions ++ ahead f (KeySet.add emitted id)) := by
  have hentries := f.blocks.entries_nodup
  have hseen : (id, b) ∉ f.blocks.entries.filter fun e => !(KeySet.add emitted id).contains e.1 := by
    simp
  have hperm : (f.blocks.entries.filter fun e => !emitted.contains e.1).Perm
      ((id, b) :: f.blocks.entries.filter fun e => !(KeySet.add emitted id).contains e.1) := by
    rw [List.perm_ext_iff_of_nodup (hentries.filter _) (List.nodup_cons.2 ⟨hseen, hentries.filter _⟩)]
    rintro ⟨id', b'⟩
    rw [List.mem_cons, List.mem_filter, List.mem_filter, KeySet.contains_add]
    by_cases heq : id' = id
    · subst heq
      simp [Table.mem_entries, hb, hid, eq_comm]
    · simp [heq]
  exact hperm.flatMap_right _

/-- The cells of the places that instructions define. -/
def cellsOf (is : List Instr) : Set CellId := {c | ∃ i ∈ is, i.place.cell.id = c}

theorem cellsOf_cons (i : Instr) (is : List Instr) :
    cellsOf (i :: is) = insert i.place.cell.id (cellsOf is) := by
  ext c
  simp [cellsOf, eq_comm]

theorem cellsOf_perm {is is' : List Instr} (h : is.Perm is') : cellsOf is = cellsOf is' := by
  ext c
  simp [cellsOf, h.mem_iff]

namespace Ledger

variable {ctx : Context} {L : Ledger ctx} {st st' : State} {α β : Type}

theorem balanced_emitInstrs {is rest : List Instr}
    (hnodup : ((is ++ rest).map (·.place.cell.id)).Nodup) (hadmits : ∀ i ∈ is, L.Admits i) :
    L.Balanced (cellsOf (is ++ rest)) (emitInstrs is) (cellsOf rest) (is.map L.due).sum Nothing
      Anything := by
  induction is with
  | nil => exact Balanced.pure rfl trivial
  | cons i is ih =>
    obtain ⟨hi, hnodup⟩ := List.nodup_cons.1 hnodup
    obtain ⟨hfirst, hadmits⟩ := List.forall_mem_cons.1 hadmits
    rw [List.cons_append, cellsOf_cons]
    refine (balanced_emitInstr i (fun hmem => hi ?_) hfirst).bind fun _ _ =>
      (ih hnodup hadmits).gain_eq (Nat.zero_add _).symm
    obtain ⟨j, hj, heq⟩ := hmem
    exact List.mem_map.2 ⟨j, hj, heq⟩

/-! ## Accesses at hand -/

/-- The cells that instructions define by accesses of one kind. -/
def accessCells (a : Access) (is : List Instr) : Set CellId :=
  {c | ∃ i ∈ is, i.place.cell.id = c ∧ i.op.access? = some a}

/-- The books while the given instructions are emitted: the accesses among them are followed. -/
def nearby (L : Ledger ctx) (is : List Instr) : Ledger ctx := { L with near := accessCells L.access is }

/-- A call for which more is due than each call weighs has its callee from an access of the same
list. -/
def Local (L : Ledger ctx) (is : List Instr) : Prop :=
  ∀ i ∈ is, ∀ callee arguments, i.op = .call callee arguments →
    (callee.cell.id ∈ accessCells L.access is ∧ ctx.env.isTemporary callee.declaration = true) ∨
      ∀ e, L.callDue callee.cell.id ≤ L.weight (.call e)

theorem Local.admits {is : List Instr} (h : L.Local is) (hnodup : (is.map (·.place.cell.id)).Nodup) :
    ∀ i ∈ is, (L.nearby is).Admits i := by
  refine fun i hi => ⟨?_, h i hi⟩
  rintro ⟨j, hj, hcell, haccess⟩
  rwa [List.inj_on_of_nodup_map hnodup hj hi hcell] at haccess

/-- Where nothing waits for the cells of some instructions, the accesses among them can be followed. -/
theorem Sound.follow {later : Set CellId} {is : List Instr} (h : L.Sound later st)
    (hcells : cellsOf is ⊆ later) : (L.nearby is).Sound later st :=
  { h with
    near := fun e he ⟨i, hi, hcell, _⟩ => absurd (hcells ⟨i, hi, hcell⟩) (h.values_later e he) }

theorem Sound.unfollow {later : Set CellId} {is : List Instr} (h : (L.nearby is).Sound later st)
    (hfar : L.near = ∅) : L.Sound later st :=
  { h with
    near := fun e _ hnear => by
      rw [hfar] at hnear
      cases hnear }

/-- Only accesses of the instructions at hand are followed, and no others need be. -/
structure Follower (L : Ledger ctx) : Prop where
  far : L.near = ∅
  header : L.Local ctx.function.header
  blocks : ∀ id b, ctx.function.blocks.get? id = some b → L.Local b.instructions

theorem local_nil : L.Local [] := List.forall_mem_nil _

/-! ## States between instructions -/

/-- The instructions at hand and those ahead define different cells, for which nothing waits. -/
structure Steady (L : Ledger ctx) (hand : List Instr) (st : State) : Prop where
  sound : L.Sound (cellsOf (hand ++ ahead ctx.function st.emitted)) st
  nodup : ((hand ++ ahead ctx.function st.emitted).map (·.place.cell.id)).Nodup
  follower : L.Follower
  here : L.Local hand

/-- What all places together weigh. -/
def total (L : Ledger ctx) (hand : List Instr) (st : State) : Nat :=
  st.holds L.weight + ((hand ++ ahead ctx.function st.emitted).map L.due).sum

/-- A step that only takes something out emits no instruction. -/
theorem Steady.takes {hand : List Instr} {act : Step α} {held : α → Nat} {P : α → Prop} {a : α}
    (hst : L.Steady hand st) (h : L.Takes act held P) (hact : act ctx st = .ok (a, st')) :
    L.Steady hand st' ∧ st'.emitted = st.emitted ∧
      L.Meets (L.total hand st) (L.total hand st' + held a) := by
  obtain ⟨hsound, hemitted, hcount, _⟩ := h _ st a st' hst.sound hact
  refine ⟨{ hst with sound := hemitted ▸ hsound, nodup := hemitted ▸ hst.nodup }, hemitted, ?_⟩
  rw [total, total, hemitted, Nat.add_right_comm]
  exact hcount.add _

theorem Steady.instrs {hand : List Instr} {u : Unit} (hst : L.Steady hand st)
    (hact : emitInstrs hand ctx st = .ok (u, st')) :
    L.Steady [] st' ∧ st'.emitted = st.emitted ∧ L.Meets (L.total hand st) (L.total [] st') := by
  have hnodup := hst.nodup
  rw [List.map_append] at hnodup
  obtain ⟨hhand, hrest, -⟩ := List.nodup_append.1 hnodup
  have hcells : cellsOf hand ⊆ cellsOf (hand ++ ahead ctx.function st.emitted) :=
    fun c ⟨i, hi, hc⟩ => ⟨i, List.mem_append_left _ hi, hc⟩
  obtain ⟨hsound, hemitted, hcount, _⟩ := balanced_emitInstrs (L := L.nearby hand) hst.nodup
    (hst.here.admits hhand) st u st' (hst.sound.follow hcells) hact
  refine ⟨⟨hemitted ▸ hsound.unfollow hst.follower.far, hemitted ▸ hrest, hst.follower, local_nil⟩,
    hemitted, ?_⟩
  have hsame : L.Meets (st.holds L.weight + (hand.map L.due).sum) (st'.holds L.weight) :=
    ⟨hcount.enough, hcount.exactly⟩
  have hadd := hsame.add ((ahead ctx.function st.emitted).map L.due).sum
  rw [Nat.add_assoc, ← List.sum_append_nat, ← List.map_append] at hadd
  rwa [total, total, hemitted]

/-- A block gets at hand. -/
theorem Steady.mark {id : BlockId} {b : Block} (hst : L.Steady [] st)
    (hb : ctx.function.blocks.get? id = some b) (hid : st.emitted.contains id = false)
    (hbooks : Books st' = Books { st with emitted := KeySet.add st.emitted id }) :
    L.Steady b.instructions st' ∧ L.total b.instructions st' = L.total [] st := by
  have hperm := ahead_perm hb hid
  have hsound : L.Sound (cellsOf (b.instructions ++ ahead ctx.function (KeySet.add st.emitted id)))
      { st with emitted := KeySet.add st.emitted id } := by
    rw [← cellsOf_perm hperm]
    exact { hst.sound with }
  obtain ⟨hsound', hemitted, hcount⟩ := hsound.of_books hbooks
  refine ⟨⟨hemitted ▸ hsound', hemitted ▸ ?_, hst.follower, hst.follower.blocks id b hb⟩, ?_⟩
  · exact (hperm.map _).nodup_iff.1 hst.nodup
  · have hsum := (hperm.map L.due).sum_nat
    rw [total, hcount, hemitted, ← hsum]
    rfl

/-- A step emits the instructions at hand, and whole blocks.  Before it, waiting values are known to
weigh nothing if `settled`; behind it, they weigh nothing. -/
def Emits (L : Ledger ctx) (settled : Bool) (hand : List Instr) (act : Step α) (gain : Nat)
    (held : α → Nat) : Prop :=
  ∀ st a st', L.Steady hand st → (settled = true → Settled L.weight st) → act ctx st = .ok (a, st') →
    L.Steady [] st' ∧ Settled L.weight st' ∧ L.Meets (L.total hand st + gain) (L.total [] st' + held a)

namespace Emits

variable {settled : Bool} {hand : List Instr} {act : Step α} {next : α → Step β} {gain gain' : Nat}
  {held : α → Nat} {held' : β → Nat}

/-- What a step holds goes into the next one. -/
theorem bind (h : L.Emits settled hand act gain held)
    (h' : ∀ a, L.Emits true [] (next a) (held a + gain') held') :
    L.Emits settled hand (act >>= next) (gain + gain') held' := by
  intro st b st'' hst hpre hrun
  obtain ⟨a, st', hact, hnext⟩ := step_bind_eq_ok hrun
  obtain ⟨hst', hsettled, hcount⟩ := h st a st' hst hpre hact
  obtain ⟨hst'', hsettled', hcount'⟩ := h' a st' b st'' hst' (fun _ => hsettled) hnext
  exact ⟨hst'', hsettled', hcount.bind hcount'⟩

theorem gain_eq (h : L.Emits settled hand act gain held) (heq : gain = gain') :
    L.Emits settled hand act gain' held :=
  heq ▸ h

/-- What a step holds is all that the next one adds. -/
theorem pass (h : L.Emits settled hand act gain held)
    (h' : ∀ a, L.Emits true [] (next a) (held a) held') :
    L.Emits settled hand (act >>= next) gain held' :=
  h.bind fun a => (h' a).gain_eq (Nat.add_zero _).symm

/-- A step that adds nothing comes first. -/
theorem seq (h : L.Emits settled hand act 0 held)
    (h' : ∀ a, L.Emits true [] (next a) (held a + gain) held') :
    L.Emits settled hand (act >>= next) gain held' :=
  (h.bind h').gain_eq (Nat.zero_add gain)

theorem of_takes {P : α → Prop} (h : L.Takes act held P)
    (h' : ∀ a, L.Emits false hand (next a) (held a + gain) held') :
    L.Emits settled hand (act >>= next) gain held' := by
  intro st b st'' hst _ hrun
  obtain ⟨a, st', hact, hnext⟩ := step_bind_eq_ok hrun
  obtain ⟨hst', _, hcount⟩ := hst.takes h hact
  obtain ⟨hst'', hsettled', hcount'⟩ := h' a st' b st'' hst' nofun hnext
  refine ⟨hst'', hsettled', (hcount.add gain).trans ?_⟩
  rwa [Nat.add_assoc]

/-- The instructions at hand come first. -/
theorem of_instrs {next : Unit → Step β} (h : ∀ u, L.Emits false [] (next u) gain held') :
    L.Emits settled hand (emitInstrs hand >>= next) gain held' := by
  intro st b st'' hst _ hrun
  obtain ⟨u, st', hact, hnext⟩ := step_bind_eq_ok hrun
  obtain ⟨hst', _, hcount⟩ := hst.instrs hact
  obtain ⟨hst'', hsettled', hcount'⟩ := h u st' b st'' hst' nofun hnext
  exact ⟨hst'', hsettled', (hcount.add gain).trans hcount'⟩

/-- All waiting values are settled first. -/
theorem of_settled {next : Unit → Step β} (h : ∀ u, L.Emits true hand (next u) gain held') :
    L.Emits settled hand (settleEverything >>= next) gain held' := by
  intro st b st'' hst _ hrun
  obtain ⟨u, st', hact, hnext⟩ := step_bind_eq_ok hrun
  obtain ⟨hst', _, hcount⟩ := hst.takes (takes_settle fun _ => true) hact
  obtain ⟨hst'', hsettled', hcount'⟩ :=
    h u st' b st'' hst' (fun _ => settled_settleEverything hst.sound hact) hnext
  exact ⟨hst'', hsettled', (hcount.add gain).trans hcount'⟩

/-- A step that changes nothing in the books comes first. -/
theorem of_modify {change : State → State} {next : Unit → Step β}
    (hchange : ∀ st, Books (change st) = Books st) (h : ∀ u, L.Emits settled hand (next u) gain held') :
    L.Emits settled hand (modify change >>= next) gain held' := by
  intro st b st'' hst hpre hrun
  obtain ⟨u, st', hact, hnext⟩ := step_bind_eq_ok hrun
  obtain ⟨hst', _, hcount⟩ := hst.takes (takes_modify hchange) hact
  have hsettled (hsettled : settled = true) : Settled L.weight st' := by
    refine fun e he => hpre hsettled e ?_
    cases hact
    have hbooks := hchange st
    simp only [Books, Prod.mk.injEq] at hbooks
    exact hbooks.2.2.1 ▸ he
  obtain ⟨hst'', hsettled', hcount'⟩ := h u st' b st'' hst' hsettled hnext
  exact ⟨hst'', hsettled', (hcount.add gain).trans hcount'⟩

/-- A step that only looks at the state comes first. -/
theorem of_reading (hread : ∀ st a st', act ctx st = .ok (a, st') → st' = st)
    (h : ∀ a, L.Emits settled hand (next a) gain held') :
    L.Emits settled hand (act >>= next) gain held' := by
  intro st b st'' hst hpre hrun
  obtain ⟨a, st', hact, hnext⟩ := step_bind_eq_ok hrun
  obtain rfl := hread st a st' hact
  exact h a _ b st'' hst hpre hnext

theorem of_get {next : State → Step β} (h : ∀ st, L.Emits settled hand (next st) gain held') :
    L.Emits settled hand (get >>= next) gain held' :=
  of_reading (fun _ _ _ hrun => by cases hrun; rfl) h

theorem of_context {next : Context → Step β} (h : L.Emits settled hand (next ctx) gain held') :
    L.Emits settled hand (read >>= next) gain held' := by
  intro st b st'' hst hpre hrun
  obtain ⟨ctx', st', hact, hnext⟩ := step_bind_eq_ok hrun
  cases hact
  exact h st b st'' hst hpre hnext

theorem pure {a : α} (hgain : held a = gain) : L.Emits true [] (Pure.pure a) gain held := by
  intro st b st' hst hpre hrun
  cases hrun
  exact ⟨hst, hpre rfl, .of_eq (congrArg _ hgain)⟩

theorem throw (e : Error) : L.Emits settled hand (throw e : Step α) gain held := by
  intro st b st' _ _ hrun
  cases hrun

theorem push (s : Stmt) : L.Emits true [] (push s) (weigh L.weight s.marks) Nothing := by
  intro st u st' hst hpre hrun
  obtain ⟨rfl, rfl⟩ := Prod.mk.inj (Except.ok.inj ((push_run s st).symm.trans hrun))
  refine ⟨{ hst with sound := hst.sound.push s }, hpre rfl, .of_eq ?_⟩
  have hemitted : (st.push s).emitted = st.emitted := rfl
  simp only [total, holds_push, hemitted, Nothing]
  omega

theorem map {f : α → β} (h : L.Emits settled hand act gain held) (hf : ∀ a, held' (f a) = held a) :
    L.Emits settled hand (f <$> act) gain held' := by
  rw [map_eq_pure_bind]
  exact h.pass fun a => Emits.pure (hf a)

/-- Statements of a list of its own are held outside. -/
theorem inList (h : L.Emits settled hand act gain held) :
    L.Emits settled hand (inList act) gain fun r =>
      held r.1 + weigh L.weight (Stmt.marksAll r.2) := by
  intro st r st'' hst hpre hrun
  obtain ⟨st₀, st₁, hget, hrun⟩ := step_bind_eq_ok hrun
  cases hget
  obtain ⟨u, st₁, hset, hrun⟩ := step_bind_eq_ok hrun
  cases hset
  obtain ⟨a, st', hact, hrun⟩ := step_bind_eq_ok hrun
  cases hrun
  -- between instructions nothing is followed, so the statements around need not be known
  have hfar : ∀ {c : CellId} {P : Prop}, c ∈ L.near → P := fun hnear => by
    rw [hst.follower.far] at hnear
    cases hnear
  have hst₁ : L.Steady hand { st with
      out := [], region := st.region ++ [st.lastRegion + 1], lastRegion := st.lastRegion + 1 } :=
    { hst with sound := { hst.sound with near := fun _ _ => hfar } }
  obtain ⟨hst', hsettled, hcount⟩ := h _ a st' hst₁ hpre hact
  refine ⟨{ hst' with sound := { hst'.sound with near := fun _ _ => hfar } }, hsettled, ?_⟩
  have hadd := hcount.add (weigh L.weight (Stmt.marksAll st.out))
  simp only [total, State.holds, State.waiting, weigh_marksAll_reverse, Stmt.marksAll, weigh_nil]
    at hadd ⊢
  refine ⟨?_, fun hexact => ?_⟩
  · have := hadd.enough
    omega
  · have := hadd.exactly hexact
    omega

end Emits

/-! ## Structured code -/

section Structured

variable {emitBlock : BlockId → Step Unit}

theorem bordersLoop_run {block : BlockId} {b : Bool} (h : bordersLoop block ctx st = .ok (b, st')) :
    st' = st := by
  cases h
  rfl

theorem emits_goTo (hblock : ∀ id, L.Emits true [] (emitBlock id) 0 Nothing) (target : BlockId) :
    L.Emits true [] (goTo emitBlock target) 0 Nothing := by
  refine .of_get fun st => ?_
  split
  · exact Emits.push breakStmt
  · refine .of_reading (fun _ _ _ => bordersLoop_run) fun borders => ?_
    split
    · exact Emits.pure rfl
    · exact hblock target

/-- A block without instructions may be left out. -/
theorem emits_leaveOut {id : BlockId}
    (hempty : (ctx.function.blocks.get? id).any (·.instructions.isEmpty) = true) :
    L.Emits true [] (modify fun st => { st with emitted := KeySet.add st.emitted id } : Step Unit) 0
      Nothing := by
  intro st u st' hst hpre hrun
  cases hrun
  cases hid : st.emitted.contains id with
  | true =>
    have hsame : KeySet.add st.emitted id = st.emitted := by
      refine KeySet.ext_contains fun j => ?_
      rw [KeySet.contains_add]
      by_cases heq : j = id
      · simp [heq, hid]
      · simp [heq]
    dsimp only
    rw [hsame]
    exact ⟨hst, hpre rfl, .of_eq rfl⟩
  | false =>
    cases hb : ctx.function.blocks.get? id with
    | none =>
      rw [hb] at hempty
      cases hempty
    | some b =>
      have hnone : b.instructions = [] := by simpa [hb] using hempty
      have hmark : L.Steady b.instructions { st with emitted := KeySet.add st.emitted id } ∧ _ :=
        hst.mark hb hid rfl
      rw [hnone] at hmark
      exact ⟨hmark.1, hpre rfl, .of_eq hmark.2⟩

/-- What comes behind a conditional. -/
def emitBehind (emitBlock : BlockId → Step Unit) (isOurs : Bool) (fallthrough : BlockId) : Step Unit := do
  if isOurs && !(← bordersLoop fallthrough) then
    let f := (← read).function
    let isEmpty := (f.blocks.get? fallthrough).any (·.instructions.isEmpty)
    if !f.flow.isReachable fallthrough && isEmpty then
      modify fun st => { st with emitted := KeySet.add st.emitted fallthrough }
    else goTo emitBlock fallthrough

/-- The conditional of two arms, and what comes behind it. -/
def emitJoined (emitBlock : BlockId → Step Unit) (isOurs : Bool) (test : Expr) (fallthrough : BlockId)
    (first : List Stmt) (second : Option (List Stmt)) : Step Unit := do
  if isOurs then
    modify fun st => { st with reserved := st.reserved.erase fallthrough }
  match first, second with
  | [], some second => push (.ifElse Node.synthetic (negated test) (blockStmt second) none)
  | first, second => push (.ifElse Node.synthetic test (blockStmt first) (second.map blockStmt))
  emitBehind emitBlock isOurs fallthrough

/-- A conditional.  An empty first arm is left out. -/
def joinedStmt (test : Expr) : List Stmt → Option (List Stmt) → Stmt
  | [], some second => .ifElse Node.synthetic (negated test) (blockStmt second) none
  | first, second => .ifElse Node.synthetic test (blockStmt first) (second.map blockStmt)

theorem emitJoined_eq (emitBlock : BlockId → Step Unit) (isOurs : Bool) (test : Expr)
    (fallthrough : BlockId) (first : List Stmt) (second : Option (List Stmt)) :
    emitJoined emitBlock isOurs test fallthrough first second = (do
      if isOurs then
        modify fun st => { st with reserved := st.reserved.erase fallthrough }
      push (joinedStmt test first second)
      emitBehind emitBlock isOurs fallthrough) := by
  cases first with
  | nil =>
    cases second with
    | none => rfl
    | some second => rfl
  | cons s first => rfl

/-- A conditional is emitted arm by arm. -/
theorem emitIf_eq (emitBlock : BlockId → Step Unit) (test : Expr)
    (consequent alternate fallthrough : BlockId) :
    emitIf emitBlock test consequent alternate fallthrough = (do
      let isOurs := !(← get).reserved.contains fallthrough
      modify fun st => { st with reserved := KeySet.add st.reserved fallthrough }
      (if consequent == fallthrough then pure []
        else (·.2) <$> inList (goTo emitBlock consequent)) >>= fun first =>
      (if alternate == fallthrough then pure none
        else (some ·.2) <$> inList (goTo emitBlock alternate)) >>= fun second =>
      emitJoined emitBlock isOurs test fallthrough first second) := by
  rw [emitIf]
  split
  · split
    · rfl
    · rfl
  · split
    · rfl
    · rfl

theorem emits_emitBehind (hblock : ∀ id, L.Emits true [] (emitBlock id) 0 Nothing) (isOurs : Bool)
    (fallthrough : BlockId) : L.Emits true [] (emitBehind emitBlock isOurs fallthrough) 0 Nothing := by
  refine .of_reading (fun _ _ _ => bordersLoop_run) fun borders => ?_
  split
  · refine .of_context ?_
    dsimp only
    split
    case isTrue h => exact emits_leaveOut (Bool.and_eq_true_iff.1 h).2
    case isFalse => exact emits_goTo hblock fallthrough
  · exact Emits.pure rfl

theorem emits_emitJoined (hblock : ∀ id, L.Emits true [] (emitBlock id) 0 Nothing) (isOurs : Bool)
    (test : Expr) (fallthrough : BlockId) (first : List Stmt) (second : Option (List Stmt)) :
    L.Emits true [] (emitJoined emitBlock isOurs test fallthrough first second)
      (weigh L.weight (Stmt.marksOpt (second.map blockStmt)) +
        (weigh L.weight (Stmt.marksAll first) + weigh L.weight test.marks)) Nothing := by
  have hpush (s : Stmt) : L.Emits true [] (push s >>= fun _ => emitBehind emitBlock isOurs fallthrough)
      (weigh L.weight s.marks) Nothing :=
    (Emits.push s).pass fun _ => emits_emitBehind hblock isOurs fallthrough
  have hif : L.Emits true []
      (push (joinedStmt test first second) >>= fun _ => emitBehind emitBlock isOurs fallthrough)
      (weigh L.weight (Stmt.marksOpt (second.map blockStmt)) +
        (weigh L.weight (Stmt.marksAll first) + weigh L.weight test.marks)) Nothing := by
    refine (hpush _).gain_eq ?_
    rw [joinedStmt.eq_def]
    split
    · simp only [Stmt.marks, Stmt.marksOpt, Stmt.marksAll, Option.map_some, negated, blockStmt,
        Expr.marks, weigh_append, weigh_nil]
      omega
    · simp only [Stmt.marks, blockStmt, weigh_append]
      omega
  rw [emitJoined_eq]
  split
  · exact .of_modify (fun _ => rfl) fun _ => hif
  · exact hif

theorem emits_emitIf (hblock : ∀ id, L.Emits true [] (emitBlock id) 0 Nothing) (test : Expr)
    (consequent alternate fallthrough : BlockId) :
    L.Emits true [] (emitIf emitBlock test consequent alternate fallthrough) (weigh L.weight test.marks)
      Nothing := by
  have hfirst : L.Emits true []
      (if consequent == fallthrough then pure []
        else (·.2) <$> inList (goTo emitBlock consequent)) 0
      (fun first => weigh L.weight (Stmt.marksAll first)) := by
    split
    · exact Emits.pure rfl
    · exact (emits_goTo hblock consequent).inList.map fun r => (Nat.zero_add _).symm
  have hsecond : L.Emits true []
      (if alternate == fallthrough then pure none
        else (some ·.2) <$> inList (goTo emitBlock alternate)) 0
      (fun second => weigh L.weight (Stmt.marksOpt (second.map blockStmt))) := by
    split
    · exact Emits.pure rfl
    · exact (emits_goTo hblock alternate).inList.map fun r => (Nat.zero_add _).symm
  rw [emitIf_eq]
  refine .of_get fun st => .of_modify (fun _ => rfl) fun _ => ?_
  exact hfirst.seq fun first => hsecond.seq fun second => emits_emitJoined hblock _ test _ first second

theorem emits_emitLoopBody (hblock : ∀ id, L.Emits true [] (emitBlock id) 0 Nothing) (header : Block)
    (test : Place) (consequent : BlockId) :
    L.Emits true header.instructions (emitLoopBody emitBlock header test consequent) 0
      (fun test => weigh L.weight test.marks) := by
  refine .of_instrs fun _ => .of_takes (takes_take test) fun t => .of_settled fun _ => .of_get fun st => ?_
  split
  · exact (emits_goTo hblock consequent).seq fun _ => Emits.pure (Nat.zero_add _).symm
  · refine (Emits.push _).gain_eq ?_ |>.pass fun _ => (emits_goTo hblock consequent).seq fun _ => Emits.pure rfl
    simp only [Stmt.marks, Stmt.marksOpt, Stmt.marksAll, negated, blockStmt, breakStmt, Expr.marks,
      weigh_append, weigh_nil]

theorem emits_emitLoop (hblock : ∀ id, L.Emits true [] (emitBlock id) 0 Nothing) (id : BlockId)
    (header : Block) : L.Emits false header.instructions (emitLoop emitBlock id header) 0 Nothing := by
  rw [emitLoop]
  split
  · refine .of_settled fun _ => .of_modify (fun _ => rfl) fun _ =>
      (emits_emitLoopBody hblock header _ _).inList.seq fun r => .of_modify (fun _ => rfl) fun _ => ?_
    refine Emits.gain_eq ((Emits.push _).pass fun _ => emits_goTo hblock _) ?_
    simp only [Stmt.marks, blockStmt, weigh_append, Nat.add_zero]
  · exact Emits.throw _

theorem emits_emitTerminal (hblock : ∀ id, L.Emits true [] (emitBlock id) 0 Nothing) (id : BlockId)
    (terminal : Option Terminal) : L.Emits false [] (emitTerminal emitBlock id terminal) 0 Nothing := by
  cases terminal with
  | none => exact Emits.throw _
  | some terminal =>
    cases terminal with
    | jump target => exact .of_settled fun _ => emits_goTo hblock target
    | branch test consequent alternate fallthrough =>
      refine .of_takes (takes_take test) fun t => .of_settled fun _ => ?_
      exact emits_emitIf hblock t.expr consequent alternate fallthrough
    | ret value =>
      cases value with
      | none =>
        refine .of_settled fun _ => .of_get fun st => .of_context ?_
        dsimp only
        split
        · exact Emits.push _
        · exact Emits.pure rfl
      | some value =>
        exact .of_takes (takes_take value) fun v => .of_settled fun _ => Emits.push _

/-- What a block holds is emitted inside a loop or as it stands. -/
theorem emits_code (hblock : ∀ id, L.Emits true [] (emitBlock id) 0 Nothing) (id : BlockId) (b : Block)
    (edge : Option BlockId) :
    L.Emits false b.instructions
      (match edge with
      | some _ => emitLoop emitBlock id b
      | none => do
        emitInstrs b.instructions
        emitTerminal emitBlock id b.terminal) 0 Nothing := by
  cases edge with
  | some _ => exact emits_emitLoop hblock id b
  | none => exact .of_instrs fun _ => emits_emitTerminal hblock id b.terminal

end Structured

/-- Emitting a block emits its instructions and those of the blocks behind it. -/
theorem emits_emitBlock (fuel : Nat) (id : BlockId) {u : Unit} (hst : L.Steady [] st)
    (hpre : st.emitted.contains id = true → Settled L.weight st)
    (hrun : emitBlock fuel id ctx st = .ok (u, st')) :
    L.Steady [] st' ∧ Settled L.weight st' ∧ L.Meets (L.total [] st) (L.total [] st') := by
  induction fuel generalizing id st st' with
  | zero => cases hrun
  | succ fuel ih =>
    have hblock (id : BlockId) : L.Emits true [] (emitBlock fuel id) 0 Nothing :=
      fun st u st' hst hsettled hrun => ih id hst (fun _ => hsettled rfl) hrun
    rw [emitBlock] at hrun
    obtain ⟨st₀, st₁, hget, hrun⟩ := step_bind_eq_ok hrun
    cases hget
    cases hid : st.emitted.contains id with
    | true =>
      rw [hid] at hrun
      cases hrun
      exact ⟨hst, hpre hid, .of_eq rfl⟩
    | false =>
      rw [hid] at hrun
      obtain ⟨u₁, st₁, hmark, hrun⟩ := step_bind_eq_ok hrun
      obtain ⟨ctx', st₂, hread, hrun⟩ := step_bind_eq_ok hrun
      cases hread
      dsimp only at hrun
      cases hb : ctx.function.blocks.get? id with
      | none =>
        rw [hb] at hrun
        cases hrun
      | some b =>
        rw [hb] at hrun
        have hbooks : Books st₁ = Books { st with emitted := KeySet.add st.emitted id } := by
          cases hmark
          rfl
        obtain ⟨hst₁, hcount⟩ := hst.mark hb hid hbooks
        obtain ⟨edge, st₂, hedge, hrun⟩ := step_bind_eq_ok hrun
        rw [← hcount]
        cases hflow : ctx.function.flow.backEdge id with
        | error e =>
          rw [hflow] at hedge
          cases hedge
        | ok r =>
          rw [hflow] at hedge
          cases hedge
          exact emits_code hblock id b edge _ u st' hst₁ (by simp) hrun

end Ledger

end Whittle.Emit
