import Mathlib.Tactic.Common
import Whittle.Proofs.Lowering.Sound

/-!
# Lowering is a sequence of steps

The walk over the tree takes no other steps than those of `Step`.  An expression leaves the plan as it
was and stays in its block (`Keeps`); a statement leaves the plan as it was and may end in another
block (`Moves`).
-/

namespace Whittle.Lowering

open Ir Syntax

/-! ## Runs -/

/-- Steps lead from one state to another, whatever is around. -/
def Goes (s : State) (plan : Plan) (s' : State) (plan' : Plan) : Prop :=
  ∀ saved home, Sound ⟨s, plan, saved, home⟩ →
    ∃ home', Steps ⟨s, plan, saved, home⟩ ⟨s', plan', saved, home'⟩

theorem Goes.refl (s : State) (plan : Plan) : Goes s plan s plan := fun _ home _ => ⟨home, .refl⟩

theorem Goes.trans {s s' s'' : State} {plan plan' plan'' : Plan} (h : Goes s plan s' plan')
    (h' : Goes s' plan' s'' plan'') : Goes s plan s'' plan'' := by
  intro saved home hsound
  obtain ⟨home', hsteps⟩ := h saved home hsound
  obtain ⟨home'', hsteps'⟩ := h' saved home' (hsound.steps hsteps)
  exact ⟨home'', hsteps.trans hsteps'⟩

theorem Goes.of_step {s s' : State} {plan plan' : Plan}
    (h : ∀ saved home, Sound ⟨s, plan, saved, home⟩ →
      ∃ home', Step ⟨s, plan, saved, home⟩ ⟨s', plan', saved, home'⟩) : Goes s plan s' plan' := by
  intro saved home hsound
  obtain ⟨home', hstep⟩ := h saved home hsound
  exact ⟨home', .single hstep⟩

theorem Goes.of_quiet {s s' : State} (h : Quiet s s') (plan : Plan) : Goes s plan s' plan :=
  .of_step fun _ home _ => ⟨home, .quiet h⟩

/-- The function being filled is the same, with the same loops around. -/
structure Same (s s' : State) : Prop where
  function : s'.frame.function.id = s.frame.function.id
  entry : s'.frame.function.entry = s.frame.function.entry
  inHeader : s'.frame.inHeader = s.frame.inHeader
  exits : s'.frame.loops.map (·.exit) = s.frame.loops.map (·.exit)

theorem Same.refl (s : State) : Same s s := ⟨rfl, rfl, rfl, rfl⟩

theorem Same.trans {s s' s'' : State} (h : Same s s') (h' : Same s' s'') : Same s s'' :=
  ⟨h'.function.trans h.function, h'.entry.trans h.entry, h'.inHeader.trans h.inHeader,
    h'.exits.trans h.exits⟩

theorem Quiet.same {s s' : State} (h : Quiet s s') : Same s s' := by
  obtain ⟨_, hfunction⟩ := h.function
  exact ⟨by rw [hfunction], by rw [hfunction], h.inHeader, h.exits⟩

variable {α β : Type}

/-- Runs of an action leave the plan as it was, in the same block. -/
def Keeps (act : Lower α) : Prop :=
  ∀ s a s', act s = .ok (a, s') → Same s s' ∧ s'.frame.block = s.frame.block ∧
    ∀ reserved heads, Goes s ⟨reserved, heads, [], none⟩ s' ⟨reserved, heads, [], none⟩

/-- Runs of an action leave the plan as it was. -/
def Moves (act : Lower α) : Prop :=
  ∀ s a s', act s = .ok (a, s') → s.frame.inHeader = false → Same s s' ∧
    ∀ reserved heads, Goes s ⟨reserved, heads, [], none⟩ s' ⟨reserved, heads, [], none⟩

theorem bind_eq_ok {act : Lower α} {next : α → Lower β} {s s'' : State} {b : β}
    (h : (act >>= next) s = .ok (b, s'')) :
    ∃ a s', act s = .ok (a, s') ∧ next a s' = .ok (b, s'') := by
  change (act s >>= fun p => next p.1 p.2) = _ at h
  cases hact : act s with
  | error e =>
    rw [hact] at h
    cases h
  | ok p =>
    rw [hact] at h
    exact ⟨p.1, p.2, rfl, h⟩

theorem pure_run {a a' : α} {s s' : State} (h : (pure a : Lower α) s = .ok (a', s')) :
    a' = a ∧ s' = s := by
  obtain ⟨ha, hs⟩ := Prod.mk.inj (Except.ok.inj h)
  exact ⟨ha.symm, hs.symm⟩

theorem Keeps.bind {act : Lower α} {next : α → Lower β} (h : Keeps act) (h' : ∀ a, Keeps (next a)) :
    Keeps (act >>= next) := by
  intro s b s'' hrun
  obtain ⟨a, s', hact, hnext⟩ := bind_eq_ok hrun
  obtain ⟨hsame, hblock, hgoes⟩ := h s a s' hact
  obtain ⟨hsame', hblock', hgoes'⟩ := h' a s' b s'' hnext
  exact ⟨hsame.trans hsame', hblock'.trans hblock, fun reserved heads =>
    (hgoes reserved heads).trans (hgoes' reserved heads)⟩

theorem Keeps.moves {act : Lower α} (h : Keeps act) : Moves act := fun s a s' hrun _ =>
  ⟨(h s a s' hrun).1, (h s a s' hrun).2.2⟩

theorem Moves.bind {act : Lower α} {next : α → Lower β} (h : Moves act) (h' : ∀ a, Moves (next a)) :
    Moves (act >>= next) := by
  intro s b s'' hrun hheader
  obtain ⟨a, s', hact, hnext⟩ := bind_eq_ok hrun
  obtain ⟨hsame, hgoes⟩ := h s a s' hact hheader
  obtain ⟨hsame', hgoes'⟩ := h' a s' b s'' hnext (hsame.inHeader.trans hheader)
  exact ⟨hsame.trans hsame', fun reserved heads => (hgoes reserved heads).trans (hgoes' reserved heads)⟩

theorem Quiet.refl (s : State) : Quiet s s where
  env := ⟨_, _, rfl, fun _ hd => hd⟩
  scopes _ hd := .inl hd
  function := ⟨_, rfl⟩
  block := rfl
  filled := rfl
  inHeader := rfl
  exits := rfl
  unclaimed _ hd := hd
  functions := rfl

theorem Quiet.declares {s s' : State} (h : Quiet s s') (d : DeclId) :
    s'.env.declares d = s.env.declares d := by
  obtain ⟨_, _, henv, -⟩ := h.env
  rw [henv]
  rfl

theorem Quiet.trans {s s' s'' : State} (h : Quiet s s') (h' : Quiet s' s'') : Quiet s s'' where
  env := by
    obtain ⟨captured, functions, henv, hcaptured⟩ := h.env
    obtain ⟨captured', functions', henv', hcaptured'⟩ := h'.env
    refine ⟨captured', functions', by rw [henv', henv], fun d hd => hcaptured' d ?_⟩
    rw [henv]
    exact hcaptured d hd
  scopes d hd := by
    rcases h'.scopes d hd with hd | hd
    · exact h.scopes d hd
    · exact .inr (h.declares d ▸ hd)
  function := by
    obtain ⟨_, hfunction⟩ := h.function
    obtain ⟨isConcise, hfunction'⟩ := h'.function
    exact ⟨isConcise, by rw [hfunction', hfunction]⟩
  block := h'.block.trans h.block
  filled := h'.filled.trans h.filled
  inHeader := h'.inHeader.trans h.inHeader
  exits := h'.exits.trans h.exits
  unclaimed d hd := h.unclaimed d (h'.unclaimed d hd)
  functions := h'.functions.trans h.functions

/-! ## Looking things up -/

/-- Runs of an action are quiet. -/
def IsQuiet (act : Lower α) : Prop := ∀ s a s', act s = .ok (a, s') → Quiet s s'

theorem IsQuiet.keeps {act : Lower α} (h : IsQuiet act) : Keeps act := by
  intro s a s' hrun
  have hquiet := h s a s' hrun
  exact ⟨hquiet.same, hquiet.block, fun _ _ => .of_quiet hquiet _⟩

theorem IsQuiet.bind {act : Lower α} {next : α → Lower β} (h : IsQuiet act)
    (h' : ∀ a, IsQuiet (next a)) : IsQuiet (act >>= next) := by
  intro s b s'' hrun
  obtain ⟨a, s', hact, hnext⟩ := bind_eq_ok hrun
  exact (h s a s' hact).trans (h' a s' b s'' hnext)

theorem isQuiet_pure (a : α) : IsQuiet (pure a : Lower α) := by
  intro s a' s' hrun
  obtain ⟨-, rfl⟩ := pure_run hrun
  exact .refl s'

theorem isQuiet_get : IsQuiet (get : Lower State) := by
  intro s a s' hrun
  cases hrun
  exact .refl s

theorem isQuiet_throw (e : Error) : IsQuiet (throw e : Lower α) := by
  intro s a s' hrun
  cases hrun

theorem isQuiet_getFrame : IsQuiet getFrame := isQuiet_get.bind fun _ => isQuiet_pure _

theorem isQuiet_lookUp (name : String) : IsQuiet (lookUp name) :=
  isQuiet_get.bind fun _ => isQuiet_pure _

theorem isQuiet_declared (name : String) : IsQuiet (declared name) := by
  refine (isQuiet_lookUp name).bind fun d => ?_
  cases d with
  | some d => exact isQuiet_pure d
  | none => exact isQuiet_throw _

theorem isQuiet_declaredAll (names : List String) : IsQuiet (declaredAll names) := by
  induction names with
  | nil => exact isQuiet_pure _
  | cons name names ih =>
    exact (isQuiet_declared name).bind fun _ => ih.bind fun _ => isQuiet_pure _

theorem isQuiet_isOwn (d : DeclId) : IsQuiet (isOwn d) :=
  isQuiet_get.bind fun _ => isQuiet_getFrame.bind fun _ => isQuiet_pure _

theorem isQuiet_isTooEarly (d : DeclId) : IsQuiet (isTooEarly d) :=
  (isQuiet_isOwn d).bind fun _ => isQuiet_getFrame.bind fun _ => isQuiet_pure _

theorem isQuiet_ownVersion (d : DeclId) (failure : String) : IsQuiet (ownVersion d failure) := by
  refine isQuiet_getFrame.bind fun frame => ?_
  cases frame.versions.get? d with
  | some place => exact isQuiet_pure place
  | none => exact isQuiet_throw _

theorem isQuiet_capture (d : DeclId) : IsQuiet (capture d) := by
  intro s u s' hrun
  cases hrun
  refine { Quiet.refl s with env := ⟨_, _, rfl, fun x hx => ?_⟩ }
  rw [KeySet.contains_add, hx, Bool.or_true]

theorem isQuiet_readVersion (name : String) (d : DeclId) : IsQuiet (readVersion name d) := by
  refine (isQuiet_isOwn d).bind fun own => ?_
  cases own with
  | true =>
    refine (isQuiet_isTooEarly d).bind fun early => ?_
    cases early with
    | true => exact (isQuiet_throw _).bind fun _ => isQuiet_ownVersion _ _
    | false => exact isQuiet_ownVersion _ _
  | false =>
    refine (isQuiet_capture d).bind fun _ => isQuiet_get.bind fun s => ?_
    cases s.outerVersion? d with
    | some place => exact isQuiet_pure place
    | none => exact isQuiet_throw _

theorem isQuiet_captureAll (exclude : Option DeclId) (names : List String) :
    IsQuiet (captureAll exclude names) := by
  induction names with
  | nil => exact isQuiet_pure _
  | cons name names ih =>
    unfold captureAll
    refine (isQuiet_lookUp name).bind fun found => ?_
    cases found with
    | none => exact ih
    | some d =>
      by_cases hexclude : (some d == exclude) = true
      · simp only [hexclude, if_true]
        exact ih
      · simp only [hexclude]
        refine (isQuiet_capture d).bind fun _ => (isQuiet_isTooEarly d).bind fun early => ?_
        cases early with
        | true => exact (isQuiet_ownVersion _ _).bind fun _ => ih.bind fun _ => isQuiet_pure _
        | false => exact (isQuiet_readVersion _ _).bind fun _ => ih.bind fun _ => isQuiet_pure _

theorem keeps_pure (a : α) : Keeps (pure a : Lower α) := (isQuiet_pure a).keeps

/-! ## Instructions -/

theorem put_run {place : Place} {op : Op} {origin : Option Nat} {s s' : State} {a : InstrId}
    (h : put place op origin s = .ok (a, s')) : s' = s.put place op origin := by
  have hrun : put place op origin s = .ok (s.env.nextInstr, s.put place op origin) := rfl
  rw [hrun] at h
  exact (Prod.mk.inj (Except.ok.inj h)).2.symm

theorem emit_run {op : Op} {origin : Option Nat} {s s' : State} {a : Place}
    (h : emit op origin s = .ok (a, s')) : s' = s.emit op origin := by
  have hrun : emit op origin s = .ok (s.temporary, s.emit op origin) := rfl
  rw [hrun] at h
  exact (Prod.mk.inj (Except.ok.inj h)).2.symm

theorem same_put (place : Place) (op : Op) (origin : Option Nat) (s : State) :
    Same s (s.put place op origin) ∧ (s.put place op origin).frame.block = s.frame.block := by
  obtain ⟨header, filled, heq⟩ := s.frame.put_eq (s.env.newInstrAt place origin op).1
  have hframe : (s.put place op origin).frame = _ := heq
  exact ⟨⟨by rw [hframe], by rw [hframe], by rw [hframe], by rw [hframe]⟩, by rw [hframe]⟩

theorem same_emit (op : Op) (origin : Option Nat) (s : State) :
    Same s (s.emit op origin) ∧ (s.emit op origin).frame.block = s.frame.block := by
  obtain ⟨hsame, hblock⟩ := same_put s.temporary op origin
    { s with env := (s.env.newTemporary s.frame.function.id).2 }
  exact ⟨⟨hsame.function, hsame.entry, hsame.inHeader, hsame.exits⟩, hblock⟩

theorem keeps_emit {op : Op} (origin : Option Nat) (hop : op.target? = none) :
    Keeps (emit op origin) := by
  intro s a s' hrun
  obtain rfl := emit_run hrun
  obtain ⟨hsame, hblock⟩ := same_emit op origin s
  exact ⟨hsame, hblock, fun _ _ => .of_step fun _ home _ => ⟨home, .emit op origin hop⟩⟩

theorem keeps_addExport (exported : String) (id : InstrId) : Keeps (addExport exported id) := by
  refine IsQuiet.keeps fun s _ s' hrun => ?_
  cases hrun
  exact { Quiet.refl s with }

theorem keeps_emitExport {op : Op} (exported : String) (origin : Option Nat)
    (hop : op.target? = none) : Keeps (emitExport op exported origin) := by
  have heq : emitExport op exported origin = (do
      let id := (← get).env.nextInstr
      let place ← emit op origin
      addExport exported id
      pure place) := rfl
  rw [heq]
  exact isQuiet_get.keeps.bind fun _ => (keeps_emit origin hop).bind fun _ =>
    (keeps_addExport _ _).bind fun _ => keeps_pure _

theorem keeps_keepExpr (e : Expr) : Keeps (keepExpr e) :=
  (isQuiet_captureAll _ _).keeps.bind fun _ => keeps_emit _ rfl

theorem keeps_loadName (ident : Ident) : Keeps (loadName ident) := by
  unfold loadName
  refine (isQuiet_lookUp _).keeps.bind fun found => ?_
  cases found with
  | some d => exact (isQuiet_readVersion _ _).keeps.bind fun _ => keeps_emit _ rfl
  | none =>
    refine isQuiet_get.keeps.bind fun s => ?_
    split
    · exact keeps_emit _ rfl
    · exact keeps_emit _ rfl

/-! ## Versions -/

/-- Runs of an action end with a version to be written. -/
def Readies (act : Lower Place) : Prop :=
  ∀ s place s', act s = .ok (place, s') → Same s s' ∧ s'.frame.block = s.frame.block ∧ ∃ d,
    ∀ reserved heads, Goes s ⟨reserved, heads, [], none⟩ s' ⟨reserved, heads, [], some (d, place)⟩

/-- Instructions that store into the version. -/
theorem Readies.store {act : Lower Place} (h : Readies act) {op : Place → Op}
    (hop : ∀ place, (op place).target? = some place) (origin : Option Nat) :
    Keeps (act >>= fun place => emit (op place) origin) := by
  intro s a s'' hrun
  obtain ⟨place, s', hact, hemit⟩ := bind_eq_ok hrun
  obtain ⟨hsame, hblock, d, hgoes⟩ := h s place s' hact
  obtain rfl := emit_run hemit
  obtain ⟨hsame', hblock'⟩ := same_emit (op place) origin s'
  refine ⟨hsame.trans hsame', hblock'.trans hblock, fun reserved heads => ?_⟩
  exact (hgoes reserved heads).trans
    (.of_step fun _ home _ => ⟨home, .store (op place) origin (hop place)⟩)

/-- Instructions that define the version. -/
theorem Readies.put {act : Lower Place} (h : Readies act) {op : Op} (hop : op.target? = none)
    (origin : Option Nat) : Keeps (do
      let place ← act
      let _ ← put place op origin
      pure place) := by
  intro s a s'' hrun
  obtain ⟨place, s', hact, hrun⟩ := bind_eq_ok hrun
  obtain ⟨hsame, hblock, d, hgoes⟩ := h s place s' hact
  obtain ⟨i, s₁, hput, hpure⟩ := bind_eq_ok hrun
  obtain rfl := put_run hput
  obtain ⟨-, rfl⟩ := pure_run hpure
  obtain ⟨hsame', hblock'⟩ := same_put place op origin s'
  refine ⟨hsame.trans hsame', hblock'.trans hblock, fun reserved heads => ?_⟩
  exact (hgoes reserved heads).trans (.of_step fun _ home _ => ⟨home, .bind op origin hop⟩)

theorem newVersion_run (d : DeclId) (s : State) :
    newVersion d s = .ok (s.version d, s.withVersion d) := by
  have hrun : newVersion d s =
      (if ((s.env.newPlace d).2.record d s.frame.block (s.version d)).ownerOf d ==
          some s.frame.function.id then do
        onFrame fun frame => { frame with versions := frame.versions.insert d (s.version d) }
        pure (s.version d)
      else do
        capture d
        pure (s.version d) : Lower Place)
        { s with env := (s.env.newPlace d).2.record d s.frame.block (s.version d) } := rfl
  rw [hrun, State.withVersion]
  simp only
  split <;> rfl

theorem same_withVersion (d : DeclId) (s : State) :
    Same s (s.withVersion d) ∧ (s.withVersion d).frame.block = s.frame.block := by
  obtain ⟨captured, versions, heq, -⟩ := s.withVersion_eq d
  rw [heq]
  exact ⟨⟨rfl, rfl, rfl, rfl⟩, rfl⟩

theorem declares_of_find? {c : Config} (h : Sound c) {name : String} {d : DeclId}
    (hfind : Scopes.find? c.state.scopes name = some d) : c.state.env.declares d = true := by
  obtain ⟨scope, hscope, hget⟩ := List.exists_of_findSome?_eq_some hfind
  exact h.scopes d ⟨scope, hscope, name, hget⟩

theorem declared_run {name : String} {d : DeclId} {s s' : State}
    (h : declared name s = .ok (d, s')) : s' = s ∧ Scopes.find? s.scopes name = some d := by
  unfold declared at h
  obtain ⟨found, s₁, hlookUp, h⟩ := bind_eq_ok h
  cases hlookUp
  cases hfind : Scopes.find? s.scopes name with
  | none =>
    rw [hfind] at h
    cases h
  | some found =>
    rw [hfind] at h
    cases h
    exact ⟨rfl, rfl⟩

/-- A version of a name that is bound already. -/
theorem readies_newVersion (name : String) : Readies (declared name >>= newVersion) := by
  intro s place s' hrun
  obtain ⟨d, s₁, hdeclared, hversion⟩ := bind_eq_ok hrun
  obtain ⟨rfl, hfind⟩ := declared_run hdeclared
  rw [newVersion_run] at hversion
  cases hversion
  obtain ⟨hsame, hblock⟩ := same_withVersion d s₁
  refine ⟨hsame, hblock, d, fun _ _ => .of_step fun _ home hsound => ⟨home, ?_⟩⟩
  exact .version d (declares_of_find? hsound hfind) (by simp)

theorem quiet_assigned (s : State) (d : DeclId) : Quiet s (s.assigned d) := by
  refine { Quiet.refl s with unclaimed := fun x hx => ?_ }
  change (s.frame.unclaimed.erase d).contains x = true at hx
  rw [Table.contains_erase, Bool.and_eq_true] at hx
  exact hx.2

/-- A declaring occurrence takes the first version or a new one. -/
theorem bindingPlace_run {d : DeclId} {s s' : State} {place : Place}
    (h : bindingPlace d s = .ok (place, s')) :
    (s.env.versionsOf d = [⟨s.frame.block, place⟩] ∧ s.frame.unclaimed.contains d = true ∧
      s' = s.assigned d) ∨
      (place = (s.assigned d).version d ∧ s' = (s.assigned d).withVersion d) := by
  unfold bindingPlace at h
  obtain ⟨frame, s₁, hframe, h⟩ := bind_eq_ok h
  cases hframe
  obtain ⟨u, s₁, herase, h⟩ := bind_eq_ok h
  cases herase
  obtain ⟨s₂, s₁, hget, h⟩ := bind_eq_ok h
  cases hget
  have hnew (h : newVersion d (s.assigned d) = .ok (place, s')) :
      place = (s.assigned d).version d ∧ s' = (s.assigned d).withVersion d := by
    rw [newVersion_run] at h
    cases h
    exact ⟨rfl, rfl⟩
  cases hversions : s.env.versionsOf d with
  | nil =>
    simp only [hversions] at h
    exact .inr (hnew h)
  | cons only rest =>
    cases rest with
    | cons _ _ =>
      simp only [hversions] at h
      exact .inr (hnew h)
    | nil =>
      simp only [hversions] at h
      by_cases hclaim : (s.frame.unclaimed.contains d && only.block == s.frame.block) = true
      · rw [if_pos hclaim] at h
        rw [Bool.and_eq_true, beq_iff_eq] at hclaim
        cases h
        exact .inl ⟨by rw [← hclaim.2], hclaim.1, rfl⟩
      · rw [if_neg hclaim] at h
        exact .inr (hnew h)

theorem same_bindingPlace {d : DeclId} {s s' : State} {place : Place}
    (h : bindingPlace d s = .ok (place, s')) : Same s s' ∧ s'.frame.block = s.frame.block := by
  rcases bindingPlace_run h with ⟨-, -, rfl⟩ | ⟨-, rfl⟩
  · exact ⟨(quiet_assigned s d).same, rfl⟩
  · obtain ⟨hsame, hblock⟩ := same_withVersion d (s.assigned d)
    exact ⟨(quiet_assigned s d).same.trans hsame, hblock⟩

theorem steps_bindingPlace {d : DeclId} {s s' : State} {place : Place}
    (h : bindingPlace d s = .ok (place, s')) (hd : s.env.declares d = true) (reserved heads : List BlockId)
    (saved : List (Frame × Plan)) (home : Table BlockId FuncId) :
    Steps ⟨s, ⟨reserved, heads, [], none⟩, saved, home⟩
      ⟨s', ⟨reserved, heads, [], some (d, place)⟩, saved, home⟩ := by
  rcases bindingPlace_run h with ⟨honly, hunclaimed, rfl⟩ | ⟨rfl, rfl⟩
  · exact .single (.claim honly hunclaimed)
  · exact (Relation.ReflTransGen.single (.quiet (quiet_assigned s d))).tail
      (.version d hd (by simp))

theorem readies_bindingPlace (name : String) : Readies (declared name >>= bindingPlace) := by
  intro s place s' hrun
  obtain ⟨d, s₁, hdeclared, hbind⟩ := bind_eq_ok hrun
  obtain ⟨rfl, hfind⟩ := declared_run hdeclared
  obtain ⟨hsame, hblock⟩ := same_bindingPlace hbind
  refine ⟨hsame, hblock, d, fun reserved heads saved home hsound => ⟨home, ?_⟩⟩
  exact steps_bindingPlace hbind (declares_of_find? hsound hfind) reserved heads saved home

theorem isTooEarly_run {d : DeclId} {s s' : State} {early : Bool}
    (h : isTooEarly d s = .ok (early, s')) : s' = s := by
  have hrun : isTooEarly d s = .ok ((s.env.ownerOf d == some s.frame.function.id) &&
      s.frame.uninitialized.contains d, s) := rfl
  rw [hrun] at h
  exact (Prod.mk.inj (Except.ok.inj h)).2.symm

theorem keeps_storeName (ident : Ident) (value : Place) (origin : Option Nat) :
    Keeps (storeName ident value origin) := by
  intro s a s' hrun
  unfold storeName at hrun
  obtain ⟨found, s₁, hlookUp, hrun⟩ := bind_eq_ok hrun
  cases hlookUp
  cases hfind : Scopes.find? s.scopes ident.name with
  | none =>
    rw [hfind] at hrun
    exact keeps_emit origin rfl s a s' hrun
  | some d =>
    rw [hfind] at hrun
    obtain ⟨early, s₁, hearly, hrun⟩ := bind_eq_ok hrun
    obtain rfl := isTooEarly_run hearly
    cases early with
    | true => cases hrun
    | false =>
      simp only [Bool.false_eq_true, if_false] at hrun
      obtain ⟨target, s₁, hversion, hemit⟩ := bind_eq_ok hrun
      rw [newVersion_run] at hversion
      cases hversion
      obtain rfl := emit_run hemit
      have hsame := same_withVersion d s₁
      have hsame' := same_emit (.storeLocal (s₁.version d) value .reassign) origin (s₁.withVersion d)
      refine ⟨hsame.1.trans hsame'.1, hsame'.2.trans hsame.2, fun reserved heads => ?_⟩
      have hready : Goes s₁ ⟨reserved, heads, [], none⟩ (s₁.withVersion d)
          ⟨reserved, heads, [], some (d, s₁.version d)⟩ :=
        .of_step fun _ home hsound => ⟨home, .version d (declares_of_find? hsound hfind) (by simp)⟩
      exact hready.trans (.of_step fun _ home _ => ⟨home, .store _ origin rfl⟩)

/-! ## Declarations -/

/-- Runs of an action leave the plan as it was, even if functions are yet to be built. -/
def KeepsHoisted (act : Lower α) : Prop :=
  ∀ s a s', act s = .ok (a, s') → Same s s' ∧ s'.frame.block = s.frame.block ∧
    ∀ reserved heads hoisted,
      Goes s ⟨reserved, heads, hoisted, none⟩ s' ⟨reserved, heads, hoisted, none⟩

theorem KeepsHoisted.keeps {act : Lower α} (h : KeepsHoisted act) : Keeps act := by
  intro s a s' hrun
  obtain ⟨hsame, hblock, hgoes⟩ := h s a s' hrun
  exact ⟨hsame, hblock, fun reserved heads => hgoes reserved heads []⟩

theorem newDeclaration_run (name : String) (kind : DeclKind) (s : State) :
    newDeclaration name kind s = .ok (s.nextDeclaration, s.declare name kind) := rfl

theorem onScopes_run {change : Scopes → Option Scopes} {s s' : State} {u : Unit}
    (h : onScopes change s = .ok (u, s')) :
    ∃ scopes, change s.scopes = some scopes ∧ s' = { s with scopes } := by
  unfold onScopes at h
  obtain ⟨s₁, s₂, hget, h⟩ := bind_eq_ok h
  cases hget
  cases hchange : change s.scopes with
  | none =>
    rw [hchange] at h
    cases h
  | some scopes =>
    rw [hchange] at h
    cases h
    exact ⟨scopes, rfl, rfl⟩

/-- Scopes that bind nothing new but the given declaration. -/
def Scopes.BindsOnly (scopes scopes' : Scopes) (d : DeclId) : Prop :=
  ∀ x, Scopes.Binds scopes' x → Scopes.Binds scopes x ∨ x = d

theorem Scopes.bindsOnly_bind? {name : String} {d : DeclId} {scopes scopes' : Scopes}
    (h : Scopes.bind? name d scopes = some scopes') : Scopes.BindsOnly scopes scopes' d := by
  cases scopes with
  | nil => cases h
  | cons scope scopes =>
    cases h
    rintro x ⟨scope', hscope, name', hget⟩
    rcases List.mem_cons.1 hscope with rfl | hscope
    · simp only [Table.get?_insert] at hget
      split at hget
      · exact .inr (Option.some.inj hget).symm
      · exact .inl ⟨scope, List.mem_cons_self, name', hget⟩
    · exact .inl ⟨scope', List.mem_cons_of_mem _ hscope, name', hget⟩

theorem Scopes.bindsOnly_hoist? {name : String} {d : DeclId} {scopes scopes' : Scopes}
    (h : Scopes.hoist? name d scopes = some scopes') : Scopes.BindsOnly scopes scopes' d := by
  induction scopes generalizing scopes' with
  | nil => cases h
  | cons scope scopes ih =>
    rw [Scopes.hoist?] at h
    split at h
    · exact Scopes.bindsOnly_bind? h
    · obtain ⟨rest, hrest, rfl⟩ := Option.map_eq_some_iff.1 h
      rintro x ⟨scope', hscope, name', hget⟩
      rcases List.mem_cons.1 hscope with rfl | hscope
      · exact .inl ⟨scope', List.mem_cons_self, name', hget⟩
      · rcases ih hrest x ⟨scope', hscope, name', hget⟩ with ⟨scope'', hscope'', hbinds⟩ | hx
        · exact .inl ⟨scope'', List.mem_cons_of_mem _ hscope'', hbinds⟩
        · exact .inr hx

theorem same_introduce (s : State) (name : String) (kind : DeclKind) (scopes : Scopes) :
    Same s (s.introduce name kind scopes) ∧
      (s.introduce name kind scopes).frame.block = s.frame.block := by
  obtain ⟨hsame, hblock⟩ := same_withVersion s.nextDeclaration { s.declare name kind with scopes }
  exact ⟨⟨hsame.function, hsame.entry, hsame.inHeader, hsame.exits⟩, hblock⟩

/-- A new declaration is due to be written, in its only version. -/
theorem steps_introduce {s : State} {reserved heads : List BlockId} {hoisted : List (DeclId × Place)}
    {saved : List (Frame × Plan)} {home : Table BlockId FuncId}
    (h : Sound ⟨s, ⟨reserved, heads, hoisted, none⟩, saved, home⟩) (name : String) (kind : DeclKind)
    {scopes : Scopes} (hscopes : Scopes.BindsOnly s.scopes scopes s.nextDeclaration) :
    Steps ⟨s, ⟨reserved, heads, hoisted, none⟩, saved, home⟩
      ⟨s.introduce name kind scopes,
        ⟨reserved, heads, hoisted, some (s.nextDeclaration, s.firstVersion name kind)⟩, saved, home⟩ ∧
    (s.introduce name kind scopes).env.versionsOf s.nextDeclaration =
      [⟨(s.introduce name kind scopes).frame.block, s.firstVersion name kind⟩] := by
  have hdeclares : (s.declare name kind).env.declares s.nextDeclaration = true := by
    rw [Environment.declares_iff]
    change _ < (s.env.declarations.push _).size
    rw [Array.size_push]
    exact Nat.lt_succ_self _
  have hnone : s.env.versionsOf s.nextDeclaration = [] := by
    by_contra hne
    exact Nat.lt_irrefl _ (h.records.wellKept.declared _ hne)
  refine ⟨?_, ?_⟩
  · have hquiet : Quiet (s.declare name kind) { s.declare name kind with scopes } := by
      refine { Quiet.refl (s.declare name kind) with scopes := fun x hx => ?_ }
      rcases hscopes x hx with hx | rfl
      · exact .inl hx
      · exact .inr hdeclares
    have hfresh : ∀ e ∈ hoisted, e.1 ≠ s.nextDeclaration := fun e he heq => by
      have hlt := (h.current.hoisted e he).1.declared
      rw [heq] at hlt
      exact Nat.lt_irrefl _ hlt
    exact ((Relation.ReflTransGen.single (.declare name kind)).tail (.quiet hquiet)).tail
      (.version s.nextDeclaration hdeclares hfresh)
  · obtain ⟨captured, versions, heq, -⟩ :=
      State.withVersion_eq { s.declare name kind with scopes } s.nextDeclaration
    rw [State.introduce, heq]
    refine (Environment.versionsOf_record ..).trans ?_
    rw [if_pos rfl]
    change s.env.versionsOf s.nextDeclaration ++ _ = _
    rw [hnone]
    rfl

/-- The beginning of every declaration. -/
theorem introduce_run {name : String} {kind : DeclKind} {bind : DeclId → Scopes → Option Scopes}
    {next : DeclId → Place → Lower β} {s s' : State} {b : β}
    (h : (do
      let d ← newDeclaration name kind
      onScopes (bind d)
      let place ← newVersion d
      next d place : Lower β) s = .ok (b, s')) :
    ∃ scopes, bind s.nextDeclaration s.scopes = some scopes ∧
      next s.nextDeclaration (s.firstVersion name kind) (s.introduce name kind scopes) = .ok (b, s') := by
  obtain ⟨d, s₁, hdeclare, h⟩ := bind_eq_ok h
  rw [newDeclaration_run] at hdeclare
  cases hdeclare
  obtain ⟨u, s₁, hscopes, h⟩ := bind_eq_ok h
  obtain ⟨scopes, hbind, rfl⟩ := onScopes_run hscopes
  obtain ⟨place, s₁, hversion, h⟩ := bind_eq_ok h
  rw [newVersion_run] at hversion
  cases hversion
  exact ⟨scopes, hbind, h⟩

theorem keepsHoisted_declare (name : String) (kind : DeclKind)
    {bind : String → DeclId → Scopes → Option Scopes}
    (hbind : ∀ scopes scopes' d, bind name d scopes = some scopes' → Scopes.BindsOnly scopes scopes' d) :
    KeepsHoisted (declare name kind bind) := by
  intro s a s' hrun
  obtain ⟨scopes, hscopes, hrun⟩ := introduce_run hrun
  cases hrun
  obtain ⟨hsame, hblock⟩ := same_introduce s name kind scopes
  refine ⟨⟨hsame.function, hsame.entry, hsame.inHeader, hsame.exits⟩, hblock, ?_⟩
  intro reserved heads hoisted saved home hsound
  obtain ⟨hsteps, honly⟩ := steps_introduce hsound name kind (hbind _ _ _ hscopes)
  exact ⟨home, hsteps.tail (.offer honly)⟩

theorem KeepsHoisted.bind {act : Lower α} {next : α → Lower β} (h : KeepsHoisted act)
    (h' : ∀ a, KeepsHoisted (next a)) : KeepsHoisted (act >>= next) := by
  intro s b s'' hrun
  obtain ⟨a, s', hact, hnext⟩ := bind_eq_ok hrun
  obtain ⟨hsame, hblock, hgoes⟩ := h s a s' hact
  obtain ⟨hsame', hblock', hgoes'⟩ := h' a s' b s'' hnext
  exact ⟨hsame.trans hsame', hblock'.trans hblock, fun reserved heads hoisted =>
    (hgoes reserved heads hoisted).trans (hgoes' reserved heads hoisted)⟩

theorem IsQuiet.keepsHoisted {act : Lower α} (h : IsQuiet act) : KeepsHoisted act := by
  intro s a s' hrun
  have hquiet := h s a s' hrun
  exact ⟨hquiet.same, hquiet.block, fun _ _ _ => .of_quiet hquiet _⟩

theorem keeps_declareHoisted (idents : List Ident) : Keeps (declareHoisted idents) := by
  induction idents with
  | nil => exact keeps_pure _
  | cons ident idents ih =>
    unfold declareHoisted
    refine isQuiet_get.keeps.bind fun s => ?_
    have hdeclare := (keepsHoisted_declare ident.name .varKind
      fun _ _ _ => Scopes.bindsOnly_hoist?).keeps
    dsimp only
    split
    · exact hdeclare.bind fun _ => ih
    · exact ih

theorem keepsHoisted_declareVariable (name : String) (kind : DeclKind) :
    KeepsHoisted (declareLexical.declareVariable name kind) := by
  refine (keepsHoisted_declare name kind fun _ _ _ => Scopes.bindsOnly_bind?).bind fun d => ?_
  refine IsQuiet.keepsHoisted fun s _ s' hrun => ?_
  cases hrun
  exact { Quiet.refl s with }

/-- The functions of a statement list are kept for later. -/
theorem goes_declareLexical (bindings : List LexicalBinding) :
    ∀ s functions s', declareLexical bindings s = .ok (functions, s') →
      Same s s' ∧ s'.frame.block = s.frame.block ∧ ∀ reserved heads hoisted,
        Goes s ⟨reserved, heads, hoisted, none⟩ s' ⟨reserved, heads, hoisted ++ functions, none⟩ := by
  induction bindings with
  | nil =>
    intro s functions s' hrun
    cases hrun
    exact ⟨.refl s, rfl, fun _ _ hoisted => by
      rw [List.append_nil]
      exact .refl _ _⟩
  | cons binding bindings ih =>
    intro s functions s' hrun
    unfold declareLexical at hrun
    have hvariable {kind : DeclKind} (hrun : (do
        declareLexical.declareVariable binding.ident.name kind
        declareLexical bindings : Lower _) s = .ok (functions, s')) :
        Same s s' ∧ s'.frame.block = s.frame.block ∧ ∀ reserved heads hoisted,
          Goes s ⟨reserved, heads, hoisted, none⟩ s' ⟨reserved, heads, hoisted ++ functions, none⟩ := by
      obtain ⟨u, s₁, hdeclare, hrun⟩ := bind_eq_ok hrun
      obtain ⟨hsame, hblock, hgoes⟩ := keepsHoisted_declareVariable _ _ _ _ _ hdeclare
      obtain ⟨hsame', hblock', hgoes'⟩ := ih _ _ _ hrun
      exact ⟨hsame.trans hsame', hblock'.trans hblock, fun reserved heads hoisted =>
        (hgoes reserved heads hoisted).trans (hgoes' reserved heads hoisted)⟩
    cases hkind : binding.kind with
    | functionBinding =>
      simp only [hkind] at hrun
      obtain ⟨scopes, hscopes, hrun⟩ := introduce_run hrun
      obtain ⟨rest, s₁, hrest, hrun⟩ := bind_eq_ok hrun
      obtain ⟨rfl, rfl⟩ := pure_run hrun
      obtain ⟨hsame, hblock⟩ := same_introduce s binding.ident.name .functionKind scopes
      obtain ⟨hsame', hblock', hgoes⟩ := ih _ _ _ hrest
      refine ⟨hsame.trans hsame', hblock'.trans hblock, ?_⟩
      intro reserved heads hoisted saved home hsound
      obtain ⟨hsteps, honly⟩ := steps_introduce hsound binding.ident.name .functionKind
        (Scopes.bindsOnly_bind? hscopes)
      have hsteps := hsteps.tail (.hoist honly)
      obtain ⟨home', hsteps'⟩ := hgoes reserved heads _ saved home (hsound.steps hsteps)
      refine ⟨home', hsteps.trans ?_⟩
      rwa [List.append_assoc] at hsteps'
    | letBinding =>
      simp only [hkind] at hrun
      exact hvariable hrun
    | constBinding =>
      simp only [hkind] at hrun
      exact hvariable hrun
    | classBinding =>
      simp only [hkind] at hrun
      exact hvariable hrun

theorem readies_target (use : PatternUse) (name : String) : Readies (use.target name) := by
  cases use with
  | declaration => exact readies_bindingPlace name
  | assignment => exact readies_newVersion name
  | parameter =>
    intro s place s' hrun
    obtain ⟨d, s₁, hdeclare, hrun⟩ := bind_eq_ok hrun
    rw [newDeclaration_run] at hdeclare
    cases hdeclare
    obtain ⟨u, s₁, hscopes, hrun⟩ := bind_eq_ok hrun
    obtain ⟨scopes, hbind, rfl⟩ := onScopes_run hscopes
    rw [newVersion_run] at hrun
    cases hrun
    obtain ⟨hsame, hblock⟩ := same_introduce s name .parameter scopes
    refine ⟨hsame, hblock, s.nextDeclaration, fun reserved heads saved home hsound => ⟨home, ?_⟩⟩
    exact (steps_introduce hsound name .parameter (Scopes.bindsOnly_bind? hbind)).1

/-! ## Parts of expressions and statements -/

theorem keeps_finish (use : Use) (node : Node) (place : Place) : Keeps (use.finish node place) := by
  cases use with
  | value => exact keeps_pure place
  | effect => exact keeps_emit _ rfl

theorem keeps_finishEmpty (use : Use) : Keeps use.finishEmpty := by
  cases use with
  | value => exact (isQuiet_throw _).keeps
  | effect => exact keeps_pure default

theorem keeps_combined (node : Node) (op : AssignOp) {current value : Lower Place}
    (hcurrent : Keeps current) (hvalue : Keeps value) : Keeps (combined node op current value) := by
  unfold combined
  cases op.binary? with
  | some binary => exact hcurrent.bind fun _ => hvalue.bind fun _ => keeps_emit _ rfl
  | none => exact hvalue

theorem keeps_stepped (node : Node) (op : UpdateOp) (before : Bool) {load : Lower Place}
    {store : Place → Lower Place} (hload : Keeps load) (hstore : ∀ place, Keeps (store place)) :
    Keeps (stepped node op before load store) :=
  hload.bind fun _ => (keeps_emit _ rfl).bind fun _ => (keeps_emit _ rfl).bind fun _ =>
    (hstore _).bind fun _ => keeps_pure _

theorem isQuiet_allLocal (pattern : Pattern) : IsQuiet (allLocal pattern) :=
  isQuiet_get.bind fun _ => isQuiet_pure _

theorem keeps_bindVariable (name : String) (kind : VarKind) (value : Place) (origin : Option Nat) :
    Keeps (bindVariable name kind value origin) := by
  have heq : bindVariable name kind value origin = ((declared name >>= bindingPlace) >>= fun target =>
      emit (.storeLocal target value (.ofVarKind kind)) origin) >>= fun _ => pure () := by
    simp only [bindVariable, bind_assoc]
  rw [heq]
  exact ((readies_bindingPlace name).store (fun _ => rfl) origin).bind fun _ => keeps_pure _

theorem keeps_importAll (origin : Option Nat) (specifiers : List Syntax.ImportSpecifier) :
    Keeps (importAll origin specifiers) := by
  induction specifiers with
  | nil => exact keeps_pure _
  | cons specifier more ih =>
    exact (keeps_emit _ rfl).bind fun _ => ih.bind fun _ => keeps_pure _

theorem keeps_exportLocals (origin : Option Nat) (locals : List (DeclId × String)) :
    Keeps (exportLocals origin locals) := by
  induction locals with
  | nil => exact keeps_pure _
  | cons e more ih =>
    exact isQuiet_get.keeps.bind fun _ => (isQuiet_readVersion _ _).keeps.bind fun _ =>
      (isQuiet_capture _).keeps.bind fun _ => (keeps_emitExport _ _ rfl).bind fun _ =>
        ih.bind fun _ => keeps_pure _

theorem keeps_exportAll (origin : Option Nat) (locals : List (DeclId × String)) :
    Keeps (exportAll origin locals) :=
  (keeps_exportLocals origin locals).bind fun _ => (keeps_emit _ rfl).bind fun _ => keeps_pure _

theorem keeps_keepStmt (stmt : Stmt) : Keeps (keepStmt stmt none) :=
  (isQuiet_captureAll _ _).keeps.bind fun _ => (keeps_emit _ rfl).bind fun _ => keeps_pure _

/-- A class that is kept as it stands defines the version of its name. -/
theorem keeps_keepClass (name : String) (stmt : Stmt) :
    Keeps (declared name >>= fun d => keepStmt stmt (some d)) := by
  intro s u s' hrun
  obtain ⟨d, s₁, hdeclared, hkeep⟩ := bind_eq_ok hrun
  obtain ⟨rfl, hfind⟩ := declared_run hdeclared
  unfold keepStmt at hkeep
  obtain ⟨bindings, s₂, hcapture, hrun⟩ := bind_eq_ok hkeep
  have hquiet := isQuiet_captureAll _ _ _ _ _ hcapture
  obtain ⟨place, s₃, hbind, hrun⟩ := bind_eq_ok hrun
  obtain ⟨i, s₄, hput, hrun⟩ := bind_eq_ok hrun
  obtain rfl := put_run hput
  obtain ⟨-, rfl⟩ := pure_run hrun
  obtain ⟨hsame, hblock⟩ := same_bindingPlace hbind
  obtain ⟨hsame', hblock'⟩ := same_put place (.unsupported (.statement stmt) bindings) stmt.node.id s₃
  refine ⟨(hquiet.same.trans hsame).trans hsame', hblock'.trans (hblock.trans hquiet.block), ?_⟩
  intro reserved heads saved home hsound
  have hdeclares : s₂.env.declares d = true := by
    rw [hquiet.declares]
    exact declares_of_find? hsound hfind
  exact ⟨home, ((Relation.ReflTransGen.single (.quiet hquiet)).trans
    (steps_bindingPlace hbind hdeclares reserved heads saved home)).tail (.bind _ _ rfl)⟩

/-! ## Scopes -/

theorem isQuiet_enterScope (kind : ScopeKind) :
    IsQuiet (onScopes fun scopes => some (scopes.enter kind)) := by
  intro s u s' hrun
  obtain ⟨scopes, hscopes, rfl⟩ := onScopes_run hrun
  cases hscopes
  refine { Quiet.refl s with scopes := ?_ }
  rintro d ⟨scope, hscope, name, hget⟩
  rcases List.mem_cons.1 hscope with rfl | hscope
  · cases hget
  · exact .inl ⟨scope, hscope, name, hget⟩

theorem isQuiet_leaveScope : IsQuiet (onScopes Scopes.leave?) := by
  intro s u s' hrun
  obtain ⟨scopes, hscopes, rfl⟩ := onScopes_run hrun
  refine { Quiet.refl s with scopes := ?_ }
  rintro d ⟨scope, hscope, name, hget⟩
  cases hall : s.scopes with
  | nil =>
    rw [hall] at hscopes
    cases hscopes
  | cons first rest =>
    rw [hall] at hscopes
    cases hscopes
    exact .inl ⟨scope, List.mem_cons_of_mem _ hscope, name, hget⟩

theorem Moves.inScope {act : Lower α} (h : Moves act) (kind : ScopeKind) : Moves (inScope kind act) :=
  (isQuiet_enterScope kind).keeps.moves.bind fun _ => h.bind fun _ =>
    isQuiet_leaveScope.keeps.moves.bind fun _ => (keeps_pure _).moves

end Whittle.Lowering
