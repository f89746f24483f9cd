import Mathlib.Tactic.Common
import Whittle.Proofs.Lowering.Runs

/-!
# Calm steps of lowering

Most steps of lowering have nothing to do with the question which names may be used already.  They are calm: they
leave the scopes alone, make no variable unusable and find no name used too early.  Reading is calm as long as the
variable that is read may be used (`ends_readVersion`), and source that is kept as it stands always is.
-/

namespace Whittle.Lowering

open Ir Syntax

variable {α β : Type} {s s' s'' : State} {act : Lower α} {next : α → Lower β}

/-! ## How actions end -/

theorem bind_of_ok {a : α} (h : act s = .ok (a, s')) : (act >>= next) s = next a s' := by
  have hrun : (act >>= next) s = act s >>= fun p => next p.1 p.2 := rfl
  rw [hrun, h]
  rfl

/-- A value of the action, with the state behind it, is as wanted, and so is each name that it finds used too
early. -/
def Ends (act : Lower α) (s : State) (good : α → State → Prop) (early : String → Prop) : Prop :=
  match act s with
  | .ok (a, s') => good a s'
  | .error e => ∀ x, e = .useBeforeDeclaration x → early x

variable {good : α → State → Prop} {good' : β → State → Prop} {early : String → Prop}

theorem Ends.bind (h : Ends act s good early) (h' : ∀ a s', good a s' → Ends (next a) s' good' early) :
    Ends (act >>= next) s good' early := by
  have hrun : (act >>= next) s = act s >>= fun p => next p.1 p.2 := rfl
  rw [Ends] at h ⊢
  rw [hrun]
  cases hact : act s with
  | error e =>
    rw [hact] at h
    exact h
  | ok p =>
    rw [hact] at h
    exact h' p.1 p.2 h

theorem Ends.imp {good' : α → State → Prop} {early' : String → Prop} (h : Ends act s good early)
    (hgood : ∀ a s', good a s' → good' a s') (hearly : ∀ x, early x → early' x) :
    Ends act s good' early' := by
  rw [Ends] at h ⊢
  split at h
  · exact hgood _ _ h
  · exact fun x hx => hearly x (h x hx)

theorem Ends.blame {early' : String → Prop} (h : Ends act s good early) (hearly : ∀ x, early x → early' x) :
    Ends act s good early' :=
  h.imp (fun _ _ => id) hearly

theorem Ends.of_run {a : α} (h : act s = .ok (a, s')) (h' : good a s') : Ends act s good early := by
  rw [Ends, h]
  exact h'

/-- An action whose result is known in front of another one. -/
theorem Ends.after {a : α} (h : act s = .ok (a, s')) (h' : Ends (next a) s' good' early) :
    Ends (act >>= next) s good' early := by
  rw [Ends, bind_of_ok h]
  exact h'

/-! ## Actions that concern no dead zone -/

/-- The names stand for the same variables, declarations have the names that they had, and no variable is unusable
that was not. -/
structure Calm (s s' : State) : Prop where
  scopes : s'.scopes = s.scopes
  names : ∀ d x, s.env.nameOf d = some x → s'.env.nameOf d = some x
  uninitialized : ∀ d, s'.frame.uninitialized.contains d = true → s.frame.uninitialized.contains d = true

theorem Calm.refl (s : State) : Calm s s := ⟨rfl, fun _ _ h => h, fun _ h => h⟩

theorem Calm.trans (h : Calm s s') (h' : Calm s' s'') : Calm s s'' :=
  ⟨h'.scopes.trans h.scopes, fun d x hd => h'.names d x (h.names d x hd),
    fun d hd => h.uninitialized d (h'.uninitialized d hd)⟩

/-- What may be used goes on to. -/
theorem Calm.usable (h : Calm s s') {d : DeclId} (hd : s.frame.uninitialized.contains d = false) :
    s'.frame.uninitialized.contains d = false := by
  by_contra hcontains
  rw [h.uninitialized d (Bool.not_eq_false _ ▸ hcontains)] at hd
  cases hd

/-- The action only does such steps, and finds no name used too early. -/
class IsCalm (act : Lower α) : Prop where
  ends : ∀ s, Ends act s (fun _ s' => Calm s s') fun _ => False

/-- A calm action in front of another one. -/
theorem Ends.calm [h : IsCalm act] (h' : ∀ a s', Calm s s' → Ends (next a) s' good' early) :
    Ends (act >>= next) s good' early :=
  ((h.ends s).blame nofun).bind h'

theorem IsCalm.andThen (h : IsCalm act) (h' : ∀ a, IsCalm (next a)) : IsCalm (act >>= next) :=
  ⟨fun s => (h.ends s).bind fun a s' hcalm =>
    ((h' a).ends s').imp (fun _ _ => hcalm.trans) fun _ => id⟩

instance [h : IsCalm act] [h' : ∀ a, IsCalm (next a)] : IsCalm (act >>= next) := h.andThen h'

instance {b : Prop} [Decidable b] {act' : Lower α} [h : IsCalm act] [h' : IsCalm act'] :
    IsCalm (if b then act else act') := by
  split
  · exact h
  · exact h'

instance (a : α) : IsCalm (pure a : Lower α) := ⟨fun s => .of_run rfl (.refl s)⟩

instance : IsCalm (get : Lower State) := ⟨fun s => .of_run rfl (.refl s)⟩

instance (message : String) : IsCalm (broken message : Lower α) := ⟨fun _ => nofun⟩

instance (construct : String) : IsCalm (refuse construct : Lower α) := ⟨fun _ => nofun⟩

theorem isCalm_modify {change : State → State} (h : ∀ s, Calm s (change s)) : IsCalm (modify change : Lower PUnit) :=
  ⟨fun s => .of_run rfl (h s)⟩

theorem isCalm_onFrame {change : Frame → Frame}
    (h : ∀ frame, (change frame).uninitialized = frame.uninitialized) : IsCalm (onFrame change) :=
  isCalm_modify fun s => ⟨rfl, fun _ _ h => h, fun d hd => by rwa [h] at hd⟩

theorem isCalm_onEnv {step : Environment → α × Environment}
    (h : ∀ env d x, env.nameOf d = some x → (step env).2.nameOf d = some x) : IsCalm (onEnv step) :=
  ⟨fun s => .of_run rfl ⟨rfl, h s.env, fun _ hd => hd⟩⟩

instance : IsCalm getFrame := by unfold getFrame; infer_instance

instance : IsCalm currentFunction := by unfold currentFunction; infer_instance

instance (name : String) : IsCalm (lookUp name) := by unfold lookUp; infer_instance

instance (name : String) : IsCalm (declared name) := by
  refine IsCalm.andThen inferInstance fun found => ?_
  cases found <;> infer_instance

/-! Blocks and instructions. -/

theorem nameOf_declare_of_some {env : Environment} {d : DeclId} {x : String} (name : Option String) (kind : DeclKind)
    (owner : FuncId) (h : env.nameOf d = some x) : (env.declare name kind owner).2.nameOf d = some x := by
  obtain ⟨e, he, -⟩ := Option.bind_eq_some_iff.1 h
  have hlt := (Array.getElem?_eq_some_iff.1 he).1
  rw [Environment.nameOf, Environment.declaration?_declare, if_neg hlt.ne]
  exact h

theorem nameOf_newPlace (env : Environment) (d x : DeclId) : (env.newPlace d).2.nameOf x = env.nameOf x := by
  rw [Environment.nameOf, Environment.nameOf, Environment.declaration?_newPlace]
  split
  · rw [Option.bind_map]
    rfl
  · rfl

theorem nameOf_newTemporary {env : Environment} {d : DeclId} {x : String} (owner : FuncId)
    (h : env.nameOf d = some x) : (env.newTemporary owner).2.nameOf d = some x :=
  (nameOf_newPlace _ _ d).trans (nameOf_declare_of_some none .temporary owner h)

instance : IsCalm newBlock := isCalm_onEnv fun _ _ _ h => h

instance (terminal : Terminal) (next : BlockId) : IsCalm (endBlock terminal next) :=
  isCalm_onFrame fun _ => rfl

instance (isReachable : Bool) : IsCalm (onFrame ({ · with isReachable })) := isCalm_onFrame fun _ => rfl

instance (loops : List LoopFrame) : IsCalm (onFrame ({ · with loops })) := isCalm_onFrame fun _ => rfl

instance (exit : BlockId) : IsCalm (onFrame fun frame => { frame with loops := ⟨exit, []⟩ :: frame.loops }) :=
  isCalm_onFrame fun _ => rfl

instance (terminal : Terminal) : IsCalm (endUnreachable terminal) := by unfold endUnreachable; infer_instance

instance (path : Path) : IsCalm (resume path) := isCalm_onFrame fun _ => rfl

instance : IsCalm leaveLoop := by
  refine IsCalm.andThen inferInstance fun frame => ?_
  split <;> infer_instance

instance (place : Place) (op : Op) (origin : Option Nat) : IsCalm (put place op origin) := by
  have henv : IsCalm (onEnv (·.newInstrAt place origin op)) := isCalm_onEnv fun _ _ _ h => h
  have hframe (i : Instr) : IsCalm (onFrame fun frame =>
      if frame.inHeader then
        { frame with function := { frame.function with header := frame.function.header ++ [i] } }
      else { frame with filled := i :: frame.filled }) :=
    isCalm_onFrame fun frame => by split <;> rfl
  unfold put
  infer_instance

instance (op : Op) (origin : Option Nat) : IsCalm (emit op origin) := by
  have henv (owner : FuncId) : IsCalm (onEnv (·.newTemporary owner)) :=
    isCalm_onEnv fun _ _ _ => nameOf_newTemporary owner
  unfold emit
  infer_instance

instance (exported : String) (id : InstrId) : IsCalm (addExport exported id) :=
  isCalm_modify fun s => { Calm.refl s with }

instance (op : Op) (exported : String) (origin : Option Nat) : IsCalm (emitExport op exported origin) := by
  have henv (owner : FuncId) : IsCalm (onEnv (·.newTemporary owner)) :=
    isCalm_onEnv fun _ _ _ => nameOf_newTemporary owner
  unfold emitExport
  infer_instance

instance (use : Use) (node : Node) (place : Place) : IsCalm (use.finish node place) := by
  cases use <;> (unfold Use.finish; infer_instance)

instance (use : Use) : IsCalm use.finishEmpty := by
  cases use <;> (unfold Use.finishEmpty; infer_instance)

instance (origin : Option Nat) (specifiers : List Syntax.ImportSpecifier) : IsCalm (importAll origin specifiers) := by
  induction specifiers with
  | nil => unfold importAll; infer_instance
  | cons specifier specifiers ih => unfold importAll; infer_instance

instance (pattern : Pattern) : IsCalm (allLocal pattern) := by unfold allLocal; infer_instance

/-! Versions. -/

instance (d : DeclId) : IsCalm (capture d) := isCalm_modify fun s => { Calm.refl s with }

instance (d : DeclId) (failure : String) : IsCalm (ownVersion d failure) := by
  refine IsCalm.andThen inferInstance fun frame => ?_
  split <;> infer_instance

theorem calm_withVersion (s : State) (d : DeclId) : Calm s (s.withVersion d) := by
  obtain ⟨captured, versions, heq, -⟩ := s.withVersion_eq d
  rw [heq]
  exact ⟨rfl, fun x y hx => (nameOf_newPlace s.env d x).trans hx, fun _ hx => hx⟩

instance (d : DeclId) : IsCalm (newVersion d) :=
  ⟨fun s => .of_run (newVersion_run d s) (calm_withVersion s d)⟩

/-- Whether the variable may not be used yet. -/
def State.isTooEarly (s : State) (d : DeclId) : Bool :=
  s.env.ownerOf d == some s.frame.function.id && s.frame.uninitialized.contains d

theorem isTooEarly_eq (d : DeclId) (s : State) : isTooEarly d s = .ok (s.isTooEarly d, s) := rfl

/-- A name that is not too early is read calmly. -/
theorem ends_readVersion (name : String) (d : DeclId) (s : State) :
    Ends (readVersion name d) s (fun _ s' => Calm s s') fun x => s.isTooEarly d = true ∧ name = x := by
  have hcalm {act : Lower Place} [h : IsCalm act] :
      Ends act s (fun _ s' => Calm s s') fun x => s.isTooEarly d = true ∧ name = x :=
    (h.ends s).blame nofun
  refine .after (a := s.env.ownerOf d == some s.frame.function.id) rfl ?_
  split
  · refine .after (isTooEarly_eq d s) ?_
    split
    · next hearly =>
      rintro x ⟨⟩
      exact ⟨hearly, rfl⟩
    · exact hcalm
  · refine .calm fun _ s₁ hcapture => .calm fun t s₂ hget => ?_
    have hcalm' {act : Lower Place} [h : IsCalm act] :
        Ends act s₂ (fun _ s' => Calm s s') fun x => s.isTooEarly d = true ∧ name = x :=
      (h.ends s₂).imp (fun _ _ => (hcapture.trans hget).trans) nofun
    split
    · exact hcalm'
    · exact hcalm'

/-- Kept source may mention a variable in its dead zone. -/
instance (name failure : String) (d : DeclId) (next : Place → Lower α) [h : ∀ place, IsCalm (next place)] :
    IsCalm (do if ← isTooEarly d then next (← ownVersion d failure) else next (← readVersion name d)) := by
  refine ⟨fun s => .after (isTooEarly_eq d s) ?_⟩
  split
  · exact IsCalm.ends s
  · next hearly =>
    refine ((ends_readVersion name d s).blame fun x h => hearly h.1).bind fun place s' hcalm => ?_
    exact ((h place).ends s').imp (fun _ _ => hcalm.trans) fun _ => id

instance (exclude : Option DeclId) (names : List String) : IsCalm (captureAll exclude names) := by
  induction names with
  | nil => unfold captureAll; infer_instance
  | cons name names ih =>
    refine IsCalm.andThen inferInstance fun found => ?_
    split
    · infer_instance
    · split
      · infer_instance
      · dsimp only
        infer_instance

instance (e : Expr) : IsCalm (keepExpr e) := by unfold keepExpr; infer_instance

instance (s : Stmt) : IsCalm (keepStmt s none) := by unfold keepStmt; infer_instance

end Whittle.Lowering
