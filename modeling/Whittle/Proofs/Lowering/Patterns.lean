import Whittle.Proofs.Ir.Patterns
import Whittle.Proofs.Lowering.Tree

/-!
# Lowering takes every pattern once

Lowering a pattern answers a place that an instruction has made and none has taken, and what is lowered in
between leaves it so (`Turns`).  Expressions and statements hold no patterns when they are done; a function
holds those of its parameters.

Main statement: `Module.spares_lower`.
-/

namespace Whittle.Lowering

open Ir Syntax

variable {α β : Type} {s s' : State} {frame frame' : Frame} {held held' : List Place}

/-! ## What is held -/

/-- Where the code of the function goes on, it makes the patterns `held` beside those that it takes. -/
structure Frame.Spares (frame : Frame) (held : List Place) : Prop where
  function : frame.function.Spares (if frame.inHeader then held else [])
  filled : Ir.Spares (if frame.inHeader then [] else held) frame.filled

/-- The function being filled holds the patterns, and those that are done hold none. -/
structure State.Spares (s : State) (held : List Place) : Prop where
  frame : s.frame.Spares held
  functions : ∀ id f, s.functions.get? id = some f → f.Spares []

theorem Frame.Spares.mono (h : frame.Spares held) (hheld : ∀ p, held'.count p ≤ held.count p) :
    frame.Spares held' := by
  obtain ⟨⟨hheader, hblocks⟩, hfilled⟩ := h
  refine ⟨⟨hheader.mono fun p => ?_, hblocks⟩, hfilled.mono fun p => ?_⟩
  · have := hheld p
    rw [List.count_append, List.count_append]
    split <;> omega
  · have := hheld p
    split <;> simp [this]

theorem State.Spares.mono (h : s.Spares held) (hheld : ∀ p, held'.count p ≤ held.count p) :
    s.Spares held' :=
  ⟨h.frame.mono hheld, h.functions⟩

/-- The code of the function and where it goes on decide. -/
theorem State.Spares.congr (h : s.Spares held)
    (hfunction : ∃ isConcise, s'.frame.function = { s.frame.function with isConcise })
    (hfilled : s'.frame.filled = s.frame.filled) (hheader : s'.frame.inHeader = s.frame.inHeader)
    (hfunctions : s'.functions = s.functions) : s'.Spares held := by
  obtain ⟨isConcise, hfunction⟩ := hfunction
  refine ⟨⟨?_, ?_⟩, hfunctions ▸ h.functions⟩
  · rw [hheader, hfunction]
    exact ⟨h.frame.function.header, h.frame.function.blocks⟩
  · rw [hheader, hfilled]
    exact h.frame.filled

theorem Frame.Spares.put {i : Instr} (h : frame.Spares (i.op.takes ++ held)) :
    (frame.put i).Spares (i.offers ++ held) := by
  obtain ⟨⟨hheader, hblocks⟩, hfilled⟩ := h
  rw [Frame.put]
  split
  · next hin =>
    rw [if_pos hin] at hheader hfilled
    refine ⟨⟨?_, hblocks⟩, ?_⟩
    · have hadded : Ir.Spares (i.offers ++ (frame.function.params ++ held))
          (i :: frame.function.header) :=
        .cons (hheader.mono fun p => by simp only [List.count_append]; omega)
      refine Ir.Spares.perm (hadded.mono fun p => ?_)
        (@List.perm_append_comm _ [i] frame.function.header)
      rw [if_pos hin]
      simp only [List.count_append]
      omega
    · rwa [if_pos hin]
  · next hin =>
    rw [if_neg hin] at hheader hfilled
    refine ⟨⟨?_, hblocks⟩, ?_⟩
    · rwa [if_neg hin]
    · rw [if_neg hin]
      exact hfilled.cons

/-! ## Actions -/

/-- Whatever else is held, the action takes the patterns `given` and answers others. -/
def Turns (given : List Place) (act : Lower α) (answer : α → List Place) : Prop :=
  ∀ s a s' held, act s = .ok (a, s') → s.Spares (given ++ held) → s'.Spares (answer a ++ held)

/-- The action takes no pattern and answers none. -/
abbrev Neutral (act : Lower α) : Prop := Turns [] act fun _ => []

/-- The action leaves no pattern where none was. -/
def Clears (act : Lower α) : Prop := ∀ s a s', act s = .ok (a, s') → s.Spares [] → s'.Spares []

section Actions

variable {act : Lower α} {next : α → Lower β} {given : List Place} {answer answer' : α → List Place}
  {last : β → List Place}

theorem Turns.bind (h : Turns given act answer) (h' : ∀ a, Turns (answer a) (next a) last) :
    Turns given (act >>= next) last := by
  intro s b s'' held hrun hs
  obtain ⟨a, s', hact, hnext⟩ := bind_eq_ok hrun
  exact h' a s' b s'' held hnext (h s a s' held hact hs)

/-- What is held around an action stays. -/
theorem Turns.beside (h : Turns given act answer) (more : List Place) :
    Turns (given ++ more) act fun a => answer a ++ more := by
  intro s a s' held hrun hs
  rw [List.append_assoc] at hs ⊢
  exact h s a s' _ hrun hs

theorem Turns.weaken (h : Turns given act answer)
    (hanswer : ∀ a p, (answer' a).count p ≤ (answer a).count p) : Turns given act answer' := by
  intro s a s' held hrun hs
  refine (h s a s' held hrun hs).mono fun p => ?_
  have := hanswer a p
  simp only [List.count_append]
  omega

theorem Turns.neutral (h : Turns [] act answer) : Neutral act := h.weaken fun _ _ => Nat.zero_le _

theorem Turns.clears (h : Turns [] act answer) : Clears act :=
  fun s a s' hrun hs => h.neutral s a s' [] hrun hs

theorem Clears.bind (h : Clears act) (h' : ∀ a, Clears (next a)) : Clears (act >>= next) := by
  intro s b s'' hrun hs
  obtain ⟨a, s', hact, hnext⟩ := bind_eq_ok hrun
  exact h' a s' b s'' hnext (h s a s' hact hs)

theorem turns_pure {a : α} (h : ∀ p, (answer a).count p ≤ given.count p) : Turns given (pure a) answer := by
  intro s a' s' held hrun hs
  obtain ⟨rfl, rfl⟩ := pure_run hrun
  refine hs.mono fun p => ?_
  have := h p
  simp only [List.count_append]
  omega

theorem neutral_pure (a : α) : Neutral (pure a : Lower α) := turns_pure fun _ => Nat.le_refl _

theorem neutral_throw (e : Error) : Neutral (throw e : Lower α) := by
  rintro s a s' held ⟨⟩

theorem IsQuiet.neutral (h : IsQuiet act) : Neutral act := by
  intro s a s' held hrun hs
  have hquiet := h s a s' hrun
  exact hs.congr hquiet.function hquiet.filled hquiet.inHeader hquiet.functions

theorem neutral_onEnv (step : Environment → α × Environment) : Neutral (onEnv step) := by
  rintro s a s' held ⟨⟩ hs
  exact hs.congr ⟨_, rfl⟩ rfl rfl rfl

theorem neutral_onFrame (change : Frame → Frame) (hfunction : ∀ frame, (change frame).function = frame.function)
    (hfilled : ∀ frame, (change frame).filled = frame.filled)
    (hheader : ∀ frame, (change frame).inHeader = frame.inHeader) : Neutral (onFrame change) := by
  rintro s a s' held ⟨⟩ hs
  exact hs.congr ⟨_, hfunction _⟩ (hfilled _) (hheader _) rfl

theorem neutral_onScopes (change : Scopes → Option Scopes) : Neutral (onScopes change) := by
  intro s u s' held hrun hs
  obtain ⟨scopes, -, rfl⟩ := onScopes_run hrun
  exact hs.congr ⟨_, rfl⟩ rfl rfl rfl

end Actions

/-! ## Instructions and versions -/

theorem State.Spares.put {place : Place} {op : Op} {origin : Option Nat}
    (h : s.Spares (op.takes ++ held)) :
    (s.put place op origin).Spares ((if op.category = .pattern then [place] else []) ++ held) :=
  ⟨h.frame.put, h.functions⟩

/-- An instruction takes what it mentions of the patterns, and what it makes can be taken. -/
theorem turns_emit (op : Op) (origin : Option Nat) : Turns (op.takes) (emit op origin)
    fun place => if op.category = .pattern then [place] else [] := by
  rintro s a s' held ⟨⟩ hs
  have henv : State.Spares { s with env := (s.env.newTemporary s.frame.function.id).2 } _ :=
    hs.congr ⟨_, rfl⟩ rfl rfl rfl
  exact henv.put

theorem neutral_emit {op : Op} (origin : Option Nat) (hop : op.takes = []) : Neutral (emit op origin) := by
  have hemit := turns_emit op origin
  rw [hop] at hemit
  exact hemit.neutral

theorem turns_destructure (pattern value : Place) (kind : StoreKind) (origin : Option Nat) :
    Turns [pattern] (emit (.destructure pattern value kind) origin) fun _ => [] :=
  (turns_emit (.destructure pattern value kind) origin).weaken fun _ _ => Nat.zero_le _

theorem neutral_put (place : Place) {op : Op} (origin : Option Nat) (hop : op.takes = []) :
    Neutral (put place op origin) := by
  intro s a s' held hrun hs
  obtain rfl := put_run hrun
  have hput : (s.put place op origin).Spares _ := .put (by rwa [hop])
  exact hput.mono fun p => by simp

theorem neutral_newVersion (d : DeclId) : Neutral (newVersion d) := by
  intro s a s' held hrun hs
  rw [newVersion_run] at hrun
  cases hrun
  obtain ⟨captured, versions, heq, -⟩ := s.withVersion_eq d
  rw [heq]
  exact hs.congr ⟨_, rfl⟩ rfl rfl rfl

theorem neutral_bindingPlace (d : DeclId) : Neutral (bindingPlace d) := by
  intro s a s' held hrun hs
  have hassigned : (s.assigned d).Spares ([] ++ held) := hs.congr ⟨_, rfl⟩ rfl rfl rfl
  rcases bindingPlace_run hrun with ⟨-, -, rfl⟩ | ⟨rfl, rfl⟩
  · exact hassigned
  · exact neutral_newVersion d _ _ _ held (newVersion_run ..) hassigned

theorem neutral_newDeclaration (name : String) (kind : DeclKind) : Neutral (newDeclaration name kind) :=
  ((isQuiet_getFrame.bind fun _ => isQuiet_pure _).neutral.bind fun _ => neutral_onEnv _ : Neutral (do
    let owner ← currentFunction
    onEnv (·.declare (some name) kind owner)))

theorem neutral_target (use : PatternUse) (name : String) : Neutral (use.target name) := by
  cases use with
  | declaration => exact (isQuiet_declared name).neutral.bind fun d => neutral_bindingPlace d
  | assignment => exact (isQuiet_declared name).neutral.bind fun d => neutral_newVersion d
  | parameter =>
    exact (neutral_newDeclaration name .parameter).bind fun _ => (neutral_onScopes _).bind fun _ =>
      neutral_newVersion _

theorem neutral_declare (name : String) (kind : DeclKind) (bind : String → DeclId → Scopes → Option Scopes) :
    Neutral (declare name kind bind) :=
  (neutral_newDeclaration name kind).bind fun d => (neutral_onScopes _).bind fun _ =>
    (neutral_newVersion d).bind fun _ =>
      (neutral_onFrame (fun frame => { frame with unclaimed := KeySet.add frame.unclaimed d })
        (fun _ => rfl) (fun _ => rfl) fun _ => rfl).bind fun _ => neutral_pure d

theorem neutral_declareHoisted (idents : List Ident) : Neutral (declareHoisted idents) := by
  induction idents with
  | nil => exact neutral_pure _
  | cons ident idents ih =>
    refine isQuiet_get.neutral.bind fun s => ?_
    split
    · exact (neutral_declare _ _ _).bind fun _ => ih
    · exact ih

theorem neutral_declareLexical (bindings : List LexicalBinding) : Neutral (declareLexical bindings) := by
  induction bindings with
  | nil => exact neutral_pure _
  | cons binding bindings ih =>
    have hvariable (kind : DeclKind) : Neutral (do
        declareLexical.declareVariable binding.ident.name kind
        declareLexical bindings) :=
      ((neutral_declare _ _ _).bind fun d =>
        neutral_onFrame (fun frame => { frame with uninitialized := KeySet.add frame.uninitialized d })
          (fun _ => rfl) (fun _ => rfl) fun _ => rfl).bind fun _ => ih
    rw [declareLexical]
    split
    · exact (neutral_newDeclaration _ _).bind fun _ => (neutral_onScopes _).bind fun _ =>
        (neutral_newVersion _).bind fun _ => ih.bind fun _ => neutral_pure _
    · exact hvariable .letKind
    · exact hvariable .constKind
    · exact hvariable .classKind

/-! ## Parts of expressions and statements -/

theorem neutral_keepExpr (e : Expr) : Neutral (keepExpr e) :=
  (isQuiet_captureAll _ _).neutral.bind fun _ => neutral_emit _ rfl

theorem neutral_keepStmt (s : Stmt) (defines : Option DeclId) : Neutral (keepStmt s defines) := by
  refine (isQuiet_captureAll _ _).neutral.bind fun _ => ?_
  cases defines with
  | some d =>
    exact (neutral_bindingPlace d).bind fun _ => (neutral_put _ _ rfl).bind fun _ => neutral_pure _
  | none => exact (neutral_emit _ rfl).bind fun _ => neutral_pure _

theorem neutral_loadName (ident : Ident) : Neutral (loadName ident) := by
  refine (isQuiet_lookUp _).neutral.bind fun found => ?_
  cases found with
  | some d => exact (isQuiet_readVersion _ _).neutral.bind fun _ => neutral_emit _ rfl
  | none =>
    refine isQuiet_get.neutral.bind fun s => ?_
    split
    · exact neutral_emit _ rfl
    · exact neutral_emit _ rfl

theorem neutral_storeName (ident : Ident) (value : Place) (origin : Option Nat) :
    Neutral (storeName ident value origin) := by
  refine (isQuiet_lookUp _).neutral.bind fun found => ?_
  cases found with
  | some d =>
    refine (isQuiet_isTooEarly d).neutral.bind fun early => ?_
    have hemit (target : Place) : Neutral (emit (.storeLocal target value .reassign) origin) :=
      neutral_emit origin rfl
    have hstore := (neutral_newVersion d).bind hemit
    cases early with
    | true => exact (neutral_throw _).bind fun _ => hstore
    | false => exact hstore
  | none => exact neutral_emit _ rfl

theorem neutral_finish (use : Use) (node : Node) (place : Place) : Neutral (use.finish node place) := by
  cases use with
  | value => exact neutral_pure place
  | effect => exact neutral_emit _ rfl

theorem neutral_finishEmpty (use : Use) : Neutral use.finishEmpty := by
  cases use with
  | value => exact neutral_throw _
  | effect => exact neutral_pure default

/-- An expression that is an instruction. -/
theorem neutral_finished (use : Use) (node : Node) {op : Op} {origin : Option Nat} (hop : op.takes = []) :
    Neutral (emit op origin >>= use.finish node) :=
  (neutral_emit origin hop).bind fun _ => neutral_finish use node _

/-- An expression that stays as it is written. -/
theorem neutral_kept (use : Use) (node : Node) (e : Expr) : Neutral (keepExpr e >>= use.finish node) :=
  (neutral_keepExpr e).bind fun _ => neutral_finish use node _

theorem neutral_combined (node : Node) (op : AssignOp) {current value : Lower Place}
    (hcurrent : Neutral current) (hvalue : Neutral value) : Neutral (combined node op current value) := by
  unfold combined
  cases op.binary? with
  | some binary => exact hcurrent.bind fun _ => hvalue.bind fun _ => neutral_emit _ rfl
  | none => exact hvalue

theorem neutral_stepped (node : Node) (op : UpdateOp) (before : Bool) {load : Lower Place}
    {store : Place → Lower Place} (hload : Neutral load) (hstore : ∀ place, Neutral (store place)) :
    Neutral (stepped node op before load store) :=
  hload.bind fun _ => (neutral_emit _ rfl).bind fun _ => (neutral_emit _ rfl).bind fun _ =>
    (hstore _).bind fun _ => neutral_pure _

theorem neutral_bindVariable (name : String) (kind : VarKind) (value : Place) (origin : Option Nat) :
    Neutral (bindVariable name kind value origin) :=
  (isQuiet_declared name).neutral.bind fun d => (neutral_bindingPlace d).bind fun _ =>
    (neutral_emit _ rfl).bind fun _ => neutral_pure _

theorem neutral_importAll (origin : Option Nat) (specifiers : List Syntax.ImportSpecifier) :
    Neutral (importAll origin specifiers) := by
  induction specifiers with
  | nil => exact neutral_pure _
  | cons specifier more ih => exact (neutral_emit _ rfl).bind fun _ => ih.bind fun _ => neutral_pure _

theorem neutral_emitExport {op : Op} (exported : String) (origin : Option Nat) (hop : op.takes = []) :
    Neutral (emitExport op exported origin) := by
  have heq : emitExport op exported origin = (do
      let id := (← get).env.nextInstr
      let place ← emit op origin
      addExport exported id
      pure place) := rfl
  have hadd (id : InstrId) : Neutral (addExport exported id) := by
    rintro s a s' held ⟨⟩ hs
    exact hs.congr ⟨_, rfl⟩ rfl rfl rfl
  rw [heq]
  exact isQuiet_get.neutral.bind fun _ => (neutral_emit origin hop).bind fun _ =>
    (hadd _).bind fun _ => neutral_pure _

theorem neutral_exportLocals (origin : Option Nat) (locals : List (DeclId × String)) :
    Neutral (exportLocals origin locals) := by
  induction locals with
  | nil => exact neutral_pure _
  | cons e more ih =>
    exact isQuiet_get.neutral.bind fun _ => (isQuiet_readVersion _ _).neutral.bind fun _ =>
      (isQuiet_capture _).neutral.bind fun _ => (neutral_emitExport _ _ rfl).bind fun _ =>
        ih.bind fun _ => neutral_pure _

theorem neutral_exportAll (origin : Option Nat) (locals : List (DeclId × String)) :
    Neutral (exportAll origin locals) :=
  (neutral_exportLocals origin locals).bind fun _ => (neutral_emit _ rfl).bind fun _ => neutral_pure _

/-! ## Blocks and functions -/

/-- Where nothing is held it does not matter where the code goes on. -/
theorem Frame.spares_nil_iff : frame.Spares [] ↔ frame.function.Spares [] ∧ Ir.Spares [] frame.filled := by
  constructor
  · rintro ⟨hfunction, hfilled⟩
    rw [ite_self] at hfunction hfilled
    exact ⟨hfunction, hfilled⟩
  · rintro ⟨hfunction, hfilled⟩
    exact ⟨by rwa [ite_self], by rwa [ite_self]⟩

theorem Frame.Spares.close (h : frame.Spares []) (terminal : Terminal) : (frame.close terminal).Spares [] := by
  obtain ⟨⟨hheader, hblocks⟩, hfilled⟩ := frame.spares_nil_iff.1 h
  refine ⟨hheader, fun b block hb => ?_⟩
  rw [Frame.close, Function.get?_setBlock] at hb
  split at hb
  · obtain rfl := Option.some.inj hb
    exact hfilled.perm frame.filled.reverse_perm.symm
  · exact hblocks b block hb

theorem clears_endBlock (terminal : Terminal) (next : BlockId) : Clears (endBlock terminal next) := by
  rintro s u s' ⟨⟩ hs
  exact ⟨Frame.spares_nil_iff.2 ⟨hs.frame.close terminal, spares_nil⟩, hs.functions⟩

theorem neutral_newBlock : Neutral newBlock := neutral_onEnv _

theorem clears_endUnreachable (terminal : Terminal) : Clears (endUnreachable terminal) :=
  neutral_newBlock.clears.bind fun next => (clears_endBlock terminal next).bind fun _ =>
    (neutral_onFrame ({ · with isReachable := false }) (fun _ => rfl) (fun _ => rfl) fun _ => rfl).clears

theorem neutral_loops (change : List LoopFrame → List LoopFrame) :
    Neutral (onFrame fun frame => { frame with loops := change frame.loops }) :=
  neutral_onFrame _ (fun _ => rfl) (fun _ => rfl) fun _ => rfl

theorem clears_resume (path : Path) : Clears (resume path) := (isQuiet_resume path).neutral.clears

theorem clears_getFrame : Clears getFrame := isQuiet_getFrame.neutral.clears

theorem clears_loopOver {test : Lower Place} {body : Lower Unit} (htest : Neutral test) (hbody : Clears body) :
    Clears (loopOver test body) := by
  refine neutral_newBlock.clears.bind fun testBlock => neutral_newBlock.clears.bind fun bodyBlock =>
    neutral_newBlock.clears.bind fun exit => (clears_endBlock _ _).bind fun _ => clears_getFrame.bind
      fun base => htest.clears.bind fun t => (clears_endBlock _ _).bind fun _ =>
        (neutral_loops (⟨exit, []⟩ :: ·)).clears.bind fun _ => hbody.bind fun _ => clears_getFrame.bind
          fun path => (clears_endBlock _ _).bind fun _ => clears_getFrame.bind fun frame => ?_
  split
  · exact (neutral_throw _).clears
  · next inner loops _ =>
    exact (neutral_loops fun _ => loops).clears.bind fun _ => clears_resume _

theorem clears_leaveLoop : Clears leaveLoop := by
  refine clears_getFrame.bind fun frame => ?_
  split
  · exact (neutral_throw _).clears
  · next inner loops _ =>
    dsimp only
    split
    · exact (neutral_loops fun _ => { inner with breaks := frame.versions :: inner.breaks } :: loops).clears.bind
        fun _ => clears_endUnreachable _
    · exact clears_endUnreachable _

theorem Clears.inScope {act : Lower α} (h : Clears act) (kind : ScopeKind) : Clears (inScope kind act) :=
  (neutral_onScopes _).clears.bind fun _ => h.bind fun a => (neutral_onScopes _).clears.bind fun _ =>
    (neutral_pure a).clears

/-- A nested function leaves what the function around it holds. -/
theorem neutral_inFunction (id : FuncId) (name : Option String) (kind : FunctionKind) (origin : Option Nat)
    {fill : Lower Unit} (h : Clears fill) : Neutral (inFunction id name kind origin fill) := by
  intro s a s' held hrun hs
  unfold inFunction at hrun
  obtain ⟨entry, s₁, hnew, hrun⟩ := bind_eq_ok hrun
  rw [newBlock_run] at hnew
  cases hnew
  obtain ⟨around, s₁, haround, hrun⟩ := bind_eq_ok hrun
  cases haround
  obtain ⟨u₁, s₁, henter, hrun⟩ := bind_eq_ok hrun
  cases henter
  obtain ⟨u₂, s₂, hfill, hrun⟩ := bind_eq_ok hrun
  obtain ⟨u₃, s₃, hleave, hrun⟩ := bind_eq_ok hrun
  cases hleave
  obtain ⟨-, rfl⟩ := pure_run hrun
  have hinside := h.inScope .function _ _ _ hfill
    ⟨⟨⟨spares_nil, by rintro b block ⟨⟩⟩, spares_nil⟩, hs.functions⟩
  refine ⟨⟨hs.frame.function, hs.frame.filled⟩, fun id' f hf => ?_⟩
  have hf : (s₂.functions.insert id _).get? id' = some f := hf
  rw [Table.get?_insert] at hf
  split at hf
  · obtain rfl := Option.some.inj hf
    obtain ⟨hheader, hblocks⟩ := hinside.frame.close (.ret none)
    exact ⟨hheader, hblocks⟩
  · exact hinside.functions id' f hf

/-- The patterns of the parameters are held until they are noted as those of the function. -/
theorem clears_function {names body : Lower Unit} {params : Lower (List Place)} (hnames : Neutral names)
    (hparams : Turns [] params fun places => places) (hkeeps : Keeps params)
    (hbody : Clears body) : Clears (do
      names
      onFrame ({ · with inHeader := true })
      let places ← params
      onFrame fun frame =>
        { frame with inHeader := false, function := { frame.function with params := places } }
      body) := by
  intro s u s' hrun hs
  obtain ⟨u₁, s₁, hrunNames, hrun⟩ := bind_eq_ok hrun
  have hs₁ := hnames s u₁ s₁ [] hrunNames hs
  obtain ⟨u₂, s₂, hopen, hrun⟩ := bind_eq_ok hrun
  cases hopen
  obtain ⟨places, s₂, hrunParams, hrun⟩ := bind_eq_ok hrun
  have hopened : State.Spares { s₁ with frame := { s₁.frame with inHeader := true } } ([] ++ []) := by
    obtain ⟨hframe, hfunctions⟩ := hs₁
    obtain ⟨hfunction, hfilled⟩ := s₁.frame.spares_nil_iff.1 hframe
    exact ⟨⟨hfunction, hfilled⟩, hfunctions⟩
  have hheader : s₂.frame.inHeader = true := (hkeeps _ _ _ hrunParams).1.inHeader
  obtain ⟨⟨hfunction, hfilled⟩, hfunctions⟩ := hparams _ _ _ [] hrunParams hopened
  rw [if_pos hheader] at hfunction hfilled
  obtain ⟨u₃, s₃, hclose, hrun⟩ := bind_eq_ok hrun
  cases hclose
  refine hbody _ _ _ hrun ⟨⟨⟨hfunction.header.mono fun p => ?_, hfunction.blocks⟩, hfilled⟩, hfunctions⟩
  simp only [List.append_nil, List.count_append]
  exact Nat.le_add_left _ _

/-! ## The walk over the tree -/

/-- What a list of statements declares comes before the statements. -/
theorem Clears.declaring (bindings : List LexicalBinding) {hoist : List (DeclId × Place) → Lower Unit}
    {act : Lower Unit} (hhoist : ∀ functions, Neutral (hoist functions)) (hact : Clears act) :
    Clears (do
      let functions ← declareLexical bindings
      hoist functions
      act) :=
  (neutral_declareLexical bindings).clears.bind fun functions => (hhoist functions).clears.bind fun _ => hact

theorem Clears.starting {act : Lower Unit} (hact : Clears act) : Clears (do
    let start ← newBlock
    endBlock (.jump start) start
    act) :=
  neutral_newBlock.clears.bind fun _ => (clears_endBlock _ _).bind fun _ => hact

theorem Neutral.unlessLogical (use : Use) (n : Node) {op : AssignOp} (e : Expr) {act : Lower Place}
    (h : Neutral act) : Neutral (if op.isLogical then keepExpr e >>= use.finish n else act) := by
  split
  · exact neutral_kept use n e
  · exact h

/-- The destructuring takes the pattern. -/
theorem neutral_destructured (n : Node) (op : AssignOp) {target : Pattern} {value : Expr}
    (hvalue : Neutral (lowerExpr .value value))
    (hpattern : Turns [] (lowerPattern .assignment target) fun place => [place]) :
    Neutral (do
      if op == .set && target.isPlain && (← allLocal target) then
        let place ← lowerExpr .value value
        let pattern ← lowerPattern .assignment target
        emit (.destructure pattern place .reassign) n.id
      else keepExpr (.assign n op target value)) := by
  refine (isQuiet_allLocal target).neutral.bind fun _ => ?_
  split
  · exact hvalue.bind fun place => hpattern.bind fun pattern => turns_destructure pattern place .reassign n.id
  · exact neutral_keepExpr _

mutual

theorem neutral_lowerExpr (use : Use) : (e : Expr) → Neutral (lowerExpr use e)
  | .name n ident => (neutral_loadName ident).bind fun _ => neutral_finish use n _
  | .literal n _ => neutral_finished use n rfl
  | .array n elements => (neutral_lowerElements elements).bind fun _ => neutral_finished use n rfl
  | .object n properties => (neutral_lowerProperties properties).bind fun _ => neutral_finished use n rfl
  | .function n f => (neutral_lowerFunc _ f).bind fun _ => neutral_finished use n rfl
  | .unary n op argument => by
    rw [lowerExpr]
    split
    · exact neutral_kept use n _
    · exact (neutral_lowerExpr .value argument).bind fun _ => neutral_finished use n rfl
  | .update n op before argument => neutral_lowerUpdated use n op before argument
  | .binary n _ left right =>
    (neutral_lowerExpr .value left).bind fun _ => (neutral_lowerExpr .value right).bind fun _ =>
      neutral_finished use n rfl
  | .logical n op left right => by
    rw [lowerExpr]
    split
    · exact (neutral_lowerExpr .value left).bind fun _ => (neutral_lowerExpr .value right).bind fun _ =>
        neutral_finished use n rfl
    · exact neutral_kept use n _
  | .assign n op target value =>
    neutral_lowerAssigned use n op (neutral_lowerExpr .value value) target (turns_lowerPattern .assignment target)
  | .conditional n test consequent alternate => by
    rw [lowerExpr]
    split
    · exact (neutral_lowerExpr .value test).bind fun _ => (neutral_lowerExpr .value consequent).bind fun _ =>
        (neutral_lowerExpr .value alternate).bind fun _ => neutral_finished use n rfl
    · exact neutral_kept use n _
  | .call n callee arguments =>
    (neutral_lowerExpr .value callee).bind fun _ => (neutral_lowerElements arguments).bind fun _ =>
      neutral_finished use n rfl
  | .construct n callee arguments =>
    (neutral_lowerExpr .value callee).bind fun _ => (neutral_lowerElements arguments).bind fun _ =>
      neutral_finished use n rfl
  | .member n base _ => (neutral_lowerExpr .value base).bind fun _ => neutral_finished use n rfl
  | .index n base property =>
    (neutral_lowerExpr .value base).bind fun _ => (neutral_lowerExpr .value property).bind fun _ =>
      neutral_finished use n rfl
  | .sequence _ expressions => neutral_lowerSequence use expressions
  | .this n => neutral_kept use n _

theorem neutral_lowerUpdated (use : Use) (n : Node) (op : UpdateOp) (before : Bool) :
    (argument : Expr) → Neutral (lowerExpr use (.update n op before argument))
  | .name _ ident => neutral_stepped n op before (neutral_loadName ident) fun _ => neutral_storeName ident _ _
  | .member _ base _ =>
    (neutral_lowerExpr .value base).bind fun _ =>
      neutral_stepped n op before (neutral_emit _ rfl) fun _ => neutral_emit _ rfl
  | .index _ base _ => (neutral_lowerExpr .value base).bind fun _ => neutral_keepExpr _
  | .literal .. | .array .. | .object .. | .function .. | .unary .. | .update .. | .binary ..
  | .logical .. | .assign .. | .conditional .. | .call .. | .construct .. | .sequence .. | .this .. =>
    neutral_throw _

theorem neutral_lowerAssigned (use : Use) (n : Node) (op : AssignOp) {value : Expr}
    (hvalue : Neutral (lowerExpr .value value)) : (target : Pattern) →
    Turns [] (lowerPattern .assignment target) (fun place => [place]) →
    Neutral (lowerExpr use (.assign n op target value))
  | .name _ ident, _ =>
    .unlessLogical use n _ ((neutral_combined n op (neutral_loadName ident) hvalue).bind fun _ =>
      neutral_storeName _ _ _)
  | .expression m e, hpattern => neutral_lowerAssignedExpr use n op hvalue m e hpattern
  | .array .., hpattern | .object .., hpattern | .withDefault .., hpattern | .rest .., hpattern =>
    .unlessLogical use n _ (neutral_destructured n op hvalue hpattern)

theorem neutral_lowerAssignedExpr (use : Use) (n : Node) (op : AssignOp) {value : Expr}
    (hvalue : Neutral (lowerExpr .value value)) (m : Node) : (e : Expr) →
    Turns [] (lowerPattern .assignment (.expression m e)) (fun place => [place]) →
    Neutral (lowerExpr use (.assign n op (.expression m e) value))
  | .member _ base _, _ =>
    .unlessLogical use n _ ((neutral_lowerExpr .value base).bind fun _ =>
      (neutral_combined n op (neutral_emit _ rfl) hvalue).bind fun _ => neutral_emit _ rfl)
  | .index _ base property, _ =>
    .unlessLogical use n _ ((neutral_lowerExpr .value base).bind fun _ =>
      (neutral_lowerExpr .value property).bind fun _ =>
        (neutral_combined n op (neutral_emit _ rfl) hvalue).bind fun _ => neutral_emit _ rfl)
  | .name .., hpattern | .literal .., hpattern | .array .., hpattern | .object .., hpattern
  | .function .., hpattern | .unary .., hpattern | .update .., hpattern | .binary .., hpattern
  | .logical .., hpattern | .assign .., hpattern | .conditional .., hpattern | .call .., hpattern
  | .construct .., hpattern | .sequence .., hpattern | .this .., hpattern =>
    .unlessLogical use n _ (neutral_destructured n op hvalue hpattern)

theorem neutral_lowerSequence (use : Use) : (es : List Expr) → Neutral (lowerSequence use es)
  | [] => neutral_finishEmpty use
  | [e] => neutral_lowerExpr use e
  | e :: e' :: es => (neutral_lowerExpr .effect e).bind fun _ => neutral_lowerSequence use (e' :: es)

theorem neutral_lowerElements : (es : List Element) → Neutral (lowerElements es)
  | [] => neutral_pure _
  | .one e :: es =>
    (neutral_lowerExpr .value e).bind fun _ => (neutral_lowerElements es).bind fun _ => neutral_pure _
  | .spread e :: es =>
    (neutral_lowerExpr .value e).bind fun _ => (neutral_emit _ rfl).bind fun _ =>
      (neutral_lowerElements es).bind fun _ => neutral_pure _

theorem neutral_lowerKey : (key : PropertyKey) → Neutral (lowerKey key)
  | .name _ => neutral_pure _
  | .string _ => neutral_pure _
  | .number _ => neutral_pure _
  | .computed e => (neutral_lowerExpr .value e).bind fun _ => neutral_pure _

theorem neutral_lowerProperties : (ps : List Syntax.Property) → Neutral (lowerProperties ps)
  | [] => neutral_pure _
  | .keyValue key value _ :: ps =>
    (neutral_lowerKey key).bind fun _ => (neutral_lowerExpr .value value).bind fun _ =>
      (neutral_lowerProperties ps).bind fun _ => neutral_pure _
  | .method key f :: ps =>
    (neutral_lowerKey key).bind fun _ => (neutral_lowerFunc .method f).bind fun _ =>
      (neutral_lowerProperties ps).bind fun _ => neutral_pure _
  | .spread value :: ps =>
    (neutral_lowerExpr .value value).bind fun _ => (neutral_lowerProperties ps).bind fun _ => neutral_pure _

theorem turns_lowerPattern (use : PatternUse) : (p : Pattern) →
    Turns [] (lowerPattern use p) fun place => [place]
  | .name n ident => by
    refine (neutral_target use ident.name).bind fun place => ?_
    rintro s a s' held ⟨⟩ hs
    change (s.put place (.binding ident.name) n.id).Spares ([place] ++ held)
    exact .put hs
  | .array n elements => (turns_lowerHoles use elements).bind fun places => turns_emit (.arrayPattern places) n.id
  | .object n properties =>
    (neutral_lowerPatternProperties use properties).bind fun lowered => turns_emit (.objectPattern lowered) n.id
  | .withDefault n target value =>
    (neutral_lowerExpr .value value).bind fun place => (turns_lowerPattern use target).neutral.bind fun t =>
      turns_emit (.defaultPattern t place) n.id
  | .rest n argument =>
    (turns_lowerPattern use argument).neutral.bind fun place => turns_emit (.rest place) n.id
  | .expression _ _ => by rintro s a s' held ⟨⟩

/-- The elements are held in order. -/
theorem turns_lowerHoles (use : PatternUse) : (ps : List (Option Pattern)) →
    Turns [] (lowerHoles use ps) fun places => places.flatMap Option.toList
  | [] => turns_pure fun _ => Nat.le_refl _
  | none :: ps => (turns_lowerHoles use ps).bind fun _ => turns_pure fun _ => Nat.le_refl _
  | some p :: ps =>
    (turns_lowerPattern use p).bind fun place => ((turns_lowerHoles use ps).beside [place]).bind
      fun places => turns_pure fun p => by simp [List.count_cons]

theorem neutral_lowerPatternProperties (use : PatternUse) :
    (ps : List Syntax.PatternProperty) → Neutral (lowerPatternProperties use ps)
  | [] => neutral_pure _
  | .keyValue key value :: ps =>
    (neutral_lowerKey key).bind fun _ => (turns_lowerPattern use value).neutral.bind fun _ =>
      (neutral_lowerPatternProperties use ps).bind fun _ => neutral_pure _
  | .rest argument :: ps =>
    (turns_lowerPattern use argument).neutral.bind fun _ => (neutral_lowerPatternProperties use ps).bind fun _ =>
      neutral_pure _

theorem turns_lowerParams : (ps : List Pattern) → Turns [] (lowerParams ps) fun places => places
  | [] => turns_pure fun _ => Nat.le_refl _
  | p :: ps =>
    (turns_lowerPattern .parameter p).bind fun place => ((turns_lowerParams ps).beside [place]).bind
      fun places => turns_pure fun p => by simp [List.count_cons]

theorem neutral_lowerFunc (kind : FunctionKind) : (f : Func) → Neutral (lowerFunc kind f)
  | .mk node name params body _ => by
    have hparams := turns_lowerParams params
    have hbody := clears_lowerBody body
    have hkeeps := keeps_lowerParams params
    rw [lowerFunc]
    refine (neutral_onEnv _).bind fun id => neutral_inFunction _ _ _ _ ?_
    split
    · next ident =>
      have hself : Neutral (do
          let d ← newDeclaration ident.name .constKind
          onScopes (Scopes.bind? ident.name d)
          let _ ← newVersion d
          pure ()) :=
        (neutral_newDeclaration _ _).bind fun d => (neutral_onScopes _).bind fun _ =>
          (neutral_newVersion d).bind fun _ => neutral_pure _
      simpa only [bind_assoc, pure_bind] using clears_function hself hparams hkeeps hbody
    · simpa only [pure_bind] using clears_function (neutral_pure ()) hparams hkeeps hbody

theorem clears_lowerBody : (body : Body) → Clears (lowerBody body)
  | .block statements =>
    (neutral_declareHoisted _).clears.bind fun _ =>
      .declaring _ (fun functions => neutral_lowerHoisted functions statements) (clears_lowerAll statements)
  | .expression value => by
    refine (neutral_lowerExpr .value value).clears.bind fun place => ?_
    refine Clears.bind ?_ fun _ => clears_endUnreachable _
    rintro s u s' ⟨⟩ hs
    exact hs.congr ⟨_, rfl⟩ rfl rfl rfl

theorem neutral_lowerHoistedOne (functions : List (DeclId × Place)) :
    (s : Stmt) → Neutral (lowerHoistedOne functions s)
  | .function _ f => by
    have hfunc := neutral_lowerFunc .declaration f
    have hbind (d : DeclId) (id : FuncId) :
        Neutral (modify fun s => { s with env := s.env.bindFunction d id } : Lower PUnit) := by
      rintro s u s' held ⟨⟩ hs
      exact hs.congr ⟨_, rfl⟩ rfl rfl rfl
    unfold lowerHoistedOne
    split
    · exact neutral_pure _
    · split
      · exact hfunc.bind fun id => (hbind _ id).bind fun _ =>
          (neutral_put _ _ rfl).bind fun _ => neutral_pure _
      · exact neutral_pure _
  | .exportDeclaration _ inner => neutral_lowerHoistedOne functions inner
  | .declaration .. | .classDeclaration .. | .return .. | .ifElse .. | .while .. | .doWhile ..
  | .for .. | .forEach .. | .block .. | .break .. | .continue .. | .throw .. | .expression ..
  | .importFrom .. | .exportNames .. | .exportDefault .. | .empty .. => neutral_pure functions

theorem neutral_lowerHoisted (functions : List (DeclId × Place)) :
    (ss : List Stmt) → Neutral (lowerHoisted functions ss)
  | [] => neutral_pure _
  | s :: ss => (neutral_lowerHoistedOne functions s).bind fun rest => neutral_lowerHoisted rest ss

theorem neutral_lowerDeclarators (kind : VarKind) (origin : Option Nat) :
    (ds : List Declarator) → Neutral (lowerDeclarators kind origin ds)
  | [] => neutral_pure _
  | .mk n target (some value) :: ds => by
    have hvalue := neutral_lowerExpr .value value
    have hpattern := turns_lowerPattern .declaration target
    have hrest := neutral_lowerDeclarators kind origin ds
    cases target
    case name ident =>
      exact hvalue.bind fun _ => (neutral_bindVariable ident.name kind _ origin).bind fun _ => hrest
    all_goals exact hvalue.bind fun place => hpattern.bind fun pattern =>
      (turns_destructure pattern place (.ofVarKind kind) origin).bind fun _ => hrest
  | .mk n target none :: ds => by
    have hrest := neutral_lowerDeclarators kind origin ds
    cases target
    case name ident =>
      unfold lowerDeclarators
      dsimp only
      split
      · exact (neutral_emit _ rfl).bind fun _ => (neutral_bindVariable _ _ _ _).bind fun _ => hrest
      · exact hrest
    all_goals exact (neutral_throw _).bind fun _ => hrest

theorem neutral_lowerHead : (head : Option ForHead) → Neutral (lowerHead head)
  | none => neutral_pure _
  | some (.declaration kind declarators) =>
    (neutral_declareLexical _).bind fun _ => neutral_lowerDeclarators kind none declarators
  | some (.expression value) => (neutral_lowerExpr .effect value).bind fun _ => neutral_pure _

theorem neutral_lowerTest : (test : Option Expr) → Neutral (lowerTest test)
  | none => neutral_emit _ rfl
  | some e => neutral_lowerExpr .value e

theorem neutral_lowerUpdate : (update : Option Expr) → Neutral (lowerUpdate update)
  | none => neutral_pure _
  | some e => (neutral_lowerExpr .effect e).bind fun _ => neutral_pure _

theorem neutral_lowerResult : (value : Option Expr) → Neutral (lowerResult value)
  | none => neutral_pure _
  | some e => (neutral_lowerExpr .value e).bind fun _ => neutral_pure _

theorem clears_lowerElse (base : Path) (alternate join : BlockId) :
    (s : Option Stmt) → Clears (lowerElse base alternate join s)
  | none => (neutral_pure _).clears
  | some s =>
    (clears_endBlock _ _).bind fun _ => (clears_resume _).bind fun _ => (clears_lowerStmt true s).bind fun _ =>
      clears_getFrame.bind fun _ => (neutral_pure _).clears

theorem clears_lowerStmt (isArm : Bool) : (s : Stmt) → Clears (lowerStmt isArm s)
  | .declaration n kind declarators => (neutral_lowerDeclarators kind n.id declarators).clears
  | .function _ _ => (neutral_pure _).clears
  | .return _ value => (neutral_lowerResult value).clears.bind fun _ => clears_endUnreachable _
  | .ifElse _ test consequent alternate => by
    have hconsequent := clears_lowerStmt true consequent
    have hafter (t : Place) (c join a : BlockId) : Clears (do
        endBlock (.branch t c a join) c
        let base := (← getFrame).path
        lowerStmt true consequent
        let first := (← getFrame).path
        let second ← lowerElse base a join alternate
        endBlock (.jump join) join
        resume ⟨mergeVersions base.versions [first, second], first.isReachable || second.isReachable⟩) :=
      (clears_endBlock _ _).bind fun _ => clears_getFrame.bind fun _ => hconsequent.bind fun _ =>
        clears_getFrame.bind fun _ => (clears_lowerElse _ a join alternate).bind fun _ =>
          (clears_endBlock _ _).bind fun _ => clears_resume _
    rw [lowerStmt]
    refine (neutral_lowerExpr .value test).clears.bind fun t => neutral_newBlock.clears.bind fun c =>
      neutral_newBlock.clears.bind fun join => ?_
    dsimp only
    split
    · exact neutral_newBlock.clears.bind fun a => hafter t c join a
    · exact (neutral_pure _).clears.bind fun a => hafter t c join a
  | .while _ test body => clears_loopOver (neutral_lowerExpr .value test) (clears_lowerStmt true body)
  | .for _ head test update body =>
    .inScope (.starting ((neutral_lowerHead head).clears.bind fun _ =>
      clears_loopOver (neutral_lowerTest test) ((clears_lowerStmt true body).bind fun _ =>
        (neutral_lowerUpdate update).clears))) .block
  | .block _ statements => by
    have hscope := Clears.inScope (.declaring (statements.flatMap Stmt.lexical)
      (fun functions => neutral_lowerHoisted functions statements) (clears_lowerAll statements)) .block
    cases isArm with
    | true => exact hscope
    | false => exact .starting hscope
  | .break _ none => clears_leaveLoop
  | .break _ (some _) => (neutral_throw _).clears
  | .continue _ _ => (neutral_throw _).clears
  | .expression _ value => ((neutral_lowerExpr .effect value).bind fun _ => neutral_pure _).clears
  | .importFrom n specifiers _ =>
    ((neutral_importAll n.id specifiers).bind fun _ => (neutral_emit _ rfl).bind fun _ =>
      neutral_pure _).clears
  | .exportNames n specifiers source => by
    rw [lowerStmt]
    refine isQuiet_get.neutral.clears.bind fun s => ?_
    split
    · exact (neutral_exportAll _ _).clears
    · exact (neutral_keepStmt _ _).clears
  | .exportDeclaration n inner =>
    (clears_lowerStmt false inner).bind fun _ =>
      ((isQuiet_declaredAll _).neutral.bind fun _ => neutral_exportAll n.id _).clears
  | .exportDefault _ value =>
    ((neutral_lowerExpr .value value).bind fun _ => (neutral_emitExport _ _ rfl).bind fun _ =>
      neutral_pure _).clears
  | .classDeclaration n cls => by
    rw [lowerStmt]
    cases cls.name with
    | some ident =>
      simp only [map_eq_pure_bind, bind_assoc, pure_bind]
      exact ((isQuiet_declared ident.name).neutral.bind fun d => neutral_keepStmt _ (some d)).clears
    | none => exact (neutral_keepStmt _ none).clears
  | .empty _ => (neutral_pure _).clears
  | .doWhile .. | .forEach .. | .throw .. => (neutral_keepStmt _ _).clears

theorem clears_lowerAll : (ss : List Stmt) → Clears (lowerAll ss)
  | [] => (neutral_pure _).clears
  | s :: ss => (clears_lowerStmt false s).bind fun _ => clears_lowerAll ss

end

end Whittle.Lowering

namespace Whittle.Syntax.Module

open Ir Lowering

/-- In lowered code every pattern that is taken is made for it, in the same block. -/
theorem spares_lower {path : String} {m : Syntax.Module} {ir : Ir.Module} {env : Environment}
    (h : m.lower path {} = .ok (ir, env)) {id : FuncId} {f : Function} (hf : ir.functions.get? id = some f) :
    f.Spares [] := by
  change (inScope .function (lowerBody (.block m.body)) (State.start (importsOf m.body)) >>=
    fun out => pure (_, out.2.env)) = _ at h
  cases hrun : inScope .function (lowerBody (.block m.body)) (State.start (importsOf m.body)) with
  | error e =>
    rw [hrun] at h
    cases h
  | ok out =>
    rw [hrun] at h
    cases h
    have hs := (clears_lowerBody (.block m.body)).inScope .function _ _ _ hrun
      ⟨⟨⟨spares_nil, by rintro b block ⟨⟩⟩, spares_nil⟩, by rintro id f ⟨⟩⟩
    have hf : (out.2.functions.insert _ _).get? id = some f := hf
    rw [Table.get?_insert] at hf
    split at hf
    · obtain rfl := Option.some.inj hf
      obtain ⟨hheader, hblocks⟩ := hs.frame.close (.ret none)
      exact ⟨hheader, hblocks⟩
    · exact hs.functions id f hf

end Whittle.Syntax.Module
