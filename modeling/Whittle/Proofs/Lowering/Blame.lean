import Mathlib.Tactic.Common
import Whittle.Proofs.Lowering.Calm
import Whittle.Proofs.Syntax.DeadZone

/-!
# Names that lowering finds used too early

A name is dead in a state of lowering if it stands for a variable that may not be used yet.  No step makes a name
dead that was not, except at the start of a scope, where the names become dead that the tree says
(`ends_declareLexical`).  `Blames` says of an action on which uses it can stop, given what is dead, and of which
names it ends the dead zone; its rules for one action behind another are those of the tree in `Stmt.Early`.
-/

namespace Whittle.Lowering

open Ir Syntax

variable {α β : Type} {s s' s'' : State} {act : Lower α} {next : α → Lower β}
variable {good : α → State → Prop} {good' : β → State → Prop} {early : String → Prop}

/-! ## Names in their dead zone -/

/-- The name stands for a variable that may not be used yet. -/
def State.Dead (s : State) (x : String) : Prop :=
  ∃ d, Scopes.find? s.scopes x = some d ∧ s.frame.uninitialized.contains d = true

/-- Names stand for declarations of the same names. -/
structure State.Named (s : State) : Prop where
  scopes : ∀ scope ∈ s.scopes, ∀ x d, scope.bindings.get? x = some d → s.env.nameOf d = some x
  uninitialized : ∀ d, s.frame.uninitialized.contains d = true → s.env.nameOf d ≠ none

theorem nameOf_ne_none (h : ∀ d x, s.env.nameOf d = some x → s'.env.nameOf d = some x) {d : DeclId}
    (hd : s.env.nameOf d ≠ none) : s'.env.nameOf d ≠ none := by
  obtain ⟨x, hx⟩ := Option.ne_none_iff_exists'.1 hd
  rw [h d x hx]
  nofun

theorem State.Named.find? (h : s.Named) {x : String} {d : DeclId} (hd : Scopes.find? s.scopes x = some d) :
    s.env.nameOf d = some x := by
  obtain ⟨scope, hscope, hget⟩ := List.exists_of_findSome?_eq_some hd
  exact h.scopes scope hscope x d hget

/-- What opened the innermost scope. -/
def State.scopeKind? (s : State) : Option ScopeKind := s.scopes.head?.map (·.kind)

/-- The scopes around the innermost one are the same, and of the variables that were there before none is unusable
that was not. -/
structure Grows (s s' : State) : Prop where
  kind : s'.scopeKind? = s.scopeKind?
  tail : s'.scopes.tail = s.scopes.tail
  names : ∀ d x, s.env.nameOf d = some x → s'.env.nameOf d = some x
  uninitialized : ∀ d, s'.frame.uninitialized.contains d = true →
    s.frame.uninitialized.contains d = true ∨ s.env.nameOf d = none
  named : s'.Named

theorem Grows.refl (h : s.Named) : Grows s s := ⟨rfl, rfl, fun _ _ h => h, fun _ => .inl, h⟩

theorem Grows.trans (h : Grows s s') (h' : Grows s' s'') : Grows s s'' where
  kind := h'.kind.trans h.kind
  tail := h'.tail.trans h.tail
  names d x hd := h'.names d x (h.names d x hd)
  uninitialized d hd := by
    rcases h'.uninitialized d hd with hd | hnone
    · exact h.uninitialized d hd
    · exact .inr (by_contra fun hsome => nameOf_ne_none h.names hsome hnone)
  named := h'.named

theorem Calm.grows (h : Calm s s') (hs : s.Named) : Grows s s' where
  kind := by rw [State.scopeKind?, h.scopes]; rfl
  tail := by rw [h.scopes]
  names := h.names
  uninitialized d hd := .inl (h.uninitialized d hd)
  named := by
    refine ⟨fun scope hscope x d hd => ?_, fun d hd => ?_⟩
    · rw [h.scopes] at hscope
      exact h.names d x (hs.scopes scope hscope x d hd)
    · exact nameOf_ne_none h.names (hs.uninitialized d (h.uninitialized d hd))

theorem Calm.dead (h : Calm s s') {x : String} (hx : s'.Dead x) : s.Dead x := by
  obtain ⟨d, hfind, hd⟩ := hx
  exact ⟨d, h.scopes ▸ hfind, h.uninitialized d hd⟩

theorem Calm.settles_nil (h : Calm s s') (hs : s.Named) : Grows s s' ∧ ∀ x, s'.Dead x → s.Dead x ∧ x ∉ [] :=
  ⟨h.grows hs, fun _ hx => ⟨h.dead hx, List.not_mem_nil⟩⟩

/-- When the scopes are again what they were, no name is dead that was not. -/
theorem Grows.dead (h : Grows s s') (hs : s.Named) (hscopes : s'.scopes = s.scopes) {x : String} (hx : s'.Dead x) :
    s.Dead x := by
  obtain ⟨d, hfind, hd⟩ := hx
  rw [hscopes] at hfind
  rcases h.uninitialized d hd with hd | hnone
  · exact ⟨d, hfind, hd⟩
  · rw [hs.find? hfind] at hnone
    cases hnone

/-! ## Blame -/

variable {kind : ScopeKind} {uses uses' : String → Prop → Prop} {settled settled' : List String}

/-- A name that the action finds used too early is one of the given uses, which may ask whether the name was dead
before.  Behind the action no name is dead that was not, and none of the settled names is. -/
def Blames (kind : ScopeKind) (uses : String → Prop → Prop) (settled : List String) (act : Lower α) : Prop :=
  ∀ s : State, s.Named → s.scopeKind? = some kind →
    Ends act s (fun _ s' => Grows s s' ∧ ∀ x, s'.Dead x → s.Dead x ∧ x ∉ settled)
      fun x => ∀ dead : Prop, (s.Dead x → dead) → uses x dead

/-- The same of the inside of a scope, which may leave names dead that the scope declares. -/
def BlamesWithin (kind : ScopeKind) (uses : String → Prop → Prop) (act : Lower α) : Prop :=
  ∀ s : State, s.Named → s.scopeKind? = some kind →
    Ends act s (fun _ s' => Grows s s') fun x => ∀ dead : Prop, (s.Dead x → dead) → uses x dead

theorem Blames.within (h : Blames kind uses settled act) : BlamesWithin kind uses act := fun s hs hkind =>
  (h s hs hkind).imp (fun _ _ => And.left) fun _ => id

theorem Blames.calm {p : Lower α} [h : IsCalm p] : Blames kind uses [] p := fun s hs _ =>
  (h.ends s).imp (fun _ _ hcalm => hcalm.settles_nil hs) nofun

theorem blames_refuse (construct : String) : Blames kind uses settled (refuse construct : Lower α) :=
  fun _ _ _ => nofun

theorem Blames.imp (h : Blames kind uses settled act) (huses : ∀ x dead, uses x dead → uses' x dead) :
    Blames kind uses' settled act := fun s hs hkind =>
  (h s hs hkind).blame fun x hx dead hdead => huses x dead (hx dead hdead)

theorem Blames.settles (h : Blames kind uses settled act) (hsettled : settled' ⊆ settled) :
    Blames kind uses settled' act := fun s hs hkind =>
  (h s hs hkind).imp (fun _ _ h => ⟨h.1, fun x hx => (h.2 x hx).imp_right fun hnot hmem => hnot (hsettled hmem)⟩)
    fun _ => id

theorem Blames.ends_bind (h : Blames kind uses settled act) (h' : ∀ a, Blames kind uses' settled' (next a))
    (hs : s.Named) (hkind : s.scopeKind? = some kind) :
    Ends (act >>= next) s (fun _ s' => Grows s s' ∧ ∀ x, s'.Dead x → s.Dead x ∧ x ∉ settled ++ settled')
      fun x => (∀ dead : Prop, (s.Dead x → dead) → uses x dead) ∨
        ∀ dead : Prop, (s.Dead x ∧ x ∉ settled → dead) → uses' x dead := by
  refine ((h s hs hkind).blame fun x => .inl).bind fun a s' ⟨hgrows, hdead⟩ => ?_
  refine (h' a s' hgrows.named (hgrows.kind.trans hkind)).imp ?_ fun x hx => .inr fun dead hbefore => ?_
  · rintro b s'' ⟨hgrows', hdead'⟩
    refine ⟨hgrows.trans hgrows', fun x hx => ?_⟩
    obtain ⟨hx, hsettled'⟩ := hdead' x hx
    obtain ⟨hx, hsettled⟩ := hdead x hx
    exact ⟨hx, fun hmem => (List.mem_append.1 hmem).elim hsettled hsettled'⟩
  · exact hx dead fun hx => hbefore (hdead x hx)

/-- What an action settles is no longer dead in front of the next one. -/
theorem Blames.andThen (h : Blames kind uses settled act) (h' : ∀ a, Blames kind uses' settled' (next a)) :
    Blames kind (fun x dead => uses x dead ∨ uses' x (dead ∧ x ∉ settled)) (settled ++ settled') (act >>= next) :=
  fun _ hs hkind => (h.ends_bind h' hs hkind).blame fun _ hx _ hdead =>
    hx.imp (fun hx => hx _ hdead) fun hx => hx _ fun h => ⟨hdead h.1, h.2⟩

theorem Blames.seq (h : Blames kind uses settled act) (h' : ∀ a, Blames kind uses settled' (next a)) :
    Blames kind uses (settled ++ settled') (act >>= next) :=
  fun _ hs hkind => (h.ends_bind h' hs hkind).blame fun _ hx _ hdead =>
    hx.elim (fun hx => hx _ hdead) fun hx => hx _ fun h => hdead h.1

theorem Blames.settle (h : Blames kind uses settled act) (h' : ∀ a, Blames kind uses [] (next a)) :
    Blames kind uses settled (act >>= next) := by
  simpa only [List.append_nil] using h.seq h'

theorem Blames.bind (h : Blames kind uses [] act) (h' : ∀ a, Blames kind uses settled (next a)) :
    Blames kind uses settled (act >>= next) :=
  h.seq h'

/-! Reading and writing. -/

theorem dead_of_isTooEarly {x : String} {d : DeclId} (hfind : Scopes.find? s.scopes x = some d)
    (h : s.isTooEarly d = true) : s.Dead x :=
  ⟨d, hfind, (Bool.and_eq_true_iff.1 h).2⟩

theorem blames_loadName (ident : Ident) :
    Blames kind (fun x dead => dead ∧ ident.name = x) [] (loadName ident) := by
  intro s hs hkind
  refine .after (a := Scopes.find? s.scopes ident.name) rfl ?_
  cases hfind : Scopes.find? s.scopes ident.name with
  | none =>
    have hcalm : IsCalm (do
        if ident.name == "undefined" && !(← get).globals.contains ident.name then
          emit (.literal .undefined) ident.node.id
        else emit (.loadGlobal ident.name) ident.node.id) := inferInstance
    exact Blames.calm s hs hkind
  | some d =>
    refine ((ends_readVersion ident.name d s).blame ?_).bind fun place s' hcalm => ?_
    · rintro x ⟨hearly, rfl⟩ dead hdead
      exact ⟨hdead (dead_of_isTooEarly hfind hearly), rfl⟩
    · have hemit : IsCalm (emit (.loadLocal place) ident.node.id) := inferInstance
      exact (hemit.ends s').imp (fun _ _ hcalm' => (hcalm.trans hcalm').settles_nil hs) nofun

theorem blames_storeName (ident : Ident) (value : Place) (origin : Option Nat) :
    Blames kind (fun x dead => dead ∧ ident.name = x) [] (storeName ident value origin) := by
  intro s hs hkind
  refine .after (a := Scopes.find? s.scopes ident.name) rfl ?_
  cases hfind : Scopes.find? s.scopes ident.name with
  | none => exact Blames.calm s hs hkind
  | some d =>
    refine .after (isTooEarly_eq d s) ?_
    split
    · next hearly =>
      rintro x ⟨⟩ dead hdead
      exact ⟨hdead (dead_of_isTooEarly hfind hearly), rfl⟩
    · have hcalm : IsCalm (do
          let target ← newVersion d
          emit (.storeLocal target value .reassign) origin) := inferInstance
      exact Blames.calm s hs hkind

/-- Exported declarations are read under the names that they have. -/
theorem ends_exportLocals (origin : Option Nat) {names : List String} {locals : List (DeclId × String)} (hs : s.Named)
    (hlocals : ∀ p ∈ locals, ∃ x ∈ names, Scopes.find? s.scopes x = some p.1) :
    Ends (exportLocals origin locals) s (fun _ s' => Calm s s') fun x => s.Dead x ∧ x ∈ names := by
  induction locals generalizing s with
  | nil => exact .of_run rfl (.refl s)
  | cons p locals ih =>
    obtain ⟨d, exported⟩ := p
    obtain ⟨⟨x, hx, hfind⟩, hlocals⟩ := List.forall_mem_cons.1 hlocals
    refine .after (a := s) rfl ?_
    rw [hs.find? hfind]
    refine ((ends_readVersion x d s).blame ?_).bind fun place s' hcalm => ?_
    · rintro y ⟨hearly, rfl⟩
      exact ⟨dead_of_isTooEarly hfind hearly, hx⟩
    refine .calm fun _ s₁ hcapture => .calm fun specifier s₂ hemit => ?_
    have hcalm := (hcalm.trans hcapture).trans hemit
    refine ((ih (hcalm.grows hs).named ?_).blame ?_).bind fun rest s₃ hrest =>
      .of_run rfl (hcalm.trans hrest)
    · rw [hcalm.scopes]
      exact hlocals
    · exact fun y hy => ⟨hcalm.dead hy.1, hy.2⟩

/-- Declarations are exported that the given names stand for. -/
theorem ends_exportAll (origin : Option Nat) {names : List String} {locals : List (DeclId × String)} (hs : s.Named)
    (hlocals : ∀ p ∈ locals, ∃ x ∈ names, Scopes.find? s.scopes x = some p.1) :
    Ends (exportAll origin locals) s (fun _ s' => Grows s s' ∧ ∀ x, s'.Dead x → s.Dead x ∧ x ∉ [])
      fun x => ∀ dead : Prop, (s.Dead x → dead) → dead ∧ x ∈ names := by
  refine ((ends_exportLocals origin hs hlocals).blame ?_).bind fun specifiers s' hcalm => ?_
  · exact fun x hx dead hdead => ⟨hdead hx.1, hx.2⟩
  · exact .calm fun _ s'' hemit => .of_run rfl ((hcalm.trans hemit).settles_nil hs)

theorem find?_of_exported? {scopes : Scopes} {specifiers : List Syntax.ExportSpecifier}
    {locals : List (DeclId × String)} (h : Scopes.exported? scopes specifiers = some locals) :
    ∀ p ∈ locals, ∃ x ∈ specifiers.map (·.bound.name), Scopes.find? scopes x = some p.1 := by
  rw [Scopes.exported?] at h
  induction specifiers generalizing locals with
  | nil =>
    rw [List.mapM_nil] at h
    obtain rfl := Option.some.inj h
    exact nofun
  | cons specifier specifiers ih =>
    simp only [List.mapM_cons, Option.bind_eq_bind, Option.bind_eq_some_iff, Option.map_eq_some_iff] at h
    obtain ⟨p, ⟨d, hfind, rfl⟩, rest, hrest, hlocals⟩ := h
    obtain rfl := Option.some.inj hlocals
    refine List.forall_mem_cons.2 ⟨⟨_, List.mem_cons_self, hfind⟩, fun p hp => ?_⟩
    obtain ⟨x, hx, hfind⟩ := ih hrest p hp
    exact ⟨x, List.mem_cons_of_mem _ hx, hfind⟩

theorem ends_declared (name : String) (s : State) :
    Ends (declared name) s (fun d s' => s' = s ∧ Scopes.find? s.scopes name = some d) fun _ => False := by
  refine .after (a := Scopes.find? s.scopes name) rfl ?_
  cases hfind : Scopes.find? s.scopes name with
  | none => exact nofun
  | some d => exact .of_run rfl ⟨rfl, rfl⟩

theorem ends_declaredAll (names : List String) (s : State) :
    Ends (declaredAll names) s
      (fun locals s' => s' = s ∧ ∀ p ∈ locals, ∃ x ∈ names, Scopes.find? s.scopes x = some p.1) fun _ => False := by
  induction names with
  | nil => exact .of_run rfl ⟨rfl, nofun⟩
  | cons name names ih =>
    refine (ends_declared name s).bind fun d s' hd => ?_
    obtain ⟨rfl, hfind⟩ := hd
    refine ih.bind fun locals s'' hlocals => .of_run rfl ?_
    obtain ⟨rfl, hlocals⟩ := hlocals
    refine ⟨rfl, List.forall_mem_cons.2 ⟨⟨name, List.mem_cons_self, hfind⟩, fun p hp => ?_⟩⟩
    obtain ⟨x, hx, hfind⟩ := hlocals p hp
    exact ⟨x, List.mem_cons_of_mem _ hx, hfind⟩

/-! Declaring occurrences. -/

/-- A declaring occurrence ends the dead zone. -/
theorem ends_bindingPlace (d : DeclId) (s : State) :
    Ends (bindingPlace d) s (fun _ s' => Calm s s' ∧ s'.frame.uninitialized.contains d = false) fun _ => False := by
  refine .after (a := s.frame) rfl (.after rfl (.after (a := s.assigned d) rfl ?_))
  have herased : (s.assigned d).frame.uninitialized.contains d = false := by
    simp [State.assigned, Table.contains_erase]
  have hassigned : Calm s (s.assigned d) := by
    refine ⟨rfl, fun _ _ h => h, fun x hx => ?_⟩
    have hx : (s.frame.uninitialized.erase d).contains x = true := hx
    rw [Table.contains_erase, Bool.and_eq_true] at hx
    exact hx.2
  have hcalm {act : Lower Place} [h : IsCalm act] : Ends act (s.assigned d)
      (fun _ s' => Calm s s' ∧ s'.frame.uninitialized.contains d = false) fun _ => False := by
    exact (h.ends _).imp (fun _ _ hcalm => ⟨hassigned.trans hcalm, hcalm.usable herased⟩) fun _ => id
  split
  · split
    · exact hcalm
    · exact hcalm
  · exact hcalm

/-- Behind a declaring occurrence the name is not dead. -/
theorem Calm.settles {d : DeclId} {name : String} (h : Calm s s') (hs : s.Named)
    (hfind : Scopes.find? s.scopes name = some d) (hd : s'.frame.uninitialized.contains d = false) :
    Grows s s' ∧ ∀ x, s'.Dead x → s.Dead x ∧ x ∉ [name] := by
  refine ⟨h.grows hs, fun x hx => ⟨h.dead hx, fun hmem => ?_⟩⟩
  obtain rfl := List.mem_singleton.1 hmem
  obtain ⟨d', hfind', hd'⟩ := hx
  rw [h.scopes, hfind] at hfind'
  obtain rfl := Option.some.inj hfind'
  rw [hd] at hd'
  cases hd'

theorem blames_binding (name : String) : Blames kind uses [name] (declared name >>= bindingPlace) := by
  intro s hs hkind
  refine ((ends_declared name s).blame nofun).bind fun d s' hdeclared => ?_
  obtain ⟨rfl, hfind⟩ := hdeclared
  exact (ends_bindingPlace d s').imp (fun _ _ h => h.1.settles hs hfind h.2) nofun

theorem blames_bindVariable (name : String) (word : VarKind) (value : Place) (origin : Option Nat) :
    Blames kind uses [name] (bindVariable name word value origin) := by
  have hbind : Blames kind uses [name] (declared name >>= bindingPlace >>= fun target => do
      let _ ← emit (.storeLocal target value (.ofVarKind word)) origin) :=
    (blames_binding name).settle fun _ => .calm
  simpa only [bindVariable, bind_assoc] using hbind

theorem blames_keepClass (name : String) (stmt : Stmt) :
    Blames kind uses [name] (declared name >>= fun d => keepStmt stmt (some d)) := by
  intro s hs hkind
  refine ((ends_declared name s).blame nofun).bind fun d s₀ hdeclared => ?_
  obtain ⟨rfl, hfind⟩ := hdeclared
  refine .calm fun bindings s₁ hcapture => ?_
  refine ((ends_bindingPlace d s₁).blame nofun).bind fun place s₂ hplace => ?_
  refine .calm fun _ s₃ hput => .of_run rfl ?_
  exact ((hcapture.trans hplace.1).trans hput).settles hs hfind (hput.usable hplace.2)

/-! Opening scopes. -/

/-- A name is bound in the innermost scope to a new declaration. -/
structure Introduces (s s' : State) (name : String) (d : DeclId) : Prop where
  scopes : ∃ scope scopes, s.scopes = scope :: scopes ∧
    s'.scopes = { scope with bindings := scope.bindings.insert name d } :: scopes
  fresh : s.env.nameOf d = none
  name : s'.env.nameOf d = some name
  names : ∀ d x, s.env.nameOf d = some x → s'.env.nameOf d = some x
  uninitialized : ∀ d, s'.frame.uninitialized.contains d = true → s.frame.uninitialized.contains d = true

namespace Introduces

variable {name : String} {d : DeclId}

theorem calm (h : Introduces s s' name d) (h' : Calm s' s'') : Introduces s s'' name d := by
  obtain ⟨scope, scopes, hs, hs'⟩ := h.scopes
  exact ⟨⟨scope, scopes, hs, h'.scopes.trans hs'⟩, h.fresh, h'.names d name h.name,
    fun d x hd => h'.names d x (h.names d x hd), fun d hd => h.uninitialized d (h'.uninitialized d hd)⟩

theorem find? (h : Introduces s s' name d) (x : String) :
    Scopes.find? s'.scopes x = if x = name then some d else Scopes.find? s.scopes x := by
  obtain ⟨scope, scopes, hs, hs'⟩ := h.scopes
  rw [hs, hs', Scopes.find?, Scopes.find?, List.findSome?_cons, List.findSome?_cons, Table.get?_insert]
  by_cases hx : x = name
  · simp [hx]
  · simp [hx]

theorem named (h : Introduces s s' name d) (hs : s.Named) : s'.Named := by
  refine ⟨fun scope' hscope' x e hget => ?_,
    fun e he => nameOf_ne_none h.names (hs.uninitialized e (h.uninitialized e he))⟩
  obtain ⟨scope, scopes, hscopes, hscopes'⟩ := h.scopes
  rw [hscopes'] at hscope'
  have hold : ∀ t ∈ scope :: scopes, ∀ x d, t.bindings.get? x = some d → s'.env.nameOf d = some x :=
    fun t ht x d hd => h.names d x (hs.scopes t (hscopes ▸ ht) x d hd)
  rcases List.mem_cons.1 hscope' with rfl | hscope'
  · simp only [Table.get?_insert] at hget
    split at hget
    · next hx =>
      obtain rfl := Option.some.inj hget
      exact hx ▸ h.name
    · exact hold scope List.mem_cons_self x e hget
  · exact hold scope' (List.mem_cons_of_mem _ hscope') x e hget

theorem grows (h : Introduces s s' name d) (hs : s.Named) : Grows s s' := by
  obtain ⟨scope, scopes, hscopes, hscopes'⟩ := h.scopes
  refine ⟨?_, by rw [hscopes, hscopes']; rfl, h.names, fun e he => .inl (h.uninitialized e he), h.named hs⟩
  rw [State.scopeKind?, State.scopeKind?, hscopes, hscopes']
  rfl

/-- The new declaration may be used at once. -/
theorem usable (h : Introduces s s' name d) (hs : s.Named) : s'.frame.uninitialized.contains d = false := by
  by_contra hcontains
  exact hs.uninitialized d (h.uninitialized d (Bool.not_eq_false _ ▸ hcontains)) h.fresh

theorem dead (h : Introduces s s' name d) (hs : s.Named) {x : String} (hx : s'.Dead x) : s.Dead x ∧ x ≠ name := by
  obtain ⟨e, hfind, he⟩ := hx
  rw [h.find?] at hfind
  split at hfind
  · obtain rfl := Option.some.inj hfind
    rw [h.usable hs] at he
    cases he
  · next hx => exact ⟨⟨e, hfind, h.uninitialized e he⟩, hx⟩

/-- Until the variable is declared, its name is dead. -/
theorem guard (h : Introduces s s' name d) (hs : s.Named)
    (hs'' : s'' = { s' with frame := { s'.frame with uninitialized := s'.frame.uninitialized.add d } }) :
    Grows s s'' ∧ ∀ x, s''.Dead x → x = name ∨ s.Dead x := by
  have hgrows := h.grows hs
  have hscopes : s''.scopes = s'.scopes := by rw [hs'']
  have henv : s''.env = s'.env := by rw [hs'']
  have huninitialized (e : DeclId) (he : s''.frame.uninitialized.contains e = true) :
      e = d ∨ s.frame.uninitialized.contains e = true := by
    rw [hs''] at he
    simp only [KeySet.contains_add, Bool.or_eq_true, decide_eq_true_eq] at he
    exact he.imp_right (h.uninitialized e)
  have hnamed : s''.Named := by
    refine ⟨hscopes ▸ henv ▸ hgrows.named.scopes, fun e he => ?_⟩
    rw [henv]
    rcases huninitialized e he with rfl | he
    · exact Option.ne_none_iff_exists'.2 ⟨name, h.name⟩
    · exact nameOf_ne_none h.names (hs.uninitialized e he)
  refine ⟨⟨?_, hscopes ▸ hgrows.tail, henv ▸ h.names, fun e he => ?_, hnamed⟩, fun x hx => ?_⟩
  · rw [State.scopeKind?, hscopes]
    exact hgrows.kind
  · rcases huninitialized e he with rfl | he
    · exact .inr h.fresh
    · exact .inl he
  · obtain ⟨e, hfind, he⟩ := hx
    rw [hscopes, h.find?] at hfind
    split at hfind
    · next hx => exact .inl hx
    · rcases huninitialized e he with rfl | he
      · exact absurd ((hs.find? hfind).symm.trans h.fresh) (Option.some_ne_none x)
      · exact .inr ⟨e, hfind, he⟩

end Introduces

theorem onScopes_eq {change : Scopes → Option Scopes} {scopes : Scopes} (h : change s.scopes = some scopes) :
    onScopes change s = .ok ((), { s with scopes }) := by
  have hget : (get : Lower State) s = .ok (s, s) := rfl
  rw [onScopes, bind_of_ok hget, h]
  rfl

theorem cons_of_scopeKind? (h : s.scopeKind? = some kind) :
    ∃ scope scopes, s.scopes = scope :: scopes ∧ scope.kind = kind := by
  obtain ⟨scope, hhead, hkind⟩ := Option.map_eq_some_iff.1 h
  obtain ⟨scopes, hscopes⟩ := List.head?_eq_some_iff.1 hhead
  exact ⟨scope, scopes, hscopes, hkind⟩

/-- Names are bound in the innermost scope. -/
def BindsHere (kind : ScopeKind) (bind : String → DeclId → Scopes → Option Scopes) : Prop :=
  ∀ name d scope scopes, scope.kind = kind →
    bind name d (scope :: scopes) = some ({ scope with bindings := scope.bindings.insert name d } :: scopes)

theorem bindsHere_bind? : BindsHere kind Scopes.bind? := fun _ _ _ _ _ => rfl

theorem bindsHere_hoist? : BindsHere .function Scopes.hoist? := fun name d scope scopes hkind => by
  rw [Scopes.hoist?, if_pos (by rw [hkind]; rfl)]
  rfl

/-- The beginning of every declaration that binds a name. -/
theorem ends_introduce {bind : String → DeclId → Scopes → Option Scopes} (hbind : BindsHere kind bind)
    (hkind : s.scopeKind? = some kind) (name : String) (declKind : DeclKind) {next : DeclId → Lower β}
    (h : ∀ d s', Introduces s s' name d → Ends (next d) s' good' early) :
    Ends (do
      let d ← newDeclaration name declKind
      onScopes (bind name d)
      next d) s good' early := by
  obtain ⟨scope, scopes, hscopes, hscope⟩ := cons_of_scopeKind? hkind
  refine .after (newDeclaration_run name declKind s) ?_
  have hbound := hbind name s.nextDeclaration scope scopes hscope
  rw [← hscopes] at hbound
  refine .after (onScopes_eq hbound) (h _ _ ⟨⟨scope, scopes, hscopes, rfl⟩, ?_, ?_, ?_, ?_⟩)
  · rw [Environment.nameOf, Environment.declaration?, State.nextDeclaration, Array.getElem?_size]
    rfl
  · exact congrArg (·.bind (·.name)) ((Environment.declaration?_declare ..).trans (if_pos rfl))
  · exact fun d x hd => nameOf_declare_of_some _ _ _ hd
  · exact fun _ hd => hd

/-- A declaration that may be used at once. -/
theorem blames_introduce (name : String) (declKind : DeclKind) {next : DeclId → Lower β} [h : ∀ d, IsCalm (next d)] :
    Blames kind uses [] (do
      let d ← newDeclaration name declKind
      onScopes (Scopes.bind? name d)
      next d) := by
  intro s hs hkind
  refine ends_introduce bindsHere_bind? hkind name declKind fun d s' hintroduces => ?_
  refine ((h d).ends s').imp (fun _ s'' hcalm => ?_) nofun
  have hintroduces := hintroduces.calm hcalm
  exact ⟨hintroduces.grows hs, fun x hx => ⟨(hintroduces.dead hs hx).1, List.not_mem_nil⟩⟩

theorem ends_declare {bind : String → DeclId → Scopes → Option Scopes} (hbind : BindsHere kind bind)
    (hkind : s.scopeKind? = some kind) (name : String) (declKind : DeclKind) :
    Ends (declare name declKind bind) s (fun d s' => Introduces s s' name d) fun _ => False := by
  refine ends_introduce hbind hkind name declKind fun d s₁ hintroduces => ?_
  refine .calm fun _ s₂ hversion => .after rfl (.of_run rfl ?_)
  exact (hintroduces.calm hversion).calm ⟨rfl, fun _ _ h => h, fun _ h => h⟩

theorem blames_declareHoisted (idents : List Ident) : Blames .function uses [] (declareHoisted idents) := by
  induction idents with
  | nil => exact .calm (p := pure ())
  | cons ident idents ih =>
    have hdeclare : Blames .function uses [] (do let _ ← declare ident.name .varKind Scopes.hoist?) := by
      intro s hs hkind
      refine ((ends_declare bindsHere_hoist? hkind ident.name .varKind).blame nofun).bind
        fun d s' hintroduces => .of_run rfl ⟨hintroduces.grows hs, fun x hx => ?_⟩
      exact ⟨(hintroduces.dead hs hx).1, List.not_mem_nil⟩
    unfold declareHoisted
    refine Blames.calm.bind fun s => ?_
    dsimp only
    split
    · simpa only [bind_assoc, pure_bind] using hdeclare.bind fun _ => ih
    · exact ih

/-- The names of variables are dead until they are declared, those of functions are not. -/
theorem ends_declareLexical (bindings : List LexicalBinding) (hs : s.Named) (hkind : s.scopeKind? = some kind) :
    Ends (declareLexical bindings) s
      (fun _ s' => Grows s s' ∧ ∀ x, s'.Dead x →
        x ∈ LexicalBinding.guarded bindings ∨ s.Dead x ∧ x ∉ LexicalBinding.names bindings)
      fun _ => False := by
  induction bindings generalizing s with
  | nil => exact .of_run rfl ⟨.refl hs, fun x hx => .inr ⟨hx, List.not_mem_nil⟩⟩
  | cons b bindings ih =>
    have hvariable (declKind : DeclKind) (hb : b.kind ≠ .functionBinding) : Ends (do
        declareLexical.declareVariable b.ident.name declKind
        declareLexical bindings) s
        (fun _ s' => Grows s s' ∧ ∀ x, s'.Dead x → x ∈ LexicalBinding.guarded (b :: bindings) ∨
          s.Dead x ∧ x ∉ LexicalBinding.names (b :: bindings)) fun _ => False := by
      have hdeclare : Ends (declareLexical.declareVariable b.ident.name declKind) s
          (fun _ s' => Grows s s' ∧ ∀ x, s'.Dead x → x = b.ident.name ∨ s.Dead x) fun _ => False :=
        (ends_declare bindsHere_bind? hkind b.ident.name declKind).bind fun d s' hintroduces =>
          .of_run rfl (hintroduces.guard hs rfl)
      refine hdeclare.bind fun _ s' hdeclared => ?_
      refine (ih hdeclared.1.named (hdeclared.1.kind.trans hkind)).imp (fun functions s'' hrest => ?_) fun _ => id
      refine ⟨hdeclared.1.trans hrest.1, fun x hx => ?_⟩
      rw [LexicalBinding.guarded_cons, if_neg hb, LexicalBinding.names_cons, List.mem_cons, List.mem_cons, not_or]
      rcases hrest.2 x hx with hx | ⟨hx, hnot⟩
      · exact .inl (.inr hx)
      · by_cases hxb : x = b.ident.name
        · exact .inl (.inl hxb)
        · exact .inr ⟨(hdeclared.2 x hx).resolve_left hxb, hxb, hnot⟩
    unfold declareLexical
    split
    · next hfunction =>
      refine ends_introduce bindsHere_bind? hkind b.ident.name .functionKind fun d s₁ hintroduces => ?_
      refine .calm fun place s₂ hversion => ?_
      have hintroduces := hintroduces.calm hversion
      have hgrows := hintroduces.grows hs
      refine (ih hgrows.named (hgrows.kind.trans hkind)).bind fun functions s₃ hrest => .of_run rfl ?_
      refine ⟨hgrows.trans hrest.1, fun x hx => ?_⟩
      rw [LexicalBinding.guarded_cons, if_pos hfunction, LexicalBinding.names_cons, List.mem_cons, not_or]
      rcases hrest.2 x hx with hx | ⟨hx, hnot⟩
      · exact .inl hx
      · obtain ⟨hx, hne⟩ := hintroduces.dead hs hx
        exact .inr ⟨hx, hne, hnot⟩
    · next hb => exact hvariable _ (by rw [hb]; decide)
    · next hb => exact hvariable _ (by rw [hb]; decide)
    · next hb => exact hvariable _ (by rw [hb]; decide)

theorem BlamesWithin.imp (h : BlamesWithin kind uses act) (huses : ∀ x dead, uses x dead → uses' x dead) :
    BlamesWithin kind uses' act := fun s hs hkind =>
  (h s hs hkind).blame fun x hx dead hdead => huses x dead (hx dead hdead)

theorem Blames.within_bind (h : Blames kind uses [] act) (h' : ∀ a, BlamesWithin kind uses (next a)) :
    BlamesWithin kind uses (act >>= next) := by
  intro s hs hkind
  refine (h s hs hkind).bind fun a s' ⟨hgrows, hdead⟩ => ?_
  refine (h' a s' hgrows.named (hgrows.kind.trans hkind)).imp (fun _ _ => hgrows.trans) fun x hx dead hbefore => ?_
  exact hx dead fun hx => hbefore (hdead x hx).1

/-- What a scope declares is dead at its start. -/
theorem BlamesWithin.declaring {bindings : List LexicalBinding} {next : List (DeclId × Place) → Lower α}
    (h : ∀ functions, BlamesWithin kind uses (next functions)) :
    BlamesWithin kind (fun x dead =>
        uses x (x ∈ LexicalBinding.guarded bindings ∨ dead ∧ x ∉ LexicalBinding.names bindings))
      (declareLexical bindings >>= next) := by
  intro s hs hkind
  refine ((ends_declareLexical bindings hs hkind).blame nofun).bind fun functions s' ⟨hgrows, hdead⟩ => ?_
  refine (h functions s' hgrows.named (hgrows.kind.trans hkind)).imp (fun _ _ => hgrows.trans)
    fun x hx dead hbefore => ?_
  exact hx _ fun hx => (hdead x hx).imp_right fun hx => hx.imp_left hbefore

/-- Behind a scope the names stand again for what they stood for. -/
theorem BlamesWithin.ends_inScope (h : BlamesWithin kind uses act) (hs : s.Named) :
    Ends (inScope kind act) s (fun _ s' => Grows s s' ∧ s'.scopes = s.scopes)
      fun x => ∀ dead : Prop, (s.Dead x → dead) → uses x dead := by
  have hfind (x : String) : Scopes.find? (⟨kind, ∅⟩ :: s.scopes) x = Scopes.find? s.scopes x := by
    rw [Scopes.find?, List.findSome?_cons]
    rfl
  refine .after (onScopes_eq rfl) ?_
  refine ((h { s with scopes := ⟨kind, ∅⟩ :: s.scopes } ⟨?_, hs.uninitialized⟩ rfl).blame ?_).bind
    fun a s' hgrows => ?_
  · intro scope hscope x d hget
    rcases List.mem_cons.1 hscope with rfl | hscope
    · cases hget
    · exact hs.scopes scope hscope x d hget
  · intro x hx dead hdead
    refine hx dead fun ⟨d, hd, huninitialized⟩ => hdead ⟨d, ?_, huninitialized⟩
    rwa [← hfind]
  · obtain ⟨scope, scopes, hscopes, -⟩ := cons_of_scopeKind? hgrows.kind
    have hrest : scopes = s.scopes := by
      have htail := hgrows.tail
      rwa [hscopes] at htail
    subst hrest
    have hclose : onScopes Scopes.leave? s' = .ok ((), { s' with scopes := s.scopes }) :=
      onScopes_eq (by rw [hscopes]; rfl)
    refine .after hclose (.of_run rfl ⟨⟨rfl, rfl, hgrows.names, hgrows.uninitialized, ?_⟩, rfl⟩)
    refine ⟨fun t ht x d hget => ?_, hgrows.named.uninitialized⟩
    exact hgrows.names d x (hs.scopes t ht x d hget)

theorem BlamesWithin.inScope {kind' : ScopeKind} (h : BlamesWithin kind uses act) :
    Blames kind' uses [] (inScope kind act) :=
  fun _ hs _ => (h.ends_inScope hs).imp
    (fun _ _ ⟨hgrows, hscopes⟩ => ⟨hgrows, fun _ hx => ⟨hgrows.dead hs hscopes hx, List.not_mem_nil⟩⟩) fun _ => id

/-- At the start of a function nothing is dead, and behind it what was. -/
theorem BlamesWithin.inFunction {kind' : ScopeKind} {fill : Lower Unit} (h : BlamesWithin .function uses fill)
    (id : FuncId) (name : Option String) (kind : FunctionKind) (origin : Option Nat) :
    Blames kind' (fun x _ => uses x False) [] (inFunction id name kind origin fill) := by
  intro s hs hkind
  refine .calm fun entry s₁ hblock => .after (a := s₁.frame) rfl ?_
  have hs₁ := (hblock.grows hs).named
  obtain ⟨s₂, hstart⟩ : ∃ s₂ : State, s₂ = { s₁ with
    frame := Frame.start (Function.start id name (some s₁.frame.function.id) kind origin entry)
    outer := (s₁.frame.function.id, s₁.frame.versions) :: s₁.outer } := ⟨_, rfl⟩
  have hnone (d : DeclId) : s₂.frame.uninitialized.contains d = false := by
    rw [hstart]
    rfl
  have hscopes₂ : s₂.scopes = s₁.scopes := by rw [hstart]
  have henv₂ : s₂.env = s₁.env := by rw [hstart]
  have hs₂ : s₂.Named := by
    refine ⟨?_, fun d hd => absurd hd (by rw [hnone]; decide)⟩
    rw [hscopes₂, henv₂]
    exact hs₁.scopes
  refine .after (show _ = Except.ok ((), s₂) by rw [hstart]; rfl) ?_
  refine ((h.ends_inScope hs₂).imp (fun _ _ h => h) ?_).bind fun _ s₃ h₃ => ?_
  · exact fun x hx _ _ => hx False fun ⟨d, _, hd⟩ => by
      rw [hnone] at hd
      cases hd
  · obtain ⟨hgrows, hscopes⟩ := h₃
    refine .after rfl (.of_run rfl ?_)
    refine Calm.settles_nil (hblock.trans ⟨hscopes.trans hscopes₂, fun d x hd => ?_, fun _ hd => hd⟩) hs
    exact hgrows.names d x (henv₂ ▸ hd)

end Whittle.Lowering
