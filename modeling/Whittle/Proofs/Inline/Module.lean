import Mathlib.Tactic.Common
import Whittle.Proofs.Inline.Calls

/-!
# Inlining in a module

One round of inlining replaces a call by its expansion and lets the caller read the result where the
expansion leaves it.

Main statement: `Inlining.agrees`, wherever the caller goes on after the call, it finds the world and the
cells that it would find after executing the call itself.
-/

namespace Whittle.Ir

variable {V W : Type}

/-! ## Reading the result -/

/-- What reads of a call's place become when its result stands elsewhere. -/
def redirect (call : Place) : Option Place → Place → Place
  | none, p => p
  | some result, p => if p.cell.id == call.cell.id then result else p

/-- The same for cells. -/
def redirectCell (call : Place) (result : Option Place) (k : Cell) : Cell :=
  (redirect call result ⟨default, k⟩).cell

theorem cell_redirect (call : Place) (result : Option Place) (p : Place) :
    (redirect call result p).cell = redirectCell call result p.cell := by
  cases result with
  | none => rfl
  | some q =>
    simp only [redirectCell, redirect]
    split <;> rfl

theorem redirect_of_ne {call p : Place} (result : Option Place) (h : p.cell.id ≠ call.cell.id) :
    redirect call result p = p := by
  cases result <;> simp [redirect, h]

theorem redirectCell_of_ne {call : Place} {k : Cell} (result : Option Place)
    (h : k.id ≠ call.cell.id) :
    redirectCell call result k = k := by
  rw [redirectCell, redirect_of_ne result h]

theorem redirectCell_self (call : Place) (result : Option Place) :
    redirectCell call result call.cell = (result.getD call).cell := by
  cases result <;> simp [redirectCell, redirect]

/-- Instructions that define other places differ only in what they read. -/
theorem Instr.renames_mapReads {call : Place} (result : Option Place) {i : Instr}
    (h : ∀ p ∈ i.defined, p.cell.id ≠ call.cell.id) :
    i.Renames (redirectCell call result) (i.mapReads (redirect call result)) := by
  have hsame (p : Place) (hp : p ∈ i.defined) : redirect call result p = p :=
    redirect_of_ne result (h p hp)
  refine ⟨⟨redirect call result, cell_redirect call result, ?_, (hsame _ List.mem_cons_self).symm⟩⟩
  change i.op.mapReads _ = Copying.onTarget _ (i.op.mapReads _)
  cases hop : i.op with
  | storeLocal target value kind =>
    have htarget := hsame target (by simp [Instr.defined, hop, Op.target?])
    simp [Op.mapReads, Copying.onTarget, htarget]
  | copy target value =>
    have htarget := hsame target (by simp [Instr.defined, hop, Op.target?])
    simp [Op.mapReads, Copying.onTarget, htarget]
  | _ => rfl

/-- After a call, in two ways: the world is the same, and so are all cells that there were, but the
result stands in a cell of its own. -/
structure Agrees (M : Machine V W) (env : Environment) (call result : Cell) (σ₁ σ₂ : Moment V W) :
    Prop where
  world : σ₁.world = σ₂.world
  cells : ∀ k, env.Has k → k.id ≠ call.id → M.read σ₁ k = M.read σ₂ k
  result : M.read σ₁ result = M.read σ₂ call

/-- An instruction of the caller that neither defines a call's place nor takes it for a pattern. -/
structure Function.Follows (f : Function) (call : Place) (i : Instr) : Prop where
  block : ∃ b ∈ f.blocks.values, i ∈ b.instructions
  defined : ∀ p ∈ i.defined, p.cell.id ≠ call.cell.id
  targets : ∀ p ∈ i.op.targets, p.cell.id ≠ call.cell.id

/-- The cells that exist; of those with the number of a call's own cell only that one. -/
def known (env : Environment) (call : Cell) : Set Cell :=
  { k | env.Has k ∧ (k.id = call.id → k = call) }

/-- The cells that exist beside a call's own. -/
def beside (env : Environment) (call : Cell) : Set Cell := { k | env.Has k ∧ k.id ≠ call.id }

section Results

variable {M : Machine V W} {env : Environment} {call : Place} {result : Option Place}
  {σ₁ σ₂ : Moment V W}

theorem beside_subset_known (env : Environment) (call : Cell) : beside env call ⊆ known env call :=
  fun _ hk => ⟨hk.1, fun heq => absurd heq hk.2⟩

theorem isRenaming_redirectCell (hcall : M.isShared call.cell = false)
    (hnew : ∀ k : Cell, env.nextCell.index ≤ k.id.index → M.isShared k = false)
    (hresult : ∀ q, result = some q → env.nextCell.index ≤ q.cell.id.index) :
    Renaming M (redirectCell call result) (known env call.cell) := by
  cases result with
  | none => exact ⟨fun _ _ _ _ heq => heq, fun _ _ hshared => hshared, fun _ _ _ => rfl⟩
  | some q =>
    have hq := hresult q rfl
    have hself : redirectCell call (some q) call.cell = q.cell := redirectCell_self call (some q)
    have hother {k : Cell} (hk : k.id ≠ call.cell.id) : redirectCell call (some q) k = k :=
      redirectCell_of_ne _ hk
    have hcases {k : Cell} (hk : k ∈ known env call.cell) : k = call.cell ∨ k.id ≠ call.cell.id :=
      (Decidable.em (k.id = call.cell.id)).imp hk.2 id
    have hne {k : Cell} (hk : k ∈ known env call.cell) : q.cell ≠ k := by
      rintro rfl
      exact absurd hk.1.id (Nat.not_lt.2 hq)
    -- the result is a new cell, so nothing else is renamed to it
    refine ⟨fun k hk k' hk' heq => ?_, fun k hk hshared => ?_, fun k hk hshared => ?_⟩
    · obtain rfl | h := hcases hk <;> obtain rfl | h' := hcases hk'
      · rfl
      · rw [hself, hother h'] at heq
        exact absurd heq (hne hk')
      · rw [hself, hother h] at heq
        exact absurd heq.symm (hne hk)
      · rwa [hother h, hother h'] at heq
    · obtain rfl | h := hcases hk
      · rw [hself]
        exact hnew _ hq
      · rwa [hother h]
    · refine hother fun heq => ?_
      rw [hk.2 heq, hcall] at hshared
      cases hshared

/-- Where nothing is redirected, both ways give the call's cell its value. -/
theorem mirrors_set (h : Mirrors M id { k | env.Has k } { k | env.Has k } σ₁ σ₂)
    (hcall : env.Has call.cell)
    (hnames : ∀ k, env.Has k → ∀ n ∈ (σ₂.binders k).names, n.id ≠ call.cell.id) (v : V) :
    Mirrors M (redirectCell call none) (known env call.cell) (beside env call.cell)
      (M.set σ₁ call.cell v) (M.set σ₂ call.cell v) := by
  have hid : Renaming M id { k | env.Has k } :=
    ⟨fun _ _ _ _ heq => heq, fun _ _ hshared => hshared, fun _ _ _ => rfl⟩
  have hset := h.set hid hcall v
  have hbinders : (M.set σ₂ call.cell v).binders = σ₂.binders := by
    rw [Machine.set]
    split <;> rfl
  refine ⟨hset.world, fun k hk => hset.values k hk.1, fun k hk => hset.binders k hk.1,
    fun k hk n hn => ⟨hset.names k hk.1 n hn, fun heq => absurd heq ?_⟩⟩
  exact hnames k hk.1 n (hbinders ▸ hn)

/-- Where the result stands elsewhere, the call's cell mirrors it. -/
theorem mirrors_redirect {q : Place} (h : Mirrors M id { k | env.Has k } { k | env.Has k } σ₁ σ₂)
    (hcall : M.isShared call.cell = false)
    (hq : M.isShared q.cell = false)
    (hnames : ∀ k, env.Has k → ∀ n ∈ (σ₂.binders k).names, n.id ≠ call.cell.id) :
    Mirrors M (redirectCell call (some q)) (known env call.cell) (beside env call.cell)
      σ₁ (M.set σ₂ call.cell (M.read σ₁ q.cell)) := by
  simp only [Machine.set, hcall, Machine.read, hq, Bool.false_eq_true, if_false]
  refine ⟨h.world, fun k hk hshared => ?_, fun k hk => ?_, fun k hk n hn => ?_⟩
  · by_cases heq : k = call.cell
    · subst heq
      simp [redirectCell_self]
    · have hid : k.id ≠ call.cell.id := fun hid => heq (hk.2 hid)
      simpa [heq, redirectCell_of_ne _ hid] using h.values k hk.1 hshared
  · rw [redirectCell_of_ne _ hk.2]
    have hmap : (σ₂.binders k).names.map (redirectCell call (some q)) = (σ₂.binders k).names :=
      (List.map_congr_left fun n hn => redirectCell_of_ne _ (hnames k hk.1 n hn)).trans (List.map_id _)
    simpa [Binder.map, hmap] using h.binders k hk.1
  · exact ⟨h.names k hk.1 n hn, fun heq => absurd heq (hnames k hk.1 n hn)⟩

theorem agrees_of_mirrors (hρ : Renaming M (redirectCell call result) (known env call.cell))
    (hcall : env.Has call.cell)
    (h : Mirrors M (redirectCell call result) (known env call.cell) (beside env call.cell) σ₁ σ₂) :
    Agrees M env call.cell (result.getD call).cell σ₁ σ₂ := by
  refine ⟨h.world, fun k hk hne => ?_, ?_⟩
  · have hread := h.read hρ (beside_subset_known env call.cell ⟨hk, hne⟩)
    rwa [redirectCell_of_ne _ hne] at hread
  · have hread := h.read hρ (c := call.cell) ⟨hcall, fun _ => rfl⟩
    rwa [redirectCell_self] at hread

end Results

/-! ## One call -/

/-- A machine fit for a call: it binds by position, shares only cells that exist, and none of the
callee's own nor that of the call. -/
structure Machine.Serves (M : Machine V W) (env : Environment) (callee : FuncId) (call : Place) :
    Prop extends M.Shares env callee where
  positional : M.IsPositional
  result : M.isShared call.cell = false

/-- A moment at which a call can be executed: cells that do not exist yet are undefined, waiting patterns
bind cells that exist, none of them that of the call, and only those in the callee's own cells bind cells of
the callee. -/
structure Moment.Before (M : Machine V W) (env : Environment) (callee : FuncId) (call : Place)
    (σ : Moment V W) : Prop extends σ.Ready M env callee where
  unnamed : ∀ c, ∀ n ∈ (σ.binders c).names, n.id ≠ call.cell.id

namespace Inlining

variable {inl : Inlining} {env : Environment} {start : List Cell} {call : Instr}
  {arguments : List Place} {M : Machine V W} {σ : Moment V W}

/-- The moment after an expansion mirrors the one after the call. -/
theorem mirrors_call (arguments : List Place) (hcopy : inl.Copyable env start)
    (hcall : env.Has call.place.cell)
    (hM : M.Serves env inl.callee.id call.place) (hσ : σ.Before M env inl.callee.id call.place) :
    Renaming M (redirectCell call.place (inl.expansion env call arguments).2.1)
        (known env call.place.cell) ∧
      Mirrors M (redirectCell call.place (inl.expansion env call arguments).2.1)
        (known env call.place.cell) (beside env call.place.cell)
        (M.run σ (inl.expansion env call arguments).1)
        (M.call (env.owns inl.callee.id) inl.callee inl.body call.place arguments σ) := by
  obtain ⟨cells, c, array, header, pattern, bind, body, hexpands, hexpansion⟩ :=
    exists_expansion hcopy call arguments
  have hinside := hexpands.mirrors_inside hcopy hM.toShares hM.positional hσ.toReady
  have hleave := mirrors_leave hcopy hexpands hM.toShares hM.positional hσ.toReady
  have hnames : ∀ k, env.Has k → ∀ n ∈ ((σ.leave (env.owns inl.callee.id)
      (M.inside (env.owns inl.callee.id) inl.callee inl.body (Expands.given M arguments σ).1
        { σ with world := (Expands.given M arguments σ).2 })).binders k).names,
      n.id ≠ call.place.cell.id := by
    intro k _ n hn
    rw [binders_leave hcopy] at hn
    exact hσ.unnamed k n hn
  rw [hexpansion]
  cases hreturned : returned? inl.body with
  | none =>
    refine ⟨isRenaming_redirectCell hM.result (fun _ => hM.new) (by simp), ?_⟩
    have hrun : M.run σ (array :: header ++ [pattern, bind] ++ body ++ inl.closing call) =
        M.set (M.run σ (array :: header ++ [pattern, bind] ++ body)) call.place.cell M.undefined := by
      simp [closing, hreturned, Machine.run, Machine.step, Op.manner, Machine.write, Instr.defined,
        Op.target?, Machine.setAll, Machine.undefined]
    have hresult : M.result inl.body (M.inside (env.owns inl.callee.id) inl.callee inl.body
        (Expands.given M arguments σ).1 { σ with world := (Expands.given M arguments σ).2 }) =
        M.undefined := by
      simp [Machine.result, hreturned]
    simp only [hrun, Machine.call, hresult]
    exact mirrors_set hleave hcall hnames M.undefined
  | some p =>
    have hp : p.cell ∈ inl.reach env := hcopy.mem_reach (.inr hreturned)
    have hnew : env.nextCell.index ≤ (c.place p).cell.id.index := by
      rw [c.cell_place]
      exact hexpands.nextCell_le hp (Environment.owns_iff.2 (hcopy.returned p hreturned))
    refine ⟨isRenaming_redirectCell hM.result (fun _ => hM.new) (by simpa using hnew), ?_⟩
    have hresult : M.result inl.body (M.inside (env.owns inl.callee.id) inl.callee inl.body
        (Expands.given M arguments σ).1 { σ with world := (Expands.given M arguments σ).2 }) =
        M.read (M.run σ (array :: header ++ [pattern, bind] ++ body)) (c.place p).cell := by
      rw [Machine.result, hreturned, c.cell_place]
      exact (hinside.read (hexpands.isRenaming hcopy hM.toShares) hp).symm
    simp only [closing, hreturned, Option.elim_some, List.append_nil, Option.map_some, Machine.call,
      hresult]
    exact mirrors_redirect hleave hM.result (hM.new hnew) hnames

/-- Wherever the caller goes on after an expansion, it finds what it would find after the call. -/
theorem agrees (hcopy : inl.Copyable env start) (hcall : env.Has call.place.cell)
    (hplaces : ∀ b ∈ inl.caller.blocks.values, ∀ i ∈ b.instructions, ∀ p ∈ i.places,
      p.cell ∈ known env call.place.cell)
    (hM : M.Serves env inl.callee.id call.place) (hσ : σ.Before M env inl.callee.id call.place)
    {later : List Instr} (hlater : ∀ i ∈ later, inl.caller.Follows call.place i) :
    Agrees M env call.place.cell ((inl.expansion env call arguments).2.1.getD call.place).cell
      (M.run (M.run σ (inl.expansion env call arguments).1)
        (later.map (·.mapReads (redirect call.place (inl.expansion env call arguments).2.1))))
      (M.run (M.call (env.owns inl.callee.id) inl.callee inl.body call.place arguments σ) later) := by
  obtain ⟨hρ, hmirrors⟩ := mirrors_call arguments hcopy hcall hM hσ
  have hcopies : List.Forall₂ (Instr.Renames (redirectCell call.place
      (inl.expansion env call arguments).2.1)) later
      (later.map (·.mapReads (redirect call.place (inl.expansion env call arguments).2.1))) := by
    rw [List.forall₂_map_right_iff, List.forall₂_same]
    exact fun i hi => Instr.renames_mapReads _ (hlater i hi).defined
  refine agrees_of_mirrors hρ hcall
    (hmirrors.run hρ (beside_subset_known env call.place.cell) hcopies fun i hi => ?_)
  obtain ⟨b, hb, hib⟩ := (hlater i hi).block
  have hknown (p : Place) (hp : p ∈ i.places) := hplaces b hb i hib p hp
  refine ⟨fun p hp => hknown p (List.mem_append_left _ hp), fun p hp => ?_, fun p hp => ?_⟩
  · exact ⟨(hknown p (List.mem_append_right _ hp)).1, (hlater i hi).defined p hp⟩
  · have hread := Op.targets_subset_reads hp
    exact ⟨(hknown p (List.mem_append_left _ hread)).1, (hlater i hi).targets p hp⟩

end Inlining

/-! ## Modules -/

/-! What the search for a call to replace says about the one that it finds. -/

theorem Function.mem_of_chainFrom {f : Function} {fuel : Nat} {id : BlockId} {seen : List BlockId}
    {chain : List Block} (h : f.chainFrom fuel id seen = some chain) :
    ∀ b ∈ chain, b ∈ f.blocks.values := by
  induction fuel generalizing id seen chain with
  | zero => cases h
  | succ fuel ih =>
    rw [chainFrom] at h
    split at h
    · cases h
    · obtain ⟨b, hb, h⟩ := Option.bind_eq_some_iff.1 h
      have hmem : b ∈ f.blocks.values := Table.mem_values.2 ⟨id, hb⟩
      split at h
      · obtain ⟨rest, hrest, h⟩ := Option.bind_eq_some_iff.1 h
        obtain rfl := Option.some.inj h
        exact List.forall_mem_cons.2 ⟨hmem, ih hrest⟩
      · obtain rfl := Option.some.inj h
        simpa using hmem
      · cases h

theorem Function.mem_of_straightBody? {f : Function} {body : List Block}
    (h : f.straightBody? = some body) : ∀ b ∈ body, b ∈ f.blocks.values := by
  obtain ⟨chain, hchain, h⟩ := Option.bind_eq_some_iff.1 h
  split at h
  · obtain rfl := Option.some.inj h
    exact mem_of_chainFrom hchain
  · cases h

theorem Module.smallBody?_eq_some {m : Module} {env : Environment} {f : Function} {body : List Block}
    (h : m.smallBody? env f = some body) :
    f.straightBody? = some body ∧ f.hasPlainParams = true ∧
      ∀ i ∈ f.instructions, i.isCopyable env f.id = true := by
  obtain ⟨chain, hchain, h⟩ := Option.bind_eq_some_iff.1 h
  split at h
  · next hsmall =>
    obtain rfl := Option.some.inj h
    simp only [Bool.and_eq_true, List.all_eq_true] at hsmall
    exact ⟨hchain, hsmall.1.2, hsmall.2⟩
  · cases h

theorem Module.kind_of_smallBody? {m : Module} {env : Environment} {f : Function} {body : List Block}
    (h : m.smallBody? env f = some body) : f.kind = .declaration := by
  obtain ⟨chain, -, h⟩ := Option.bind_eq_some_iff.1 h
  split at h
  · next hsmall =>
    simp only [Bool.and_eq_true, beq_iff_eq] at hsmall
    exact hsmall.1.1.1
  · cases h

theorem Module.findInlining_eq_some {m : Module} {env : Environment} {graph : CallGraph}
    {calls : List (Function × CallSite)} {cache cache' : RecursionCache} {inl : Inlining}
    (h : m.findInlining env graph calls cache = (some inl, cache')) :
    (inl.caller, inl.site) ∈ calls ∧ m.functions.get? inl.site.callee = some inl.callee ∧
      m.smallBody? env inl.callee = some inl.body := by
  induction calls generalizing cache with
  | nil => cases h
  | cons call calls ih =>
    obtain ⟨caller, site⟩ := call
    have hlater (cache : RecursionCache)
        (h : m.findInlining env graph calls cache = (some inl, cache')) :
        (inl.caller, inl.site) ∈ (caller, site) :: calls ∧
          m.functions.get? inl.site.callee = some inl.callee ∧
          m.smallBody? env inl.callee = some inl.body :=
      (ih h).imp (List.mem_cons_of_mem _) id
    rw [findInlining] at h
    split at h
    · exact hlater _ h
    · next callee hcallee =>
      split at h
      · exact hlater _ h
      · next body hbody =>
        dsimp only at h
        split at h
        · exact hlater _ h
        · obtain rfl := Option.some.inj (Prod.mk.inj h).1
          exact ⟨List.mem_cons_self, hcallee, hbody⟩

/-- A function that is small enough can be copied. -/
theorem Inlining.copyable {inl : Inlining} {m : Module} {env : Environment} {cells : List Cell}
    (hlogs : env.Logs cells) (hcallee : inl.callee.Uses (·.IsOf cells)
      fun p => env.ownerOf p.declaration = some inl.callee.id)
    (hbody : m.smallBody? env inl.callee = some inl.body) : inl.Copyable env cells := by
  obtain ⟨hstraight, hplain, hcopyable⟩ := Module.smallBody?_eq_some hbody
  simp only [Function.hasPlainParams, Bool.and_eq_true, List.all_eq_true, List.any_eq_true,
    beq_iff_eq] at hplain
  refine ⟨hlogs, fun p hp => hcallee.places hp, fun i hi p hp => ?_, fun i hi => ?_, fun p hp => ?_,
    Function.mem_of_straightBody? hstraight, fun p hp => ?_⟩
  · have hi := hcopyable i hi
    simp only [Instr.isCopyable, Bool.and_eq_true, List.all_eq_true, beq_iff_eq] at hi
    exact hi.2 p hp
  · have hi := hplain.1 i hi
    split at hi
    · next name hop => exact ⟨name, hop⟩
    · cases hi
  · obtain ⟨i, hi, hid⟩ := hplain.2 p hp
    have hplace := hcallee.header i hi i.place i.place_mem_places
    exact ⟨i, hi, hplace.single (hcallee.params p hp) hid⟩
  · obtain ⟨b, hb, hterminal⟩ := exists_of_returned? hp
    obtain ⟨id, hid⟩ := Table.mem_values.1 (Function.mem_of_straightBody? hstraight b hb)
    exact (hcallee.blocks id b hid).returned p hterminal

/-- In one module there is a call, in the other there are the instructions that replace it. -/
structure Inlining.Replaces (inl : Inlining) (m : Module) (env : Environment) (m' : Module)
    (b : Block) (call : Instr) (function : Place) (arguments : List Place) (spliced : List Instr)
    (result : Option Place) : Prop where
  caller : m.functions.get? inl.caller.id = some inl.caller
  callee : m.functions.get? inl.callee.id = some inl.callee
  site : inl.site ∈ inl.caller.directCalls env
  target : inl.site.callee = inl.callee.id
  body : inl.callee.straightBody? = some inl.body
  block : inl.caller.blocks.get? inl.site.block = some b
  found : b.instructions[inl.site.index]? = some call
  op : call.op = .call function arguments
  /-- The call is replaced, and its result is read where it stands. -/
  module : m' = m.setFunction inl.caller.id
    ((inl.caller.setBlock inl.site.block { b with
      instructions := b.instructions.take inl.site.index ++ spliced ++
        b.instructions.drop (inl.site.index + 1) }).mapBlocks
      fun _ b => b.mapReads (redirect call.place result))

theorem Op.mapReads_id (op : Op) : op.mapReads (fun p => p) = op := by
  have hkey (key : Key) : key.mapReads (fun p => p) = key := by cases key <;> rfl
  cases op with
  | object properties =>
    refine congrArg object ((List.map_congr_left fun p _ => ?_).trans (List.map_id _))
    cases p <;> simp [Property.mapReads, hkey]
  | objectPattern properties =>
    refine congrArg objectPattern ((List.map_congr_left fun p _ => ?_).trans (List.map_id _))
    cases p <;> simp [PatternProperty.mapReads, hkey]
  | arrayPattern elements =>
    exact congrArg arrayPattern ((List.map_congr_left fun e _ => Option.map_id_apply).trans
      (List.map_id _))
  | _ => simp [mapReads]

theorem Block.mapReads_id (b : Block) : b.mapReads (fun p => p) = b := by
  have hterminal (t : Terminal) : t.mapReads (fun p => p) = t := by
    cases t <;> simp [Terminal.mapReads]
  obtain ⟨instructions, terminal⟩ := b
  simp [mapReads, Instr.mapReads, Op.mapReads_id, hterminal]

theorem Function.mapBlocks_mapReads_id (f : Function) :
    f.mapBlocks (fun _ b => b.mapReads fun p => p) = f := by
  have hblocks : (f.blocks.map fun _ b => b.mapReads fun p => p) = f.blocks := by
    refine Table.ext_get? fun id => ?_
    rw [Table.get?_map, funext Block.mapReads_id]
    exact Option.map_id_apply
  rw [mapBlocks, hblocks]

theorem Inlining.replace?_eq_some {inl : Inlining} {m m' : Module} {env env' : Environment}
    (h : inl.replace? m env = some (m', env')) :
    ∃ (b : Block) (call : Instr) (function : Place) (arguments : List Place),
      inl.caller.blocks.get? inl.site.block = some b ∧
      b.instructions[inl.site.index]? = some call ∧ call.op = .call function arguments ∧
      m' = m.setFunction inl.caller.id
        ((inl.caller.setBlock inl.site.block { b with
          instructions := b.instructions.take inl.site.index ++
            (inl.expansion env call arguments).1 ++ b.instructions.drop (inl.site.index + 1) }).mapBlocks
          fun _ b => b.mapReads (redirect call.place (inl.expansion env call arguments).2.1)) ∧
      env' = recordDefined inl.site.block (inl.expansion env call arguments).1
        (inl.expansion env call arguments).2.2 := by
  obtain ⟨b, hb, h⟩ := Option.bind_eq_some_iff.1 h
  obtain ⟨call, hcall, h⟩ := Option.bind_eq_some_iff.1 h
  split at h
  · next function arguments hop =>
    refine ⟨b, call, function, arguments, hb, hcall, hop, ?_⟩
    dsimp only at h
    obtain ⟨rfl, rfl⟩ := Prod.mk.inj (Option.some.inj h)
    refine ⟨congrArg (m.setFunction inl.caller.id) ?_, rfl⟩
    cases (inl.expansion env call arguments).2.1 with
    | none => exact (Function.mapBlocks_mapReads_id _).symm
    | some result => rfl
  · cases h

theorem Module.inlineOne_eq_true {m m' : Module} {env env' : Environment}
    {cache cache' : RecursionCache} (h : m.inlineOne env cache = (true, m', env', cache')) :
    ∃ inl : Inlining, (∃ id, m.functions.get? id = some inl.caller) ∧
      inl.site ∈ inl.caller.directCalls env ∧
      m.functions.get? inl.site.callee = some inl.callee ∧
      m.smallBody? env inl.callee = some inl.body ∧ inl.replace? m env = some (m', env') := by
  rw [inlineOne] at h
  dsimp only at h
  split at h
  · next m₁ env₁ hreplaced =>
    obtain ⟨inl, hfound, hreplace⟩ := Option.bind_eq_some_iff.1 hreplaced
    obtain ⟨rfl, rfl, -⟩ : m₁ = m' ∧ env₁ = env' ∧ _ := by simpa using h
    obtain ⟨hcalls, hcallee, hbody⟩ := findInlining_eq_some (Prod.ext hfound rfl)
    simp only [List.mem_flatMap, List.mem_map, Prod.mk.injEq] at hcalls
    obtain ⟨f, hf, site, hsite, rfl, rfl⟩ := hcalls
    exact ⟨inl, Table.mem_values.1 hf, hsite, hcallee, hbody, hreplace⟩
  · simp at h

/-- A round that finds no call to replace changes nothing. -/
theorem Module.inlineOne_eq_false {m m' : Module} {env env' : Environment}
    {cache cache' : RecursionCache} (h : m.inlineOne env cache = (false, m', env', cache')) :
    m = m' ∧ env = env' := by
  rw [Module.inlineOne] at h
  dsimp only at h
  split at h
  · simp at h
  · obtain ⟨-, rfl, rfl, -⟩ := h
    exact ⟨rfl, rfl⟩

end Whittle.Ir
