import Whittle.Proofs.Optimize.Origins
import Whittle.Proofs.Optimize.Results

/-!
# Nested copies

A round of inlining puts the copy of a function in the place of a call, and the calls of the copy may be
replaced by later rounds.  In a module in which no call calls what another call has returned, a function is
never copied into a copy of itself, however many rounds there are.

The graph of calls leads nowhere new from round to round, so what is remembered of a function that does not
reach itself stays true.  A call inside of the copy of a function calls what the function reaches, and no
function that was copied reaches itself.

Main statement: `Module.Unfolds.not_within`.
-/

namespace Whittle.Ir

open Relation

/-! ## Rounds -/

/-- What a round of inlining finds to replace, and what is remembered then of recursive functions. -/
def Module.search (m : Module) (env : Environment) (cache : RecursionCache) :
    Option Inlining × RecursionCache :=
  m.findInlining env (m.callGraph env)
    (m.functions.values.flatMap fun f => (f.directCalls env).map (f, ·)) cache

/-- One round of inlining replaces a call: the search finds it, and a copy of its callee takes its
place. -/
structure Module.Inlines (m : Module) (env : Environment) (cache : RecursionCache) (inl : Inlining)
    (call : Instr) (m' : Module) (env' : Environment) (cache' : RecursionCache) : Prop where
  found : m.search env cache = (some inl, cache')
  call : ∃ b, inl.caller.blocks.get? inl.site.block = some b ∧
    b.instructions[inl.site.index]? = some call
  replaced : inl.replace? m env = some (m', env')

/-- What rounds of inlining make of a module, with one memory of recursive functions from the first
round to the last.  A call is known by the cell of its result, which no other instruction defines;
`within` tells in which copies it stands, the innermost first: a copy stands where the call stood that
it replaces. -/
inductive Module.Unfolds (m₀ : Module) (env₀ : Environment) :
    Module → Environment → RecursionCache → (CellId → List FuncId) → Prop
  | start : Unfolds m₀ env₀ m₀ env₀ ∅ fun _ => []
  /-- The cells that a round hands out are those of the copy. -/
  | inlined {m m' : Module} {env env' : Environment} {cache cache' : RecursionCache}
      {within : CellId → List FuncId} {inl : Inlining} {call : Instr} :
      Unfolds m₀ env₀ m env cache within → m.Inlines env cache inl call m' env' cache' →
      Unfolds m₀ env₀ m' env' cache' fun k =>
        if env.nextCell.index ≤ k.index then inl.callee.id :: within call.place.cell.id else within k
  | idle {m m' : Module} {env env' : Environment} {cache cache' : RecursionCache}
      {within : CellId → List FuncId} :
      Unfolds m₀ env₀ m env cache within → m.inlineOne env cache = (false, m', env', cache') →
      Unfolds m₀ env₀ m' env' cache' within

namespace Module

variable {m m' m₀ : Module} {env env' env₀ : Environment} {cache cache' : RecursionCache}
  {inl : Inlining} {call : Instr} {within : CellId → List FuncId}

theorem inlineOne_eq (m : Module) (env : Environment) (cache : RecursionCache) :
    m.inlineOne env cache = match (m.search env cache).1.bind (·.replace? m env) with
      | some (m', env') => (true, m', env', (m.search env cache).2)
      | none => (false, m, env, (m.search env cache).2) :=
  rfl

/-- The rounds that change a module are those that replace a call. -/
theorem inlineOne_eq_true_iff : m.inlineOne env cache = (true, m', env', cache') ↔
    ∃ inl call, m.Inlines env cache inl call m' env' cache' := by
  rw [inlineOne_eq]
  constructor
  · intro h
    split at h
    · next m₁ env₁ hreplaced =>
      obtain ⟨inl, hfound, hreplace⟩ := Option.bind_eq_some_iff.1 hreplaced
      obtain ⟨rfl, rfl, rfl⟩ : m₁ = m' ∧ env₁ = env' ∧ _ = cache' := by simpa using h
      obtain ⟨b, call, -, -, hb, hcall, -⟩ := Inlining.replace?_eq_some hreplace
      exact ⟨inl, call, Prod.ext hfound rfl, ⟨b, hb, hcall⟩, hreplace⟩
    · simp at h
  · rintro ⟨inl, call, hfound, -, hreplace⟩
    rw [hfound, Option.bind_some, hreplace]

theorem search_eq_some (h : m.search env cache = (some inl, cache')) :
    (∃ id, m.functions.get? id = some inl.caller) ∧ inl.site ∈ inl.caller.directCalls env ∧
      m.functions.get? inl.site.callee = some inl.callee ∧ m.smallBody? env inl.callee = some inl.body := by
  obtain ⟨hcalls, hcallee, hbody⟩ := findInlining_eq_some h
  simp only [List.mem_flatMap, List.mem_map, Prod.mk.injEq] at hcalls
  obtain ⟨f, hf, site, hsite, rfl, rfl⟩ := hcalls
  exact ⟨Table.mem_values.1 hf, hsite, hcallee, hbody⟩

namespace Inlines

theorem reached (h : m.Inlines env cache inl call m' env' cache') (hm : m.Reached env) :
    m'.Reached env' := by
  have hround := inlineOne_eq_true_iff.2 ⟨inl, call, h⟩
  have hstep := hm.next (.step ⟨m, env, {}, cache⟩ .inlining)
  simpa only [Pass.step, hround] using hstep

theorem exists_splice {start : List Cell} (h : m.Inlines env cache inl call m' env' cache')
    (hall : m.AllUse env start) (hlogs : env.Logs start) :
    ∃ s : Splice m env start, s.toInlining = inl ∧ s.call = call ∧
      m' = m.setFunction s.caller.id s.replaced ∧ env' = s.after := by
  obtain ⟨hcaller, -, hcallee, hbody⟩ := search_eq_some h.found
  obtain ⟨s, rfl, hs⟩ := inl.exists_splice hall hlogs hcaller hcallee hbody h.replaced
  obtain ⟨b, hb, hcall⟩ := h.call
  obtain rfl := Option.some.inj (hb.symm.trans s.block_mem)
  exact ⟨s, rfl, Option.some.inj (s.call_mem.symm.trans hcall), hs⟩

/-- The call that is replaced is a direct call of the function that is copied. -/
theorem directCall (h : m.Inlines env cache inl call m' env' cache') (hm : m.Reached env) :
    m.functions.get? inl.caller.id = some inl.caller ∧ inl.site.callee = inl.callee.id ∧
      inl.caller.DirectCall env call inl.callee.id := by
  obtain ⟨⟨id, hf⟩, hsite, hcallee, -⟩ := search_eq_some h.found
  obtain rfl := hm.ids hf
  have hid := hm.ids hcallee
  have hresults := hm.results_nodup.sublist ((instructions_sublist hf).map (·.place.cell.id))
  obtain ⟨b, call', hb, hcall', hop⟩ := (Function.mem_directCalls hresults).1 hsite
  obtain ⟨b', hb', hcall⟩ := h.call
  obtain rfl := Option.some.inj (hb.symm.trans hb')
  obtain rfl := Option.some.inj (hcall'.symm.trans hcall)
  exact ⟨hf, hid.symm, ⟨b, Table.mem_values.2 ⟨_, hb⟩, List.mem_of_getElem? hcall⟩, hid ▸ hop⟩

/-- The direct calls after a round.  They are those that there were before, and copies of calls of the
function that was copied; the results of the copies stand in the cells that the round handed out. -/
theorem directCall_cases (h : m.Inlines env cache inl call m' env' cache') (hm : m.Reached env)
    (huncurried : m.Uncurried) {id : FuncId} {f' : Function} (hf' : m'.functions.get? id = some f')
    {call' : Instr} {g : FuncId} (hcall' : f'.DirectCall env' call' g) :
    (call'.place.cell.id.index < env.nextCell.index ∧
        ∃ f i, m.functions.get? id = some f ∧ i.place = call'.place ∧ f.DirectCall env i g) ∨
      (env.nextCell.index ≤ call'.place.cell.id.index ∧ id = inl.caller.id ∧
        m.Calls env inl.callee.id g) := by
  obtain ⟨cells, hlogs, hall⟩ := hm.coherent
  obtain ⟨s, rfl, -, rfl, rfl⟩ := h.exists_splice hall hlogs
  have horder := hm.inOrder
  rw [get?_setFunction] at hf'
  split at hf'
  · next heq =>
    obtain rfl := Option.some.inj hf'
    subst heq
    have hcaller : s.caller.Uncurried := huncurried _ (Table.mem_values.2 ⟨_, s.caller_mem⟩)
    rcases s.directCall_replaced horder (fun _ => hm.bound) hall hcaller hcall'
      with ⟨hold, i, hi⟩ | ⟨hnew, i, hi⟩
    · exact .inl ⟨hold, s.caller, i, s.caller_mem, hi⟩
    · exact .inr ⟨hnew, rfl, s.callee, s.callee_mem, i, hi⟩
  · have hcall := s.directCall_of_after hall horder hf' hcall'
    obtain ⟨b, hb, hmem⟩ := hcall.block
    have hof : call'.place.IsOf cells := (hall id f' hf').uses.places (Function.places_of_instr
      (List.mem_append_right _ (List.mem_flatMap.2 ⟨b, hb, hmem⟩)) call'.place_mem_places)
    exact .inl ⟨(hlogs.has hof).1, f', call', hf', rfl, hcall⟩

/-- Calls lead nowhere new. -/
theorem transGen_of_calls (h : m.Inlines env cache inl call m' env' cache') (hm : m.Reached env)
    (huncurried : m.Uncurried) {f g : FuncId} (hcall : m'.Calls env' f g) :
    TransGen (m.Calls env) f g := by
  obtain ⟨f', hf', call', hcall'⟩ := hcall
  rcases h.directCall_cases hm huncurried hf' hcall' with ⟨-, caller, i, hf, -, hi⟩ | ⟨-, rfl, hcopied⟩
  · exact .single ⟨caller, hf, i, hi⟩
  · obtain ⟨hf, -, hreplaced⟩ := h.directCall hm
    exact .head ⟨inl.caller, hf, call, hreplaced⟩ (.single hcopied)

theorem uncurried (h : m.Inlines env cache inl call m' env' cache') (hm : m.Reached env)
    (huncurried : m.Uncurried) : m'.Uncurried := by
  obtain ⟨cells, hlogs, hall⟩ := hm.coherent
  obtain ⟨s, -, -, rfl, -⟩ := h.exists_splice hall hlogs
  intro f hf
  obtain ⟨id, hf⟩ := Table.mem_values.1 hf
  rw [get?_setFunction] at hf
  split at hf
  · obtain rfl := Option.some.inj hf
    exact s.uncurried_replaced hall hm.inOrder (huncurried _ (Table.mem_values.2 ⟨_, s.caller_mem⟩))
      (huncurried _ (Table.mem_values.2 ⟨_, s.callee_mem⟩))
  · exact huncurried f (Table.mem_values.2 ⟨id, hf⟩)

end Inlines

/-! ## Runs -/

theorem Reached.calls_callGraph (hm : m.Reached env) : (m.callGraph env).Calls = m.Calls env :=
  funext fun _ => funext fun _ => propext (Module.calls_callGraph hm.results_nodup)

/-- What holds of a module while rounds go on.  Of every function in whose copy a call stands, it is
known from the round that copied it that the function did not reach itself, but the call's callee;
calls have led nowhere new since then. -/
structure Nested (m : Module) (env : Environment) (cache : RecursionCache)
    (within : CellId → List FuncId) : Prop where
  reached : m.Reached env
  uncurried : m.Uncurried
  sound : cache.Sound (m.callGraph env)
  within : ∀ id f call g, m.functions.get? id = some f → f.DirectCall env call g →
    ∀ x ∈ within call.place.cell.id, ∃ before : FuncId → FuncId → Prop,
      (∀ a b, m.Calls env a b → TransGen before a b) ∧ TransGen before x g ∧ ¬ TransGen before x x

namespace Nested

theorem start (hm : m.Reached env) (huncurried : m.Uncurried) : m.Nested env ∅ fun _ => [] :=
  ⟨hm, huncurried, .empty _, by simp⟩

/-- The function that a round copies does not reach itself. -/
theorem not_transGen (h : m.Nested env cache within)
    (hround : m.Inlines env cache inl call m' env' cache') :
    ¬ TransGen (m.Calls env) inl.callee.id inl.callee.id := by
  have hcycle := (h.sound.findInlining hround.found).2 inl rfl
  rwa [h.reached.calls_callGraph, (hround.directCall h.reached).2.1] at hcycle

theorem inlined (h : m.Nested env cache within)
    (hround : m.Inlines env cache inl call m' env' cache') :
    m'.Nested env' cache' fun k =>
      if env.nextCell.index ≤ k.index then inl.callee.id :: within call.place.cell.id else within k := by
  have hreached := hround.reached h.reached
  have hleads {a b : FuncId} (hab : m'.Calls env' a b) : TransGen (m.Calls env) a b :=
    hround.transGen_of_calls h.reached h.uncurried hab
  have hlater {before : FuncId → FuncId → Prop} (hbefore : ∀ a b, m.Calls env a b → TransGen before a b)
      {a b : FuncId} (hab : TransGen (m.Calls env) a b) : TransGen before a b :=
    TransGen.closed hbefore _ _ hab
  refine ⟨hreached, hround.uncurried h.reached h.uncurried, ?_, ?_⟩
  · refine (h.sound.findInlining hround.found).1.mono fun a b hab => ?_
    rw [hreached.calls_callGraph] at hab
    rw [h.reached.calls_callGraph]
    exact TransGen.closed (fun _ _ hab => hleads hab) _ _ hab
  · intro id f' call' g hf' hcall' x hx
    rcases hround.directCall_cases h.reached h.uncurried hf' hcall' with
      ⟨hold, f, i, hf, hplace, hi⟩ | ⟨hnew, -, hcopied⟩
    · rw [if_neg (Nat.not_le.2 hold), ← hplace] at hx
      obtain ⟨before, hbefore, hpath, hcycle⟩ := h.within id f i g hf hi x hx
      exact ⟨before, fun a b hab => hlater hbefore (hleads hab), hpath, hcycle⟩
    · rw [if_pos hnew] at hx
      obtain rfl | hx := List.mem_cons.1 hx
      · exact ⟨m.Calls env, fun a b hab => hleads hab, .single hcopied, h.not_transGen hround⟩
      · obtain ⟨hf, -, hreplaced⟩ := hround.directCall h.reached
        obtain ⟨before, hbefore, hpath, hcycle⟩ := h.within _ _ _ _ hf hreplaced x hx
        exact ⟨before, fun a b hab => hlater hbefore (hleads hab),
          hpath.trans (hbefore _ _ hcopied), hcycle⟩

theorem idle (h : m.Nested env cache within) (hround : m.inlineOne env cache = (false, m', env', cache')) :
    m'.Nested env' cache' within := by
  obtain ⟨rfl, rfl⟩ := inlineOne_eq_false hround
  have hcache : (m.search env cache).2 = cache' := by
    rw [inlineOne_eq] at hround
    split at hround <;> simp_all
  have hsound : RecursionCache.Sound (m.search env cache).2 (m.callGraph env) :=
    (h.sound.findInlining rfl).1
  exact ⟨h.reached, h.uncurried, hcache ▸ hsound, h.within⟩

end Nested

theorem Unfolds.nested (h : m₀.Unfolds env₀ m env cache within) (hm : m₀.Reached env₀)
    (huncurried : m₀.Uncurried) : m.Nested env cache within := by
  induction h with
  | start => exact .start hm huncurried
  | inlined _ hround ih => exact ih.inlined hround
  | idle _ hround ih => exact ih.idle hround

/-- The inliner never expands a function inside of its own expansion: in a module in which no call calls
what another call has returned, no round, however many went before it, replaces a call of a function in
a copy of that function, in copies of calls of such a copy, and so on. -/
theorem Unfolds.not_within (hm : m₀.Reached env₀) (huncurried : m₀.Uncurried)
    (h : m₀.Unfolds env₀ m env cache within) (hround : m.Inlines env cache inl call m' env' cache') :
    inl.callee.id ∉ within call.place.cell.id := by
  intro hmem
  have hnested := h.nested hm huncurried
  obtain ⟨hf, -, hreplaced⟩ := hround.directCall hnested.reached
  obtain ⟨before, -, hpath, hcycle⟩ := hnested.within _ _ _ _ hf hreplaced _ hmem
  exact hcycle hpath

/-- `function one() { return 1; } function two() { one(); } two();` -/
def deepening : Syntax.Module :=
  let ident (text : String) : Syntax.Ident := .synthetic text
  let call (text : String) : Syntax.Stmt :=
    .expression .synthetic (.call .synthetic (.name .synthetic (ident text)) [])
  let function (text : String) (body : List Syntax.Stmt) : Syntax.Stmt :=
    .function .synthetic (.mk .synthetic (some (ident text)) [] (.block body) false)
  ⟨⟨0, 0⟩,
    [function "one" [.return .synthetic (some (.literal .synthetic (.number Number.one)))],
     function "two" [call "one"], call "two"]⟩

/-- The second round replaces a call in the copy that the first one has made, of another function. -/
theorem Unfolds.not_within_deepening :
    ∃ (m₀ m m' : Module) (env₀ env env' : Environment) (cache cache' : RecursionCache)
      (within : CellId → List FuncId) (inl : Inlining) (call : Instr),
      joined? deepening = some (m₀, env₀) ∧ m₀.Reached env₀ ∧ m₀.Uncurried ∧
      m₀.Unfolds env₀ m env cache within ∧ m.Inlines env cache inl call m' env' cache' ∧
      within call.place.cell.id = [⟨2⟩] ∧ inl.callee.id ∉ within call.place.cell.id := by
  obtain ⟨⟨m₀, env₀⟩, hjoined, huncurried, inl₁, hinl₁, htwo, b₁, hb₁, call₁, hcall₁, ⟨m, env⟩, hround₁,
      inl₂, hinl₂, b₂, hb₂, call₂, hcall₂, hnew, hround₂⟩ :
      ∃ t ∈ joined? deepening, t.1.Uncurried ∧ ∃ inl ∈ (t.1.search t.2 ∅).1, inl.callee.id = ⟨2⟩ ∧
        ∃ b ∈ inl.caller.blocks.get? inl.site.block, ∃ call ∈ b.instructions[inl.site.index]?,
        ∃ u ∈ inl.replace? t.1 t.2, ∃ inl' ∈ (u.1.search u.2 (t.1.search t.2 ∅).2).1,
        ∃ b' ∈ inl'.caller.blocks.get? inl'.site.block, ∃ call' ∈ b'.instructions[inl'.site.index]?,
        t.2.nextCell.index ≤ call'.place.cell.id.index ∧ (inl'.replace? u.1 u.2).isSome := by
    decide +kernel
  obtain ⟨⟨m', env'⟩, hround₂⟩ := Option.isSome_iff_exists.1 hround₂
  have hreached : m₀.Reached env₀ := (arises_of_joined? hjoined).reached
  have hfirst : m₀.Unfolds env₀ m env _ _ :=
    Unfolds.start.inlined ⟨Prod.ext hinl₁ rfl, ⟨b₁, hb₁, hcall₁⟩, hround₁⟩
  have hsecond : m.Inlines env (m₀.search env₀ ∅).2 inl₂ call₂ m' env' _ :=
    ⟨Prod.ext hinl₂ rfl, ⟨b₂, hb₂, hcall₂⟩, hround₂⟩
  refine ⟨m₀, m, m', env₀, env, env', _, _, _, inl₂, call₂, hjoined, hreached, huncurried, hfirst, hsecond,
    ?_, Unfolds.not_within hreached huncurried hfirst hsecond⟩
  rw [if_pos hnew, htwo]

end Module

end Whittle.Ir
