import Mathlib.Tactic.Common
import Whittle.Proofs.Lowering.Shape
import Whittle.Proofs.Optimize.Merging

/-!
# Blocks that terminals mention

Lowering leaves no terminal that mentions a missing block.  Merging removes blocks: those that no path
reaches, but for the ones where arms meet, and those that have become part of the block before.  So what
a reachable block leads to stays, and so does every block where arms meet, even those of a conditional
that no path reaches.  The arms of such a conditional may go.

Main statements: `Module.Reached.mentions`, whatever operations have led to a module, and
`Module.Reached.apart`, no block is one of two functions.
-/

namespace Whittle.Ir

variable {env : Environment}

namespace Function

variable {f f' : Function} {a b c : BlockId} {merged : Block}

/-- What is reachable leads to blocks of the function, and arms meet there, reachable or not. -/
structure Tied (f : Function) : Prop extends f.Intact where
  meets : ∀ b, f.fallthroughs.contains b = true → f.blocks.contains b = true

theorem Reducible.tied (h : f.Reducible) (hflow : f.HasFlow) : f.Tied := by
  refine ⟨⟨hflow, fun p t _ hedge => ?_⟩, fun b hb => ?_⟩
  · obtain ⟨block, hblock, ht⟩ := edge_iff.1 hedge
    obtain ⟨terminal, hterminal, hmentions⟩ := h.ends p block hblock
    rw [Block.successors, hterminal] at ht
    exact hmentions t (Terminal.mem_mentions ht)
  · obtain ⟨t, ht, test, consequent, alternate, rfl⟩ := contains_fallthroughs.1 hb
    obtain ⟨p, block, hblock, hterminal⟩ := mem_terminals.1 ht
    obtain ⟨terminal, hterminal', hmentions⟩ := h.ends p block hblock
    obtain rfl := Option.some.inj (hterminal.symm.trans hterminal')
    exact hmentions b (by simp [Terminal.mentions])

/-! ## What keeps them -/

theorem contains_fallthroughs_mono (h : ∀ t ∈ f'.terminals, t ∈ f.terminals)
    (hb : f'.fallthroughs.contains b = true) : f.fallthroughs.contains b = true := by
  obtain ⟨t, ht, hbranch⟩ := contains_fallthroughs.1 hb
  exact contains_fallthroughs.2 ⟨t, h t ht, hbranch⟩

theorem contains_dropUnreachable_of_fallthrough (hmeets : f.fallthroughs.contains b = true)
    (hb : f.blocks.contains b = true) : f.dropUnreachable.2.blocks.contains b = true := by
  rw [dropUnreachable]
  dsimp only
  split
  · exact hb
  · obtain ⟨block, hblock⟩ := Table.contains_iff.1 hb
    rw [recomputeFlow, Table.contains, Table.get?_filter, hblock, hmeets]
    simp

theorem Tied.dropUnreachable (h : f.Tied) : f.dropUnreachable.2.Tied := by
  refine ⟨h.toIntact.dropUnreachable, fun b hb => ?_⟩
  have hmeets : f.fallthroughs.contains b = true := by
    refine contains_fallthroughs_mono (fun t ht => ?_) hb
    obtain ⟨p, block, hblock, hterminal⟩ := mem_terminals.1 ht
    exact mem_terminals.2 ⟨p, block, get?_of_get?_dropUnreachable hblock, hterminal⟩
  exact contains_dropUnreachable_of_fallthrough hmeets (h.meets b hmeets)

theorem Tied.merge (h : f.Tied) (hmergeable : f.Mergeable a c) (hmerged : f.blocks.get? c = some merged) :
    (f.merge a c merged).Tied := by
  refine ⟨h.toIntact.merge hmergeable hmerged, fun b hb => ?_⟩
  have hterminals : ∀ id block, (f.merge a c merged).blocks.get? id = some block →
      ∀ t, block.terminal = some t → t ∈ f.terminals := by
    refine forall_merge (B := fun block => ∀ t, block.terminal = some t → t ∈ f.terminals)
      (fun id block hblock t ht => mem_terminals.2 ⟨id, block, hblock, ht⟩) fun _ _ t ht => ?_
    exact mem_terminals.2 ⟨c, merged, hmerged, ht⟩
  have hmeets : f.fallthroughs.contains b = true := by
    refine contains_fallthroughs_mono (fun t ht => ?_) hb
    obtain ⟨id, block, hblock, hterminal⟩ := mem_terminals.1 ht
    exact hterminals id block hblock t hterminal
  refine (contains_merge ..).2 ⟨?_, h.meets b hmeets⟩
  rintro rfl
  obtain ⟨t, ht, test, consequent, alternate, hbranch⟩ := contains_fallthroughs.1 hmeets
  exact hmergeable.apart t ht test consequent alternate hbranch

theorem SameFlow.contains (h : f.SameFlow f') (b : BlockId) :
    f'.blocks.contains b = f.blocks.contains b := by
  have hending := congrArg Option.isSome (h.endings b)
  rwa [Option.isSome_map, Option.isSome_map] at hending

theorem SameFlow.contains_fallthroughs (h : f.SameFlow f')
    (hb : f'.fallthroughs.contains b = true) : f.fallthroughs.contains b = true := by
  obtain ⟨t, ht, test, consequent, alternate, rfl⟩ := Function.contains_fallthroughs.1 hb
  obtain ⟨p, block', hblock', hterminal'⟩ := mem_terminals.1 ht
  have hending := h.endings p
  rw [hblock'] at hending
  obtain ⟨block, hblock, hending⟩ := Option.map_eq_some_iff.1 hending.symm
  have hending : block.ending = block'.ending := hending
  rw [Block.ending, Block.ending, hterminal'] at hending
  obtain ⟨t, hterminal, hbranch⟩ := Option.map_eq_some_iff.1 hending
  refine Function.contains_fallthroughs.2 ⟨t, mem_terminals.2 ⟨p, block, hblock, hterminal⟩, ?_⟩
  cases t with
  | branch test consequent alternate fallthrough =>
    simp only [Terminal.mapReads, Terminal.branch.injEq] at hbranch
    exact ⟨_, _, _, by rw [hbranch.2.2.2]⟩
  | _ => cases hbranch

theorem Tied.same (h : f.Tied) (hsame : f.SameFlow f') : f'.Tied := by
  refine ⟨⟨h.flow.same hsame, fun p t hp hedge => ?_⟩, fun b hb => ?_⟩
  · rw [hsame.entry, hsame.edges] at hp
    rw [Edge, hsame.edges] at hedge
    rw [hsame.contains]
    exact h.leads p t hp hedge
  · rw [hsame.contains]
    exact h.meets b (hsame.contains_fallthroughs hb)

end Function

namespace Module

variable {m m' : Module} {id : FuncId} {f : Function} {b : BlockId} {block : Block} {t : Terminal}

/-- What operations do to single functions: blocks end as before, or some that no path reaches go, or
one takes in the next. -/
theorem Operation.forall_functions {P : FuncId → Function → Prop}
    (hsame : ∀ id f f', P id f → f.SameFlow f' → P id f')
    (hdrop : ∀ id f, P id f → P id f.dropUnreachable.2)
    (hmerge : ∀ id f a c merged, P id f → f.mergeable? = some (a, c) → f.blocks.get? c = some merged →
      P id (f.merge a c merged))
    (hop : Operation m env m' env') (hreached : m.Reached env)
    (h : ∀ id f, m.functions.get? id = some f → P id f) :
    ∀ id f, m'.functions.get? id = some f → P id f := by
  have hafter {m' : Module} (hflow : m.SameFlow m') :
      ∀ id f, m'.functions.get? id = some f → P id f := by
    intro id f' hf'
    obtain ⟨f, hf, hsameFlow⟩ := hflow id f' hf'
    exact hsame id f f' (h id f hf) hsameFlow
  have hset {m : Module} {id : FuncId} {f : Function} (hm : ∀ id f, m.functions.get? id = some f → P id f)
      (hf : P id f) : ∀ id' f', (m.setFunction id f).functions.get? id' = some f' → P id' f' := by
    intro id' f' hf'
    rw [get?_setFunction] at hf'
    split at hf'
    · next heq => exact heq ▸ Option.some.inj hf' ▸ hf
    · exact hm id' f' hf'
  cases hop with
  | resolve globals => exact h
  | buildSsa _ hf => exact hafter (.setFunction hf (Function.sameFlow_buildSsa _ _))
  | eliminateSsa hf hout => exact hafter (.setFunction hf (Function.sameFlow_eliminateSsa hout))
  | step w pass =>
    by_cases hpass : pass = .merging
    · subst hpass
      refine mergeBlocks_induction
        (P := fun m _ => ∀ id f, m.functions.get? id = some f → P id f) ?_ ?_ h
      · intro m _ id f hm hf
        exact hset hm (hdrop id f (hm id f hf))
      · intro m _ id f a c merged hm hf hmergeable hmerged
        exact hset hm (hmerge id f a c merged (hm id f hf) hmergeable hmerged)
    · exact hafter (pass.sameFlow_step (fun _ _ => hreached.ids) hpass)

theorem Reached.tied (h : m.Reached env) : ∀ id f, m.functions.get? id = some f → f.Tied := by
  induction h with
  | lower hlower =>
    intro id f hf
    obtain ⟨_, -, hclosed⟩ := Syntax.Module.closed_lower hlower
    exact (Syntax.Module.reducible_of_lower hlower hf).tied (hclosed id f hf).flow
  | next hreached hop ih =>
    refine Operation.forall_functions (P := fun _ f => f.Tied) (fun _ _ _ h hsame => h.same hsame)
      (fun _ _ h => h.dropUnreachable) (fun _ f a c merged h hfound hmerged => ?_) hop hreached ih
    exact h.merge (h.flow.mergeable_of_mergeable? hfound) hmerged

/-- No block is one of two functions, whatever operations have led to the module. -/
theorem Reached.apart (h : m.Reached env) {id' : FuncId} {g : Function}
    (hf : m.functions.get? id = some f) (hg : m.functions.get? id' = some g) (hne : id' ≠ id)
    (hb : f.blocks.contains b = true) : g.blocks.contains b = false := by
  obtain ⟨home, hhome⟩ : ∃ home : Table BlockId FuncId, ∀ id f, m.functions.get? id = some f →
      ∀ b, f.blocks.contains b = true → home.get? b = some id := by
    clear hf hg hb
    induction h with
    | lower hlower =>
      obtain ⟨home, -, hclosed⟩ := Syntax.Module.closed_lower hlower
      exact ⟨home, fun id f hf => (hclosed id f hf).charted.own⟩
    | next hreached hop ih =>
      obtain ⟨home, ih⟩ := ih
      refine ⟨home, Operation.forall_functions
        (P := fun id f => ∀ b, f.blocks.contains b = true → home.get? b = some id)
        (fun id f f' h hsame b hb => h b (hsame.contains b ▸ hb))
        (fun id f h b hb => h b (Function.contains_of_contains_dropUnreachable hb))
        (fun id f a c merged h _ _ b hb => h b ((Function.contains_merge ..).1 hb).2) hop hreached ih⟩
  rw [Bool.eq_false_iff]
  intro hin
  exact hne (Option.some.inj ((hhome id' g hg b hin).symm.trans (hhome id f hf b hb)))

/-- Whatever operations have led to a module, however often its blocks have been merged: in each function
the arms of every branch meet at a block that is there, and a block that some path reaches mentions only
blocks that are there. -/
theorem Reached.mentions (h : m.Reached env) (hf : m.functions.get? id = some f)
    (hb : f.blocks.get? b = some block) (ht : block.terminal = some t) :
    (∀ test consequent alternate fallthrough, t = .branch test consequent alternate fallthrough →
      f.blocks.contains fallthrough = true) ∧
    (Reachable f.entry (edgesOf f.blocks) b → ∀ s ∈ t.mentions, f.blocks.contains s = true) := by
  have htied := h.tied id f hf
  have hmeets (test : Place) (consequent alternate fallthrough : BlockId)
      (hbranch : t = .branch test consequent alternate fallthrough) :
      f.blocks.contains fallthrough = true :=
    htied.meets _ (Function.contains_fallthroughs.2
      ⟨t, Function.mem_terminals.2 ⟨b, block, hb, ht⟩, test, consequent, alternate, hbranch⟩)
  refine ⟨hmeets, fun hreachable s hs => ?_⟩
  have hleads (hs : s ∈ t.successors) : f.blocks.contains s = true :=
    htied.leads b s hreachable (edge_iff.2 ⟨block, hb, by rwa [Block.successors, ht]⟩)
  cases t with
  | jump target => exact hleads hs
  | branch test consequent alternate fallthrough =>
    simp only [Terminal.mentions, List.mem_cons, List.not_mem_nil, or_false] at hs
    rcases hs with rfl | rfl | rfl
    · exact hleads (by simp [Terminal.successors])
    · exact hleads (by simp [Terminal.successors])
    · exact hmeets _ _ _ _ rfl
  | ret value => cases hs

/-- `while (a) { if (b) { break; } else { break; } if (c) { d; } }` -/
def deserting : Syntax.Module :=
  let name (text : String) : Syntax.Expr := .name .synthetic (.synthetic text)
  let leave : Syntax.Stmt := .break .synthetic none
  ⟨⟨0, 0⟩,
    [.while .synthetic (name "a") (.block .synthetic
      [.ifElse .synthetic (name "b") leave (some leave),
       .ifElse .synthetic (name "c") (.expression .synthetic (name "d")) none])]⟩

/-- The second conditional is not reached: the block where its arms meet stays, one of its arms goes. -/
theorem Reached.mentions_deserting : ∃ (w : Workbench) (f : Function) (block : Block) (t : Terminal),
    joined? deserting = some (w.module, w.env) ∧
      (Pass.merging.step w).2.module.functions.get? ⟨0⟩ = some f ∧ f.blocks.get? ⟨5⟩ = some block ∧
      block.terminal = some t ∧ (∃ test, t = .branch test ⟨9⟩ ⟨10⟩ ⟨10⟩) ∧
      f.blocks.contains ⟨9⟩ = false ∧ f.blocks.contains ⟨10⟩ = true := by
  obtain ⟨⟨m, env⟩, hjoined, f, hf, block, hb, t, ht, hbranch, hgone⟩ : ∃ w ∈ joined? deserting,
      ∃ f ∈ (Pass.merging.step ⟨w.1, w.2, {}, ∅⟩).2.module.functions.get? ⟨0⟩,
        ∃ block ∈ f.blocks.get? ⟨5⟩, ∃ t ∈ block.terminal,
          t.mentions = [⟨9⟩, ⟨10⟩, ⟨10⟩] ∧ f.blocks.contains ⟨9⟩ = false := by
    decide +kernel
  have hreached : m.Reached env := (arises_of_joined? hjoined).reached
  have hlater := hreached.next (.step ⟨m, env, {}, ∅⟩ .merging)
  have hmentions := Reached.mentions hlater hf hb ht
  obtain ⟨test, rfl⟩ : ∃ test, t = .branch test ⟨9⟩ ⟨10⟩ ⟨10⟩ := by
    cases t with
    | branch test consequent alternate fallthrough =>
      obtain ⟨rfl, rfl, rfl⟩ : consequent = ⟨9⟩ ∧ alternate = ⟨10⟩ ∧ fallthrough = ⟨10⟩ := by
        simpa [Terminal.mentions] using hbranch
      exact ⟨test, rfl⟩
    | _ => simp [Terminal.mentions] at hbranch
  exact ⟨⟨m, env, {}, ∅⟩, f, block, _, hjoined, hf, hb, ht, ⟨test, rfl⟩, hgone,
    hmentions.1 _ _ _ _ rfl⟩

end Module

end Whittle.Ir
