import Mathlib.Tactic.Common
import Whittle.Proofs.Ir.Visible
import Whittle.Proofs.Optimize.Mentions
import Whittle.Proofs.Optimize.Origins
import Whittle.Proofs.Ssa.Module

/-!
# Homes of blocks

A block is made for one function and stays there, and so do the records of a variable that is not
captured: they name blocks of the function that the variable belongs to.  A joined variable is recorded
in the function that joins it, a copied one belongs to the caller into whose block it is copied, and
records follow merged blocks of one function.

Main statement: `Module.Reached.housed`.
-/

namespace Whittle.Ir

variable {env env' : Environment} {cells cells' : List Cell} {home : Table BlockId FuncId} {id : FuncId}

/-! ## Functions -/

namespace Function

variable {f f' : Function} {phi : Phi}

/-- A function whose blocks are at home. -/
structure Housed (f : Function) (home : Table BlockId FuncId) (id : FuncId) : Prop extends f.Tied where
  entry : f.blocks.contains f.entry = true
  own : ∀ b, f.blocks.contains b = true → home.get? b = some id

theorem Housed.same (h : f.Housed home id) (hsame : f.SameFlow f') : f'.Housed home id where
  toTied := h.toTied.same hsame
  entry := by
    rw [hsame.entry, hsame.contains]
    exact h.entry
  own b hb := h.own b (hsame.contains b ▸ hb)

theorem Housed.dropUnreachable (h : f.Housed home id) : f.dropUnreachable.2.Housed home id where
  toTied := h.toTied.dropUnreachable
  entry := by
    have hentry : f.dropUnreachable.2.entry = f.entry := by rw [dropUnreachable_eq]
    rw [hentry, Table.contains, h.flow.get?_dropUnreachable reachable_entry]
    exact h.entry
  own b hb := h.own b (contains_of_contains_dropUnreachable hb)

theorem Housed.merge (h : f.Housed home id) {a c : BlockId} {merged : Block}
    (hmergeable : f.Mergeable a c) (hmerged : f.blocks.get? c = some merged) :
    (f.merge a c merged).Housed home id where
  toTied := h.toTied.merge hmergeable hmerged
  entry := (contains_merge ..).2 ⟨hmergeable.ne_entry.symm, h.entry⟩
  own b hb := h.own b ((contains_merge ..).1 hb).2

/-- A phi stands where paths of its function meet. -/
theorem Housed.home_of_phi (h : f.Housed home id) (hphi : phi ∈ (f.buildSsa env).1.phis) :
    home.get? phi.block = some id := by
  obtain ⟨p, hp, hedge⟩ := exists_edge_of_phi h.flow h.entry hphi
  exact h.own _ (h.leads p _ hp hedge)

end Function

/-! ## Records -/

section Records

variable {f : Function} {phi : Phi}

theorem Advance.uncaptured (h : Advance env cells env' cells') {d : DeclId}
    (hd : env'.captured.contains d = false) : env.captured.contains d = false := by
  refine Bool.eq_false_iff.2 fun hin => ?_
  rw [h.captured d hin] at hd
  cases hd

/-- The versions of a variable that is not captured stand in blocks of its function. -/
def Environment.Homed (env : Environment) (home : Table BlockId FuncId) : Prop :=
  ∀ d, ∀ r ∈ env.versionsOf d, env.captured.contains d = false →
    ∃ id, home.get? r.block = some id ∧ env.ownerOf d = some id

/-- A function joins versions of variables that it may use. -/
theorem Environment.Homed.shows (h : env.Homed home)
    (hown : ∀ b, f.blocks.contains b = true → home.get? b = some id)
    (hphi : phi ∈ (f.buildSsa env).1.phis) : env.Shows id phi.place := by
  obtain ⟨sites, hsites, -⟩ := Function.map_block_recordsOf_buildSsa hphi
  obtain ⟨b, -, -, hb, -⟩ := KeySet.two_le_size_iff.1 (Function.two_le_size_of_mem_meetings hsites)
  obtain ⟨hb, r, hr, rfl⟩ := (Function.mem_meetings hsites b).1 hb
  intro _
  cases hcaptured : env.captured.contains phi.place.declaration with
  | true => exact .inr rfl
  | false =>
    obtain ⟨id', hhome, howner⟩ := h _ r hr hcaptured
    rw [hown _ hb] at hhome
    exact .inl (howner.trans hhome.symm)

/-- It may still use them when it has its phis. -/
theorem Environment.Homed.shows_buildSsa (h : env.Homed home)
    (hown : ∀ b, f.blocks.contains b = true → home.get? b = some id)
    (hadvance : Advance env cells (f.buildSsa env).2 cells') (hphi : phi ∈ (f.buildSsa env).1.phis) :
    (f.buildSsa env).2.Shows id phi.place := by
  intro _
  obtain ⟨sites, hsites, -⟩ := Function.map_block_recordsOf_buildSsa hphi
  rcases h.shows hown hphi (Function.named_of_mem_meetings hsites) with howner | hin
  · exact .inl (hadvance.ownerOf howner)
  · exact .inr (hadvance.captured _ hin)

theorem Environment.Homed.advance (h : env.Homed home) (hadvance : Advance env cells env' cells')
    (hversions : env'.versions = env.versions) : env'.Homed home := by
  intro d r hr hcaptured
  rw [versionsOf, hversions] at hr
  have hbefore := hadvance.uncaptured hcaptured
  obtain ⟨id, hhome, howner⟩ := h d r hr hbefore
  exact ⟨id, hhome, hadvance.ownerOf howner⟩

/-- The phis of a function stand in its blocks. -/
theorem Environment.Homed.buildSsa (h : env.Homed home)
    (hown : ∀ b, f.blocks.contains b = true → home.get? b = some id)
    (hphis : ∀ phi ∈ (f.buildSsa env).1.phis, home.get? phi.block = some id)
    (hadvance : Advance env cells (f.buildSsa env).2 cells') :
    (f.buildSsa env).2.Homed home := by
  intro d r hr hcaptured
  have hbefore := hadvance.uncaptured hcaptured
  rw [Function.versionsOf_buildSsa] at hr
  rcases List.mem_append.1 hr with hr | hr
  · obtain ⟨id', hhome, howner⟩ := h d r hr hbefore
    exact ⟨id', hhome, hadvance.ownerOf howner⟩
  · obtain ⟨phi, hphi, rfl, rfl⟩ := Function.mem_recordsOf.1 hr
    obtain ⟨sites, hsites, -⟩ := Function.map_block_recordsOf_buildSsa hphi
    refine ⟨id, hphis phi hphi, hadvance.ownerOf ?_⟩
    rcases h.shows hown hphi (Function.named_of_mem_meetings hsites) with howner | hin
    · exact howner
    · rw [Phi.declaration, hin] at hbefore
      cases hbefore

end Records

namespace Environment.Homed

/-- Records move to another block of the same function. -/
theorem rehome (h : env.Homed home) {source target : BlockId} (hsource : home.get? source = some id)
    (htarget : home.get? target = some id) : (env.rehome source target).Homed home := by
  intro d r hr hcaptured
  rw [versionsOf_rehome] at hr
  obtain ⟨r₀, hr₀, rfl⟩ := List.mem_map.1 hr
  obtain ⟨id', hhome, howner⟩ := h d r₀ hr₀ hcaptured
  refine ⟨id', ?_, howner⟩
  split
  · next heq =>
    rw [beq_iff_eq.1 heq, hsource] at hhome
    exact htarget.trans hhome
  · exact hhome

theorem record (h : env.Homed home) {block : BlockId} (hblock : home.get? block = some id) {p : Place}
    (hp : env.ownerOf p.declaration = some id) : (env.record p.declaration block p).Homed home := by
  intro d r hr hcaptured
  rw [versionsOf_record] at hr
  split at hr
  · next heq =>
    subst heq
    rcases List.mem_append.1 hr with hr | hr
    · exact h _ r hr hcaptured
    · obtain rfl := List.mem_singleton.1 hr
      exact ⟨id, hblock, hp⟩
  · exact h d r hr hcaptured

/-- What instructions of a block define is recorded, as far as it belongs to the function. -/
theorem recordDefined (h : env.Homed home) {block : BlockId} (hblock : home.get? block = some id)
    {is : List Instr} (his : ∀ i ∈ is, ∀ p ∈ i.defined, env.isTemporary p.declaration = true ∨
      env.ownerOf p.declaration = some id) : (recordDefined block is env).Homed home := by
  have hall : ∀ p ∈ is.flatMap (·.defined), env.isTemporary p.declaration = true ∨
      env.ownerOf p.declaration = some id := by
    intro p hp
    obtain ⟨i, hi, hp⟩ := List.mem_flatMap.1 hp
    exact his i hi p hp
  rw [Ir.recordDefined]
  generalize is.flatMap (·.defined) = ps at hall
  clear his
  induction ps generalizing env with
  | nil => exact h
  | cons p ps ih =>
    obtain ⟨hp, hps⟩ := List.forall_mem_cons.1 hall
    rw [List.foldl_cons]
    split
    · exact ih h hps
    · next hnamed => exact ih (h.record hblock (hp.resolve_left hnamed)) hps

end Environment.Homed

/-- Copied variables belong to the caller, in whose block they are written. -/
theorem Splice.homed_after {m : Module} {start : List Cell} (s : Splice m env start)
    (hall : m.AllUse env start) (h : env.Homed home)
    (horder : s.caller.InOrder env) (hblock : home.get? s.site.block = some s.caller.id) :
    s.after.Homed home := by
  have hcopied : s.copying.env.Homed home := h.advance s.expands.goes.env s.expands.goes.versions
  refine hcopied.recordDefined hblock fun i hi p hp => ?_
  rcases s.defined_code hi hp with htemporary | ⟨number, hnumber⟩ | rfl
  · exact .inl htemporary
  · refine .inr ((s.expands.goes.fresh.owner number p hnumber).trans ?_)
    rw [s.expands.caller]
  · have hcall := (hall _ _ s.caller_mem).uses.blocks _ _ s.block_mem
    have hof := hcall.instructions _ s.call_mem_block _ s.call.place_mem_places
    rw [s.expands.goes.env.temporary _ (s.copyable.logs.has hof).2]
    exact .inl (s.isTemporary_call horder)

/-! ## Modules -/

/-- The blocks and the records of a module are at home. -/
structure Module.Housed (m : Module) (env : Environment) (home : Table BlockId FuncId) : Prop where
  functions : ∀ id f, m.functions.get? id = some f → f.Housed home id
  records : env.Homed home

namespace Module

variable {m m' : Module}

theorem Housed.mergeBlocks (h : m.Housed env home) :
    (m.mergeBlocks env).2.1.Housed (m.mergeBlocks env).2.2 home := by
  have hset {m : Module} {env : Environment} {id : FuncId} {f : Function} (hm : m.Housed env home)
      (hf : f.Housed home id) : (m.setFunction id f).Housed env home := by
    refine ⟨fun id' f' hf' => ?_, hm.records⟩
    rw [get?_setFunction] at hf'
    split at hf'
    · next heq => exact heq ▸ Option.some.inj hf' ▸ hf
    · exact hm.functions id' f' hf'
  refine mergeBlocks_induction (P := fun m env => m.Housed env home) ?_ ?_ h
  · intro m env id f hm hf
    exact hset hm (hm.functions id f hf).dropUnreachable
  · intro m env id f target source merged hm hf hfound hmerged
    have hhoused := hm.functions id f hf
    have hmergeable := hhoused.flow.mergeable_of_mergeable? hfound
    obtain ⟨block, hblock, -⟩ := hmergeable.jumps
    have hrecords := hm.records.rehome (hhoused.own source (Table.contains_iff.2 ⟨merged, hmerged⟩))
      (hhoused.own target (Table.contains_iff.2 ⟨block, hblock⟩))
    exact ⟨(hset hm (hhoused.merge hmergeable hmerged)).functions, hrecords⟩

theorem homed_inlineOne (h : m.Housed env home) (hall : m.AllUse env cells) (hlogs : env.Logs cells)
    (horder : m.InOrder env) (cache : RecursionCache) : (m.inlineOne env cache).2.2.1.Homed home := by
  rcases hinline : m.inlineOne env cache with ⟨changed, m', env', cache'⟩
  cases changed with
  | false =>
    obtain ⟨rfl, rfl⟩ := inlineOne_eq_false hinline
    exact h.records
  | true =>
    obtain ⟨s, rfl, rfl⟩ := exists_splice hall hlogs hinline
    apply s.homed_after hall h.records (horder _ _ s.caller_mem)
    exact (h.functions _ _ s.caller_mem).own _ (Table.contains_iff.2 ⟨_, s.block_mem⟩)

theorem homed_step {w : Workbench} (h : w.module.Housed w.env home) (hall : w.module.AllUse w.env cells)
    (hlogs : w.env.Logs cells) (horder : w.module.InOrder w.env) (pass : Pass) :
    (pass.step w).2.env.Homed home := by
  cases pass with
  | inlining => exact homed_inlineOne h hall hlogs horder w.recursion
  | merging => exact h.mergeBlocks.records
  | propagation => exact h.records
  | forwarding => exact h.records
  | overwriting => exact h.records
  | sweeping => exact h.records

/-- An operation leaves every block where it is, and it records variables that are not captured only in
blocks of the functions that own them. -/
theorem Housed.next (h : m.Housed env home) (hreached : m.Reached env)
    (hop : Operation m env m' env') : m'.Housed env' home := by
  obtain ⟨cells, hlogs, hall⟩ := hreached.coherent
  refine ⟨Operation.forall_functions (P := fun id f => f.Housed home id)
    (fun _ _ _ hf hsame => hf.same hsame) (fun _ _ hf => hf.dropUnreachable)
    (fun _ f a c merged hf hfound hmerged => hf.merge (hf.flow.mergeable_of_mergeable? hfound) hmerged)
    hop hreached h.functions, ?_⟩
  cases hop with
  | resolve globals => exact h.records
  | @buildSsa _ id f _ hf =>
    have hhoused := h.functions id f hf
    obtain ⟨_, hadvance, -⟩ := advance_buildSsa hlogs f
    exact h.records.buildSsa hhoused.own (fun _ hphi => hhoused.home_of_phi hphi) hadvance
  | @eliminateSsa _ id f f' _ _ hf hout =>
    obtain ⟨_, hadvance, -⟩ := (hall id f hf).eliminateSsa hlogs hout
    exact h.records.advance hadvance (Function.versions_eliminateSsa hout)
  | step w pass => exact homed_step h hall hlogs hreached.inOrder pass

/-- Every block has a home for good: whatever operations have led to a module, the blocks of each
function are its own, and versions of variables that are not captured are recorded in blocks of the
functions that own them. -/
theorem Reached.housed (h : m.Reached env) : ∃ home, m.Housed env home := by
  induction h with
  | lower hlower =>
    obtain ⟨home, hrecords, hclosed⟩ := Syntax.Module.closed_lower hlower
    refine ⟨home, fun id f hf => ?_, hrecords.home⟩
    have htied := (Syntax.Module.reducible_of_lower hlower hf).tied (hclosed id f hf).flow
    exact ⟨htied, (hclosed id f hf).entry, (hclosed id f hf).charted.own⟩
  | next hreached hop ih =>
    obtain ⟨home, hhoused⟩ := ih
    exact ⟨home, hhoused.next hreached hop⟩

end Module

end Whittle.Ir
