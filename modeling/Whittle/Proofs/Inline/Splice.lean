import Mathlib.Tactic.Common
import Whittle.Proofs.Inline.Module

/-!
# Calls replaced

What one round of inlining does to a module, with all its parts (`Splice`): the call and where it
stands, the copies of the callee's instructions and the places that stand for its own.

Main statements: `Module.exists_splice`, and `Module.AllUse.inlineOne`, inlining keeps modules coherent.
-/

namespace Whittle.Ir

/-! ## Places of the expansion -/

/-- Versions of known places are recorded. -/
theorem advance_recordDefined {env : Environment} {cells : List Cell} (h : env.Logs cells)
    (block : BlockId) {is : List Instr} (his : ∀ i ∈ is, ∀ p ∈ i.defined, p.IsOf cells) :
    Advance env cells (recordDefined block is env) cells := by
  have hall : ∀ p ∈ is.flatMap (·.defined), p.IsOf cells := by
    intro p hp
    obtain ⟨i, hi, hp⟩ := List.mem_flatMap.1 hp
    exact his i hi p hp
  rw [recordDefined]
  generalize is.flatMap (·.defined) = ps at hall
  induction ps generalizing env with
  | nil => exact .refl h
  | cons p ps ih =>
    have hstep : Advance env cells
        (if env.isTemporary p.declaration then env else env.record p.declaration block p) cells := by
      split
      · exact .refl h
      · exact .record h (hall p List.mem_cons_self) block
    exact hstep.trans (ih hstep.logs fun q hq => hall q (List.mem_cons_of_mem _ hq))

namespace Inlining.Expands

variable {inl : Inlining} {env : Environment} {start cells : List Cell} {arguments : List Place}
  {c : Copying} {array : Instr} {header : List Instr} {pattern bind : Instr} {body : List Instr}

/-- Counterparts are places of the cells at the end. -/
theorem isOf_place (h : inl.Expands env start cells arguments c array header pattern bind body)
    {p : Place} (hp : p.IsOf start) (hcovers : c.Covers p) : (c.place p).IsOf cells := by
  by_cases howner : c.env.ownerOf p.declaration = some c.callee
  · exact h.goes.fresh.known _ _ (hcovers.get?_places howner)
  · rw [Copying.place_of_foreign howner]
    exact hp.mono h.goes.env.cells

/-- All places of an expansion are places of those cells. -/
theorem isOf_places (h : inl.Expands env start cells arguments c array header pattern bind body)
    (hcopy : inl.Copyable env start) (harguments : ∀ p ∈ arguments, p.IsOf start) {call : Instr}
    (hcall : call.place.IsOf start) :
    ∀ j ∈ array :: header ++ [pattern, bind] ++ body ++ inl.closing call, ∀ p ∈ j.places,
      p.IsOf cells := by
  have hcopied {is js : List Instr} (his : ∀ i ∈ is, i ∈ inl.callee.header ++ inl.code)
      (hcopies : List.Forall₂ c.IsCopy is js) : ∀ j ∈ js, ∀ p ∈ j.places, p.IsOf cells := by
    refine forall_of_forall₂ hcopies fun i hi j hij p hp => ?_
    have hplaces : j.places = i.places.map c.place := by
      rw [Instr.places, Instr.defined_mapPlaces hij.op hij.place, Instr.reads, hij.op,
        Op.reads_mapPlaces, Instr.places, List.map_append, Instr.reads]
    obtain ⟨q, hq, rfl⟩ := List.mem_map.1 (hplaces ▸ hp)
    have hin : inl.Mentions q := .inl ⟨i, his i hi, hq⟩
    exact h.isOf_place (hcopy.known q (hcopy.mem_places hin)) (h.covers i (his i hi) q hq)
  have hreserved := h.goes.fresh.reserved_known
  simp only [List.mem_cons, List.not_mem_nil, or_false, forall_eq_or_imp, forall_eq] at hreserved
  obtain ⟨⟨hbind, -⟩, ⟨hpattern, -⟩, ⟨harray, -⟩⟩ := hreserved
  intro j hj p hp
  simp only [List.cons_append, List.append_assoc, List.nil_append, List.mem_cons,
    List.mem_append] at hj
  rcases hj with rfl | hj | rfl | rfl | hj | hj
  · simp only [Instr.places, Instr.reads, Instr.defined, h.array_op, Op.reads, Op.target?,
      Option.toList_none, List.mem_append, List.mem_singleton] at hp
    rcases hp with hp | rfl
    · exact (harguments p hp).mono h.goes.env.cells
    · exact harray
  · exact hcopied (fun i hi => List.mem_append_left _ hi) h.header j hj p hp
  · simp only [Instr.places, Instr.reads, Instr.defined, h.pattern_op, Op.reads, Op.target?,
      Option.toList_none, List.mem_append, List.mem_singleton, List.flatMap_map, List.mem_flatMap,
      Option.mem_toList, Option.some.injEq] at hp
    rcases hp with ⟨q, hq, rfl⟩ | rfl
    · exact h.isOf_place (hcopy.known q (Function.places_of_params hq)) (h.covers_params q hq)
    · exact hpattern
  · simp only [Instr.places, Instr.reads, Instr.defined, h.bind_op, Op.reads, Op.target?,
      Option.toList_none, List.mem_append, List.mem_cons, List.not_mem_nil, or_false] at hp
    rcases hp with (rfl | rfl) | rfl
    · exact hpattern
    · exact harray
    · exact hbind
  · exact hcopied (fun i hi => List.mem_append_right _ hi) h.body j hj p hp
  · rw [closing] at hj
    cases hreturned : returned? inl.body with
    | some q => simp [hreturned] at hj
    | none =>
      obtain rfl : j = { call with op := .literal .undefined } := by simpa [hreturned] using hj
      obtain rfl : p = call.place := by
        simpa [Instr.places, Instr.reads, Instr.defined, Op.reads, Op.target?] using hp
      exact hcall.mono h.goes.env.cells

/-- The result stands in a place of the caller. -/
theorem result (h : inl.Expands env start cells arguments c array header pattern bind body)
    (hcopy : inl.Copyable env start) {p : Place} (hp : returned? inl.body = some p) :
    (c.place p).IsOf cells ∧ c.env.ownerOf (c.place p).declaration = some inl.caller.id := by
  have hof := hcopy.known p (hcopy.mem_of_returned hp)
  have howner : c.env.ownerOf p.declaration = some c.callee := by
    rw [h.goes.env.owner _ (hcopy.declared (hcopy.mem_of_returned hp)), h.callee]
    exact hcopy.returned p hp
  have hcovers := h.covers_returned p hp
  refine ⟨h.isOf_place hof hcovers, ?_⟩
  rw [h.goes.fresh.owner _ _ (hcovers.get?_places howner), h.caller]

end Inlining.Expands

/-- What holds of a place and of the result holds of what the place is redirected to. -/
theorem redirect_cases {call p : Place} {result : Option Place} {P : Place → Prop} (hp : P p)
    (hresult : ∀ q, result = some q → P q) : P (redirect call result p) := by
  cases result with
  | none => exact hp
  | some q =>
    rw [redirect]
    split
    · exact hresult q rfl
    · exact hp

/-! ## Splices -/

/-- A call of a module that is replaced by a copy of the function that it calls. -/
structure Splice (m : Module) (env : Environment) (start : List Cell) extends Inlining where
  /-- The block of the call. -/
  block : Block
  call : Instr
  function : Place
  arguments : List Place
  /-- The cells that there are once everything is copied. -/
  cells : List Cell
  copying : Copying
  array : Instr
  header : List Instr
  pattern : Instr
  bind : Instr
  copied : List Instr
  caller_mem : m.functions.get? caller.id = some caller
  callee_mem : m.functions.get? callee.id = some callee
  small : m.smallBody? env callee = some body
  copyable : toInlining.Copyable env start
  block_mem : caller.blocks.get? site.block = some block
  call_mem : block.instructions[site.index]? = some call
  call_op : call.op = .call function arguments
  expands : toInlining.Expands env start cells arguments copying array header pattern bind copied

namespace Splice

variable {m : Module} {env : Environment} {start : List Cell} (s : Splice m env start)

/-- What stands in the place of the call. -/
def code : List Instr := s.array :: s.header ++ [s.pattern, s.bind] ++ s.copied ++ s.closing s.call

/-- Where the result stands, if the callee returns one. -/
def result : Option Place := (returned? s.body).map s.copying.place

/-- The instructions of the block of the call, with the call replaced. -/
def instructions : List Instr :=
  s.block.instructions.take s.site.index ++ s.code ++ s.block.instructions.drop (s.site.index + 1)

/-- The caller before its reads of the result are redirected. -/
def spliced : Function := s.caller.setBlock s.site.block { s.block with instructions := s.instructions }

/-- The caller with the call replaced. -/
def replaced : Function :=
  s.spliced.mapBlocks fun _ b => b.mapReads (redirect s.call.place s.result)

/-- The environment after the replacement. -/
def after : Environment := recordDefined s.site.block s.code s.copying.env

theorem block_eq : s.block.instructions = s.block.instructions.take s.site.index ++
    s.call :: s.block.instructions.drop (s.site.index + 1) := by
  obtain ⟨hlt, hcall⟩ := List.getElem?_eq_some_iff.1 s.call_mem
  rw [← hcall, List.cons_getElem_drop_succ, List.take_append_drop]

theorem call_mem_block : s.call ∈ s.block.instructions := List.mem_of_getElem? s.call_mem

end Splice

/-- Where a replacement is made, it is a splice. -/
theorem Inlining.exists_splice {inl : Inlining} {m m' : Module} {env env' : Environment}
    {start : List Cell} (hall : m.AllUse env start) (hlogs : env.Logs start)
    (hcaller : ∃ id, m.functions.get? id = some inl.caller)
    (hcallee : m.functions.get? inl.site.callee = some inl.callee)
    (hbody : m.smallBody? env inl.callee = some inl.body)
    (hreplace : inl.replace? m env = some (m', env')) :
    ∃ s : Splice m env start, s.toInlining = inl ∧ m' = m.setFunction s.caller.id s.replaced ∧
      env' = s.after := by
  obtain ⟨id, hcaller⟩ := hcaller
  obtain ⟨b, call, function, arguments, hb, hcall, hop, rfl, rfl⟩ := replace?_eq_some hreplace
  obtain ⟨rfl, -, -⟩ := hall _ _ hcaller
  obtain ⟨hid, huses, -⟩ := hall _ _ hcallee
  rw [← hid] at hcallee huses
  have hcopy := copyable hlogs huses hbody
  obtain ⟨cells, c, array, header, pattern, bind, body, hexpands, hexpansion⟩ :=
    exists_expansion hcopy call arguments
  rw [hexpansion]
  exact ⟨{
    toInlining := inl, block := b, call, function, arguments, cells, copying := c, array, header
    pattern, bind, copied := body, caller_mem := hcaller, callee_mem := hcallee, small := hbody
    copyable := hcopy, block_mem := hb, call_mem := hcall, call_op := hop, expands := hexpands },
    rfl, rfl, rfl⟩

/-- A round of inlining that changes a module replaces a call. -/
theorem Module.exists_splice {m m' : Module} {env env' : Environment} {start : List Cell}
    {cache cache' : RecursionCache} (hall : m.AllUse env start) (hlogs : env.Logs start)
    (h : m.inlineOne env cache = (true, m', env', cache')) :
    ∃ s : Splice m env start, m' = m.setFunction s.caller.id s.replaced ∧ env' = s.after := by
  obtain ⟨inl, hcaller, -, hcallee, hbody, hreplace⟩ := inlineOne_eq_true h
  obtain ⟨s, -, hs⟩ := inl.exists_splice hall hlogs hcaller hcallee hbody hreplace
  exact ⟨s, hs⟩

/-! ## Coherence -/

namespace Splice

variable {m : Module} {env : Environment} {start : List Cell} (s : Splice m env start)

theorem isOf_code (hall : m.AllUse env start) : ∀ i ∈ s.code, ∀ p ∈ i.places, p.IsOf s.cells := by
  have huses := (hall _ _ s.caller_mem).uses
  have hcall := (huses.blocks _ _ s.block_mem).instructions _ s.call_mem_block
  apply s.expands.isOf_places s.copyable _ (hcall _ s.call.place_mem_places)
  intro p hp
  refine hcall p (List.mem_append_left _ ?_)
  rw [Instr.reads, s.call_op]
  exact List.mem_cons_of_mem _ hp

theorem isOf_instructions (hall : m.AllUse env start) :
    ∀ i ∈ s.instructions, ∀ p ∈ i.places, p.IsOf s.cells := by
  have huses := (hall _ _ s.caller_mem).uses
  have hold (i : Instr) (hi : i ∈ s.block.instructions) (p : Place) (hp : p ∈ i.places) :
      p.IsOf s.cells :=
    ((huses.blocks _ _ s.block_mem).instructions i hi p hp).mono s.expands.goes.env.cells
  simp only [instructions, List.forall_mem_append]
  exact ⟨⟨fun i hi => hold i (List.mem_of_mem_take hi), s.isOf_code hall⟩,
    fun i hi => hold i (List.mem_of_mem_drop hi)⟩

/-- Once everything is copied, only records are made. -/
theorem advance_copied (hall : m.AllUse env start) :
    Advance s.copying.env s.cells s.after s.cells := by
  apply advance_recordDefined s.expands.goes.env.logs
  intro j hj p hp
  exact s.isOf_code hall j hj p (List.mem_append_right _ hp)

theorem advance (hall : m.AllUse env start) : Advance env start s.after s.cells :=
  s.expands.goes.env.trans (s.advance_copied hall)

theorem fits_replaced (hall : m.AllUse env start) :
    s.replaced.Fits s.after s.cells s.caller.id := by
  have hadvance := s.advance hall
  have hcaller := hadvance.fits (hall _ _ s.caller_mem)
  have hblock := hcaller.uses.blocks _ _ s.block_mem
  have hset := hcaller.uses.setBlock s.site.block (hblock.withInstructions (s.isOf_instructions hall))
  have hresult (q : Place) (hq : s.result = some q) :
      q.IsOf s.cells ∧ s.after.ownerOf q.declaration = some s.caller.id := by
    obtain ⟨p, hp, rfl⟩ := Option.map_eq_some_iff.1 hq
    exact (s.expands.result s.copyable hp).imp_right (s.advance_copied hall).ownerOf
  refine ⟨rfl, hset.mapBlocks fun id b hb => ?_, hcaller.phis⟩
  exact (hset.blocks id b hb).mapReads
    (fun p hp => redirect_cases hp fun q hq => (hresult q hq).1)
    fun p _ hp => redirect_cases
      (P := fun p => s.after.ownerOf p.declaration = some s.caller.id) hp fun q hq => (hresult q hq).2

end Splice

theorem Module.AllUse.inlineOne {m m' : Module} {env env' : Environment} {start : List Cell}
    {cache cache' : RecursionCache} (hall : m.AllUse env start) (hlogs : env.Logs start)
    (h : m.inlineOne env cache = (true, m', env', cache')) :
    ∃ cells, Advance env start env' cells ∧ m'.AllUse env' cells := by
  obtain ⟨s, rfl, rfl⟩ := exists_splice hall hlogs h
  have hadvance := s.advance hall
  exact ⟨s.cells, hadvance, (AllUse.advance hall hadvance).setFunction (s.fits_replaced hall)⟩

end Whittle.Ir
