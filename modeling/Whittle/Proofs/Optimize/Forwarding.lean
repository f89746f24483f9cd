import Mathlib.Tactic.Common
import Std.Data.TreeMap.Lemmas
import Whittle.Proofs.Optimize.Propagation

/-!
# Forwarding stored values

A store that takes its value from elsewhere stores the same value.  Beside what is noted in the middle
of a block stands what the cells hold: a variable that can be skipped holds what the temporary holds
that was stored in it, and so does the result of a load of it, and none of these cells is written
again.

Main statements: `Module.forwardStores_keeps_values`, and `Module.forwardStores_misstores`, why values have to be
passed on as it asks.
-/

namespace Whittle.Ir

/-! ## Running a block -/

/-- What the cells hold after an instruction.  Loads, stores and copies pass a value on; what the other
instructions do is up to `effect`. -/
def Instr.next {α : Type} (effect : Instr → Memory α → Memory α) (σ : Memory α) (i : Instr) : Memory α :=
  i.op.moved?.elim (effect i σ) fun p c => if i.defined.any (·.cell == c) then σ p.cell else σ c

/-- Some pattern of the module binds the cell. -/
def Module.Binds (m : Module) (c : Cell) : Prop :=
  ∃ i ∈ m.instructions, i.op.isBinding = true ∧ i.place.cell = c

/-- Instructions that pass no value on write their own places, the places that patterns bind, and
captured variables that can change. -/
def Module.Admits {α : Type} (m : Module) (env : Environment)
    (effect : Instr → Memory α → Memory α) : Prop :=
  ∀ i σ c, i.place.cell ≠ c → ¬ m.Binds c → env.isCapturedMutable c.declaration = false →
    effect i σ c = σ c

section

variable {α : Type} {effect : Instr → Memory α → Memory α} {σ : Memory α} {i : Instr} {p q : Place}
  {c : Cell}

theorem Instr.next_of_moved (h : i.op.moved? = some q) (hp : p ∈ i.defined) :
    i.next effect σ p.cell = σ q.cell := by
  have hany : i.defined.any (·.cell == p.cell) = true := List.any_eq_true.2 ⟨p, hp, beq_self_eq_true _⟩
  simp only [next, h, Option.elim_some, hany, if_true]

/-- Passing on another place with the same value makes no difference. -/
theorem Instr.next_congr {j : Instr} (hmoved : i.op.moved? = some p) (hmoved' : j.op.moved? = some q)
    (hdefined : j.defined = i.defined) (hvalue : σ q.cell = σ p.cell) :
    j.next effect σ = i.next effect σ := by
  funext c
  simp only [next, hmoved, hmoved', Option.elim_some, hdefined, hvalue]

end

/-! ## Cells that are not written again -/

/-- The rest of a block does not write the cell, whatever is executed in it. -/
structure Module.Lasting (m : Module) (env : Environment) (rest : List Instr) (c : Cell) : Prop where
  undefined : ∀ i ∈ rest, ∀ p ∈ i.defined, p.cell ≠ c
  unbound : ¬ m.Binds c
  unseen : env.isCapturedMutable c.declaration = false

section Lasting

variable {α : Type} {effect : Instr → Memory α → Memory α} {σ : Memory α} {m : Module}
  {env : Environment} {i : Instr} {rest rest' : List Instr} {c : Cell}

theorem Module.Lasting.mono (h : m.Lasting env rest c) (hrest : rest' ⊆ rest) :
    m.Lasting env rest' c :=
  ⟨fun i hi => h.undefined i (hrest hi), h.unbound, h.unseen⟩

theorem Module.Lasting.next (h : m.Lasting env (i :: rest) c) (heffect : m.Admits env effect) :
    i.next effect σ c = σ c := by
  have hnot := h.undefined i List.mem_cons_self
  rw [Instr.next]
  cases i.op.moved? with
  | none => exact heffect i σ c (hnot i.place List.mem_cons_self) h.unbound h.unseen
  | some p =>
    have hany : i.defined.any (·.cell == c) = false := by simpa using hnot
    simp only [Option.elim_some, hany, Bool.false_eq_true, if_false]

end Lasting

namespace Module

variable {m : Module} {env : Environment}

/-- No other instruction writes a cell with one site. -/
theorem not_mem_writes_of_sitesOf {id : CellId} {s : Site} (h : m.sitesOf id = [s]) {i : Instr}
    {others : List Instr} (hperm : m.instructions.Perm (i :: others)) (hi : id ∈ i.writes) :
    id ∉ others.flatMap (·.writes) := by
  have hdefined : m.defined.Perm (i.defined ++ others.flatMap (·.defined)) :=
    hperm.flatMap_right fun i : Instr => i.defined
  have hlength := m.length_sitesOf id
  rw [h, (hdefined.filter _).length_eq, List.filter_append, List.length_append,
    List.length_singleton] at hlength
  intro hother
  obtain ⟨j, hj, hid'⟩ := List.mem_flatMap.1 hother
  obtain ⟨q, hq, hqid⟩ := List.mem_map.1 hid'
  obtain ⟨p, hp, hpid⟩ := List.mem_map.1 hi
  have hfirst : 0 < (i.defined.filter (·.cell.id == id)).length :=
    List.length_pos_of_mem (List.mem_filter.2 ⟨hp, beq_iff_eq.2 hpid⟩)
  have hsecond : 0 < ((others.flatMap (·.defined)).filter (·.cell.id == id)).length :=
    List.length_pos_of_mem
      (List.mem_filter.2 ⟨List.mem_flatMap.2 ⟨j, hj, hq⟩, beq_iff_eq.2 hqid⟩)
  omega

/-- The instructions of a module around one of a block. -/
theorem exists_others {id : FuncId} {f : Function} {b : BlockId} {block : Block}
    (hf : m.functions.get? id = some f) (hb : f.blocks.get? b = some block)
    {before rest : List Instr} {i : Instr} (hsplit : block.instructions = before ++ i :: rest) :
    ∃ others, m.instructions.Perm (i :: others) ∧ rest ⊆ others := by
  have hperm := ((Function.instructions_perm hb).append_right (m.instructionsBeside id)).trans
    (List.Perm.of_eq (List.append_assoc ..))
  rw [hsplit] at hperm
  refine ⟨before ++ rest ++ (f.instructionsBeside b ++ m.instructionsBeside id),
    (m.instructions_perm hf).trans (hperm.trans (List.perm_middle.append_right _)), fun j hj => ?_⟩
  exact List.mem_append_left _ (List.mem_append_right _ hj)

end Module

/-! ## Temporaries of a block -/

/-- Temporaries and the results of loads have numbered versions; no load gives its result to a variable
that code elsewhere can change, and no pattern binds a temporary. -/
structure Module.PassesOn (m : Module) (env : Environment) : Prop where
  numbered : ∀ p ∈ m.places, env.isTemporary p.declaration = true → p.cell.version.isNumbered = true
  loads : ∀ i ∈ m.instructions, i.op.loaded?.isSome = true →
    i.place.cell.version.isNumbered = true ∧ env.isCapturedMutable i.place.declaration = false
  bindings : ∀ i ∈ m.instructions, i.op.isBinding = true → env.isTemporary i.place.declaration = false

/-- A block of a module in which numbered cells are defined once and temporaries are in order. -/
structure Block.StandsIn (block : Block) (m : Module) (env : Environment) : Prop where
  discerns : m.Discerns
  passesOn : m.PassesOn env
  once : (numberedCells m.defined).Nodup
  ordered : TemporariesFirst env block.instructions
  stands : ∃ id f b, m.functions.get? id = some f ∧ f.blocks.get? b = some block

namespace Block.StandsIn

variable {m : Module} {env : Environment} {block : Block} {i : Instr} {before rest : List Instr}
  {p : Place}

theorem mem_instructions (h : block.StandsIn m env) (hi : i ∈ block.instructions) :
    i ∈ m.instructions := by
  obtain ⟨id, f, b, hf, hb⟩ := h.stands
  exact Module.mem_instructions hf hb hi

theorem mem_places (h : block.StandsIn m env) (hi : i ∈ block.instructions) (hp : p ∈ i.places) :
    p ∈ m.places := m.places_of_instr (h.mem_instructions hi) hp

theorem available (h : block.StandsIn m env) (hsplit : block.instructions = before ++ i :: rest)
    (hp : p ∈ i.reads) : Available env (before.flatMap (·.writes)) p := by
  have hordered := h.ordered
  rw [hsplit] at hordered
  simpa using hordered before.length (by simp) p (by simpa using hp)

/-- A cell with one site that an instruction writes, and code elsewhere cannot change, is not written again
behind the instruction. -/
theorem lasting_of_sitesOf (h : block.StandsIn m env)
    (hsplit : block.instructions = before ++ i :: rest) (hp : p ∈ i.defined) {s : Site}
    (hs : m.sitesOf p.cell.id = [s]) (hop : i.op.isBinding = false)
    (hunseen : env.isCapturedMutable p.declaration = false) : m.Lasting env rest p.cell := by
  obtain ⟨id, f, b, hf, hb⟩ := h.stands
  obtain ⟨others, hperm, hrest⟩ := m.exists_others hf hb hsplit
  have hnot := m.not_mem_writes_of_sitesOf hs hperm (List.mem_map_of_mem hp)
  have hother (j : Instr) (hj : j ∈ others) (q : Place) (hq : q ∈ j.defined) : q.cell ≠ p.cell :=
    fun hcell => hnot (List.mem_flatMap.2 ⟨j, hj, List.mem_map.2 ⟨q, hq, congrArg Cell.id hcell⟩⟩)
  refine ⟨fun j hj => hother j (hrest hj), ?_, hunseen⟩
  -- the place of a binding would be a second site
  rintro ⟨j, hj, hbinding, hcell⟩
  rcases List.mem_cons.1 (hperm.mem_iff.1 hj) with rfl | hj
  · rw [hop] at hbinding
    cases hbinding
  · exact hother j hj j.place List.mem_cons_self hcell

/-- A cell with a numbered version has one site. -/
theorem exists_sitesOf (h : block.StandsIn m env) (hi : i ∈ block.instructions) (hp : p ∈ i.defined)
    (hnumbered : p.cell.version.isNumbered = true) : ∃ s, m.sitesOf p.cell.id = [s] := by
  have hdefined : p ∈ m.defined := List.mem_flatMap.2 ⟨i, h.mem_instructions hi, hp⟩
  refine Module.exists_sitesOf_of_single h.once hdefined hnumbered fun q hq hid => ?_
  obtain ⟨j, hj, hq⟩ := List.mem_flatMap.1 hq
  exact h.discerns q (m.places_of_instr hj (List.mem_append_right _ hq)) p
    (h.mem_places hi (List.mem_append_right _ hp)) hid

/-- A temporary is not written again behind its definition. -/
theorem lasting_of_defined (h : block.StandsIn m env)
    (hsplit : block.instructions = before ++ i :: rest) (hp : p ∈ i.defined)
    (htemporary : env.isTemporary p.declaration = true) : m.Lasting env rest p.cell := by
  have hi : i ∈ block.instructions := hsplit ▸ List.mem_append_right _ List.mem_cons_self
  have hnumbered := h.passesOn.numbered p (h.mem_places hi (List.mem_append_right _ hp)) htemporary
  obtain ⟨s, hs⟩ := h.exists_sitesOf hi hp hnumbered
  refine h.lasting_of_sitesOf hsplit hp hs ?_ (env.isCapturedMutable_of_temporary htemporary)
  rw [Bool.eq_false_iff]
  intro hbinding
  obtain rfl : p = i.place := by simpa [Instr.defined, Op.target?_of_isBinding hbinding] using hp
  rw [h.passesOn.bindings i (h.mem_instructions hi) hbinding] at htemporary
  cases htemporary

/-- The result of a load is not written again. -/
theorem lasting_of_load (h : block.StandsIn m env) (hsplit : block.instructions = before ++ i :: rest)
    (hop : i.op = .loadLocal p) : m.Lasting env rest i.place.cell := by
  have hi : i ∈ block.instructions := hsplit ▸ List.mem_append_right _ List.mem_cons_self
  obtain ⟨hnumbered, hunseen⟩ := h.passesOn.loads i (h.mem_instructions hi) (by rw [hop]; rfl)
  obtain ⟨s, hs⟩ := h.exists_sitesOf hi List.mem_cons_self hnumbered
  exact h.lasting_of_sitesOf hsplit List.mem_cons_self hs (by rw [hop]; rfl) hunseen

/-- A temporary is not written again once it has been read. -/
theorem lasting_of_read (h : block.StandsIn m env)
    (hsplit : block.instructions = before ++ i :: rest) (hp : p ∈ i.reads)
    (htemporary : env.isTemporary p.declaration = true) : m.Lasting env (i :: rest) p.cell := by
  obtain ⟨j, hj, hid⟩ := List.mem_flatMap.1 (h.available hsplit hp htemporary)
  obtain ⟨q, hq, hid⟩ := List.mem_map.1 hid
  obtain ⟨front, back, rfl⟩ := List.append_of_mem hj
  have hearlier : block.instructions = front ++ j :: (back ++ i :: rest) := by simp [hsplit]
  have hcell : q.cell = p.cell :=
    h.discerns q (h.mem_places (hearlier ▸ by simp) (List.mem_append_right _ hq))
      p (h.mem_places (hsplit ▸ by simp) (List.mem_append_left _ hp)) hid
  have hdecl : env.isTemporary q.declaration = true := by
    rw [Place.declaration, hcell]
    exact htemporary
  rw [← hcell]
  exact (h.lasting_of_defined hearlier hq hdecl).mono (List.subset_append_right _ _)

/-- A variable that can be skipped is not written again behind the store. -/
theorem lasting_of_canSkip (h : block.StandsIn m env)
    (hsplit : block.instructions = before ++ i :: rest) {target value value' : Place}
    {kind : StoreKind} (hop : i.op = .storeLocal target value kind)
    (hskip : canSkip m.definitions m.readCounts env target value' = true) :
    m.Lasting env rest target.cell := by
  simp only [canSkip, Bool.and_eq_true, Bool.not_eq_true'] at hskip
  obtain ⟨s, hs⟩ := m.exists_sitesOf_of_isWrittenOnce hskip.1.1.1
  exact h.lasting_of_sitesOf hsplit (by simp [Instr.defined, hop, Op.target?]) hs (by rw [hop]; rfl)
    hskip.1.2

end Block.StandsIn

/-! ## What is noted -/

/-- The cell with the given number holds what the cell of the value holds, and keeps doing so in the
rest of a block. -/
def Module.Aliases {α : Type} (m : Module) (env : Environment) (σ : Memory α) (rest : List Instr)
    (id : CellId) (value : Place) : Prop :=
  ∃ p ∈ m.places, p.cell.id = id ∧ σ p.cell = σ value.cell ∧
    m.Lasting env rest p.cell ∧ m.Lasting env rest value.cell

/-- All that is noted in the middle of a block is so. -/
structure Forwarding.Holds {α : Type} (s : Forwarding) (m : Module) (env : Environment)
    (σ : Memory α) (rest : List Instr) : Prop where
  stores : ∀ id value, s.stores.get? id = some value → m.Aliases env σ rest id value
  loads : ∀ id e, s.loads.get? id = some e → m.Aliases env σ rest id e.1

section Holds

variable {α : Type} {effect : Instr → Memory α → Memory α} {σ : Memory α} {m : Module}
  {env : Environment} {block : Block} {i : Instr} {before rest : List Instr} {s : Forwarding}
  {id : CellId} {p value : Place}

theorem Module.Aliases.next (h : m.Aliases env σ (i :: rest) id value)
    (heffect : m.Admits env effect) : m.Aliases env (i.next effect σ) rest id value := by
  obtain ⟨p, hplace, hid, hsame, hp, hvalue⟩ := h
  refine ⟨p, hplace, hid, ?_, hp.mono (List.subset_cons_self ..), hvalue.mono (List.subset_cons_self ..)⟩
  rw [hp.next heffect, hvalue.next heffect, hsame]

/-- The place of the number itself. -/
theorem Module.Aliases.eq (h : m.Aliases env σ rest p.cell.id value) (hm : m.Discerns)
    (hp : p ∈ m.places) : σ p.cell = σ value.cell := by
  obtain ⟨q, hq, hid, hsame, -⟩ := h
  rwa [← hm q hq p hp hid]

namespace Forwarding.Holds

theorem next (h : s.Holds m env σ (i :: rest)) (heffect : m.Admits env effect) :
    s.Holds m env (i.next effect σ) rest :=
  ⟨fun id value hget => (h.stores id value hget).next heffect,
    fun id e hget => (h.loads id e hget).next heffect⟩

theorem noteLoad (h : s.Holds m env σ (i :: rest)) (hblock : block.StandsIn m env)
    (hsplit : block.instructions = before ++ i :: rest) (hop : i.op = .loadLocal p)
    (heffect : m.Admits env effect) :
    (s.noteLoad i.place p).Holds m env (i.next effect σ) rest := by
  have hnext := h.next heffect
  rw [Forwarding.noteLoad]
  split
  · next value hvalue =>
    refine ⟨hnext.stores, fun id e hget => ?_⟩
    rw [Std.TreeMap.get?_eq_getElem?, Std.TreeMap.getElem?_insert] at hget
    split at hget
    · next hid =>
      obtain rfl : i.place.cell.id = id := Std.LawfulEqOrd.eq_of_compare hid
      cases hget
      have hi : i ∈ block.instructions := hsplit ▸ by simp
      have halias := h.stores _ _ hvalue
      have hsame := halias.eq hblock.discerns
        (hblock.mem_places hi (List.mem_append_left _ (by simp [Instr.reads, hop, Op.reads])))
      obtain ⟨-, -, -, -, -, hlasting⟩ := halias
      refine ⟨i.place, hblock.mem_places hi i.place_mem_places, rfl, ?_,
        hblock.lasting_of_load hsplit hop, hlasting.mono (List.subset_cons_self ..)⟩
      rw [Instr.next_of_moved (by rw [hop]; rfl) List.mem_cons_self, hlasting.next heffect, hsame]
    · exact hnext.loads id e hget
  · exact hnext

/-- What is stored instead of a value is the same value, and stays so if it is a temporary. -/
theorem source? (h : s.Holds m env σ (i :: rest)) (hblock : block.StandsIn m env)
    (hsplit : block.instructions = before ++ i :: rest) (hvalue : value ∈ i.reads) (target : Place) :
    σ ((s.source? target value).getD value).cell = σ value.cell ∧
      (env.isTemporary ((s.source? target value).getD value).declaration = true →
        m.Lasting env (i :: rest) ((s.source? target value).getD value).cell) := by
  have hread : env.isTemporary value.declaration = true → m.Lasting env (i :: rest) value.cell :=
    hblock.lasting_of_read hsplit hvalue
  rw [Forwarding.source?]
  split
  · next source d hget =>
    have hi : i ∈ block.instructions := hsplit ▸ by simp
    have halias := h.loads _ _ hget
    have hsame := halias.eq hblock.discerns (hblock.mem_places hi (List.mem_append_left _ hvalue))
    obtain ⟨-, -, -, -, -, hlasting⟩ := halias
    split
    · exact ⟨rfl, hread⟩
    · exact ⟨hsame.symm, fun _ => hlasting⟩
  · exact ⟨rfl, hread⟩

theorem noteStore (h : s.Holds m env σ (i :: rest)) (hblock : block.StandsIn m env)
    (hsplit : block.instructions = before ++ i :: rest) {target value' : Place} {kind : StoreKind}
    (hop : i.op = .storeLocal target value kind) (heffect : m.Admits env effect)
    (hsame : σ value'.cell = σ value.cell)
    (hlasting : env.isTemporary value'.declaration = true → m.Lasting env (i :: rest) value'.cell) :
    (s.noteStore (canSkip m.definitions m.readCounts env) target value').Holds m env
      (i.next effect σ) rest := by
  have hnext := h.next heffect
  rw [Forwarding.noteStore]
  split
  · next hskip =>
    refine ⟨fun id stored hget => ?_, hnext.loads⟩
    rw [Std.TreeMap.get?_eq_getElem?, Std.TreeMap.getElem?_insert] at hget
    split at hget
    · next hid =>
      obtain rfl : target.cell.id = id := Std.LawfulEqOrd.eq_of_compare hid
      cases hget
      have hi : i ∈ block.instructions := hsplit ▸ by simp
      have htarget : target ∈ i.defined := by simp [Instr.defined, hop, Op.target?]
      have htemporary : env.isTemporary value'.declaration = true := (Bool.and_eq_true_iff.1 hskip).2
      have hkeeps := hlasting htemporary
      refine ⟨target, hblock.mem_places hi (List.mem_append_right _ htarget), rfl, ?_,
        hblock.lasting_of_canSkip hsplit hop hskip, hkeeps.mono (List.subset_cons_self ..)⟩
      rw [Instr.next_of_moved (by rw [hop]; rfl) htarget, hkeeps.next heffect, hsame]
    · exact hnext.stores id stored hget
  · exact hnext

end Forwarding.Holds

/-- Whatever is noted, the rest of the block does what it did. -/
theorem Forwarding.Holds.run_forwardBlock (h : s.Holds m env σ rest) (hblock : block.StandsIn m env)
    (hsplit : block.instructions = before ++ rest) (heffect : m.Admits env effect) (n : Nat) :
    ((forwardBlock (canSkip m.definitions m.readCounts env) s rest).2.take n).foldl
        (fun σ i => i.next effect σ) σ =
      (rest.take n).foldl (fun σ i => i.next effect σ) σ := by
  induction rest generalizing before s σ n with
  | nil => rfl
  | cons i rest ih =>
    have hrest : block.instructions = (before ++ [i]) ++ rest := by simp [hsplit]
    cases n with
    | zero => rfl
    | succ n =>
      rw [forwardBlock]
      split
      · next p hop =>
        simp only [List.take_succ_cons, List.foldl_cons]
        exact ih (h.noteLoad hblock hsplit hop heffect) hrest n
      · next target value kind hop =>
        have hread : value ∈ i.reads := by simp [Instr.reads, hop, Op.reads]
        obtain ⟨hsame, hlasting⟩ := h.source? hblock hsplit hread target
        simp only [List.take_succ_cons, List.foldl_cons]
        rw [Instr.next_congr (i := i) (by rw [hop]; rfl) rfl (by simp [Instr.defined, hop, Op.target?])
          hsame]
        exact ih (h.noteStore hblock hsplit hop heffect hsame hlasting) hrest n
      · next target value hop =>
        have hread : value ∈ i.reads := by simp [Instr.reads, hop, Op.reads]
        obtain ⟨hsame, -⟩ := h.source? hblock hsplit hread target
        simp only [List.take_succ_cons, List.foldl_cons]
        rw [Instr.next_congr (i := i) (by rw [hop]; rfl) rfl (by simp [Instr.defined, hop, Op.target?])
          hsame]
        exact ih (h.next heffect) hrest n
      · simp only [List.take_succ_cons, List.foldl_cons]
        exact ih (h.next heffect) hrest n

end Holds

/-! ## A round -/

/-- An instruction, or the same store or copy of another value. -/
inductive Instr.Restores : Instr → Instr → Prop
  | same (i : Instr) : Restores i i
  | store {i : Instr} {target value : Place} {kind : StoreKind} (value' : Place) :
      i.op = .storeLocal target value kind →
        Restores i { i with op := .storeLocal target value' kind }
  | copy {i : Instr} {target value : Place} (value' : Place) : i.op = .copy target value →
      Restores i { i with op := .copy target value' }

theorem forall₂_forwardBlock (canSkip : Place → Place → Bool) (s : Forwarding) (is : List Instr) :
    List.Forall₂ Instr.Restores is (forwardBlock canSkip s is).2 := by
  induction is generalizing s with
  | nil => exact .nil
  | cons i is ih =>
    rw [forwardBlock]
    split
    · exact .cons (.same i) (ih _)
    · next hop => exact .cons (.store _ hop) (ih _)
    · next hop => exact .cons (.copy _ hop) (ih _)
    · exact .cons (.same i) (ih _)

variable {m : Module} {env : Environment}

/-- A round of forwarding changes nothing but values of stores and copies, and whatever a block is
started with and other instructions do, all cells hold the same after each instruction. -/
theorem Module.forwardStores_keeps_values (hdiscerns : m.Discerns)
    (honce : (numberedCells m.defined).Nodup)
    (hordered : ∀ f ∈ m.functions.values, ∀ b ∈ f.blocks.values, TemporariesFirst env b.instructions)
    (hpasses : m.PassesOn env) :
    m.Reworks (fun is is' => List.Forall₂ Instr.Restores is is' ∧
      ∀ {α : Type} (effect : Instr → Memory α → Memory α), m.Admits env effect →
        ∀ (start : Memory α) (n : Nat),
          (is'.take n).foldl (fun σ i => i.next effect σ) start =
            (is.take n).foldl (fun σ i => i.next effect σ) start) (m.forwardStores env).2 := by
  have hreworks : m.Reworks (fun is is' =>
      is' = (forwardBlock (canSkip m.definitions m.readCounts env) {} is).2) (m.forwardStores env).2 :=
    m.reworks_onBlocks fun _ => rfl
  refine hreworks.imp_mem fun id f b block hf hb is' his' => ?_
  subst his'
  refine ⟨forall₂_forwardBlock _ _ _, fun effect heffect start n => ?_⟩
  have hblock : block.StandsIn m env :=
    ⟨hdiscerns, hpasses, honce,
      hordered f (Table.mem_values.2 ⟨id, hf⟩) block (Table.mem_values.2 ⟨b, hb⟩), id, f, b, hf, hb⟩
  exact Forwarding.Holds.run_forwardBlock ⟨by simp, by simp⟩ hblock (List.nil_append _).symm heffect n

/-- Modules that operations lead to pass values on through temporaries only. -/
theorem Module.Reached.passesOn (h : m.Reached env) : m.PassesOn env := by
  constructor
  case numbered => exact fun p hp => h.coherent.isNumbered hp
  case loads =>
    intro i hi hop
    have hunnamed : i.op.isUnnamed = true := by
      obtain ⟨p, hp⟩ := Option.isSome_iff_exists.1 hop
      rw [Op.loaded?_eq_some.1 hp]
      rfl
    have htemporary := h.inOrder.isTemporary_place hi hunnamed
    exact ⟨h.coherent.isNumbered (m.places_of_instr hi i.place_mem_places) htemporary,
      Environment.isCapturedMutable_of_temporary htemporary⟩
  case bindings => exact fun i hi hop => h.inOrder.named_binding hi hop

/-- Giving its own place a value is all that an instruction may do anyway. -/
theorem Module.admits_insert {α : Type} (m : Module) (env : Environment)
    (eval : Instr → Memory α → Option α) :
    m.Admits env fun i σ c => if i.place.cell = c then eval i σ else σ c :=
  fun _ _ _ hne _ _ => if_neg hne

/-- `let t = g(); let r = t; log(r);` -/
def relaying : Syntax.Module :=
  let name (text : String) : Syntax.Expr := .name .synthetic (.synthetic text)
  let declare (text : String) (value : Syntax.Expr) : Syntax.Stmt :=
    .declaration .synthetic .letKind
      [.mk .synthetic (.name .synthetic (.synthetic text)) (some value)]
  ⟨⟨0, 0⟩,
    [declare "t" (.call .synthetic (name "g") []), declare "r" (name "t"),
      .expression .synthetic (.call .synthetic (name "log") [.one (name "r")])]⟩

/-- What `g` returns is stored in `r` without a detour, and `r` holds the same whatever `g` returns. -/
theorem Module.forwardStores_keeps_values_relaying :
    ∃ (m : Module) (env : Environment), joined? relaying = some (m, env) ∧
      (m.forwardStores env).1 = true ∧
      m.Reworks (fun is is' => List.Forall₂ Instr.Restores is is' ∧
        ∀ (eval : Instr → Memory Nat → Option Nat) (start : Memory Nat) (n : Nat),
          (is'.take n).foldl (fun σ i => i.next
            (fun i σ c => if i.place.cell = c then eval i σ else σ c) σ) start =
          (is.take n).foldl (fun σ i => i.next
            (fun i σ c => if i.place.cell = c then eval i σ else σ c) σ) start)
        (m.forwardStores env).2 := by
  obtain ⟨⟨m, env⟩, hjoined, hchanged⟩ :
      ∃ t ∈ joined? relaying, (t.1.forwardStores t.2).1 = true := by
    decide +kernel
  have hreached : m.Reached env := (arises_of_joined? hjoined).reached
  have hordered : ∀ f ∈ m.functions.values, ∀ b ∈ f.blocks.values,
      TemporariesFirst env b.instructions := fun f hf => (hreached.inOrder.temporariesFirst hf).2
  have hround := forwardStores_keeps_values hreached.discerns hreached.numberedOnce.nodup hordered
    hreached.passesOn
  refine ⟨m, env, hjoined, hchanged, hround.imp_mem ?_⟩
  intro id f b block _ _ is ⟨hsame, hvalues⟩
  exact ⟨hsame, fun eval start n => hvalues _ (m.admits_insert env eval) start n⟩

/-! ## What happens otherwise -/

instance (m : Module) (c : Cell) : Decidable (m.Binds c) :=
  inferInstanceAs (Decidable (∃ i ∈ m.instructions, i.op.isBinding = true ∧ i.place.cell = c))

/-- A round of forwarding makes a cell hold something else behind some instruction of a block. -/
def Module.Misstores (m : Module) (env : Environment) : Prop :=
  ∃ (id : FuncId) (f f' : Function) (b : BlockId) (block block' : Block)
    (effect : Instr → Memory Nat → Memory Nat) (start : Memory Nat) (n : Nat) (c : Cell),
    m.functions.get? id = some f ∧ f.blocks.get? b = some block ∧
      (m.forwardStores env).2.functions.get? id = some f' ∧ f'.blocks.get? b = some block' ∧
      m.Admits env effect ∧
      (block'.instructions.take n).foldl (fun σ i => i.next effect σ) start c ≠
        (block.instructions.take n).foldl (fun σ i => i.next effect σ) start c

/-- Calls write all that instructions may write. -/
def Module.answer (m : Module) (env : Environment) (i : Instr) (σ : Memory Nat) : Memory Nat :=
  fun c => if (i.op matches .call ..) ∧
    (i.place.cell = c ∨ m.Binds c ∨ env.isCapturedMutable c.declaration = true) then some 1 else σ c

theorem Module.admits_answer (m : Module) (env : Environment) : m.Admits env (m.answer env) :=
  fun _ _ _ hplace hbinds hseen => if_neg (by simp [hplace, hbinds, hseen])

theorem Module.misstores_of_answer {m : Module} {env : Environment} (n : Nat) (c : Cell)
    (h : ∃ f ∈ m.functions.get? ⟨0⟩, ∃ f' ∈ (m.forwardStores env).2.functions.get? ⟨0⟩,
      ∃ block ∈ f.blocks.get? ⟨0⟩, ∃ block' ∈ f'.blocks.get? ⟨0⟩,
        (block'.instructions.take n).foldl (fun σ i => i.next (m.answer env) σ) (fun _ => none) c ≠
          (block.instructions.take n).foldl (fun σ i => i.next (m.answer env) σ) (fun _ => none) c) :
    m.Misstores env := by
  obtain ⟨f, hf, f', hf', block, hb, block', hb', hne⟩ := h
  exact ⟨⟨0⟩, f, f', ⟨0⟩, block, block', _, _, n, c, hf, hb, hf', hb', m.admits_answer env, hne⟩

/-- A value is stored and loaded, and what was loaded is stored behind a call. -/
def detour (value : Place × Op) (loaded called : Place) : List (List (Place × Op) × Terminal) :=
  let only (n : Nat) := Place.only n (.numbered 0)
  [([value, (only 3, .storeLocal (only 0) value.1 .letKind), (loaded, .loadLocal (only 0)),
    (only 4, .loadGlobal "f"), (called, .call (only 4) []),
    (only 5, .storeLocal (only 1) loaded .letKind)], .ret none)]

/-- The declarations of a detour, given those of the stored value and of what is loaded. -/
def detourEnv (value loaded : DeclKind) (captured : List DeclId) : Environment :=
  .ofKinds [.letKind, .letKind, value, .temporary, .temporary, .temporary, loaded, .temporary] captured

/-- Detours that change a value: through a variable that the call may change, from a temporary that a pattern
binds, so that the call may write it, and with the call defining once more what was loaded or stored, in a
cell without a numbered version. -/
def detours : List (Module × Environment) :=
  let first (n : Nat) := Place.only n (.numbered 0)
  let joined (n : Nat) := Place.only n (.phi ⟨0⟩)
  [(.ofCode (detour (first 2, .literal .null) (first 6) (first 7)), detourEnv .temporary .letKind [⟨6⟩]),
    (.ofCode (detour (first 2, .binding "x") (first 6) (first 7)), detourEnv .temporary .temporary []),
    (.ofCode (detour (first 2, .literal .null) (joined 6) (joined 6)), detourEnv .temporary .letKind []),
    (.ofCode (detour (joined 2, .literal .null) (first 6) (joined 2)), detourEnv .temporary .temporary [])]

/-- Values are not kept otherwise: forwarding makes the last variable of each detour hold something else. -/
theorem Module.forwardStores_misstores : detours.Forall fun t =>
    t.1.Discerns ∧ (numberedCells t.1.defined).Nodup ∧
      (∀ f ∈ t.1.functions.values, ∀ b ∈ f.blocks.values, TemporariesFirst t.2 b.instructions) ∧
      t.1.Misstores t.2 := by
  have hconditions : ∀ t ∈ detours, t.1.Discerns ∧ (numberedCells t.1.defined).Nodup ∧
      ∀ f ∈ t.1.functions.values, ∀ b ∈ f.blocks.values, TemporariesFirst t.2 b.instructions := by
    decide +kernel
  have hdiffers : ∀ t ∈ detours, ∃ f ∈ t.1.functions.get? ⟨0⟩,
      ∃ f' ∈ (t.1.forwardStores t.2).2.functions.get? ⟨0⟩,
      ∃ block ∈ f.blocks.get? ⟨0⟩, ∃ block' ∈ f'.blocks.get? ⟨0⟩,
        (block'.instructions.take 6).foldl (fun σ i => i.next (t.1.answer t.2) σ) (fun _ => none)
            (Place.only 1 (.numbered 0)).cell ≠
          (block.instructions.take 6).foldl (fun σ i => i.next (t.1.answer t.2) σ) (fun _ => none)
            (Place.only 1 (.numbered 0)).cell := by
    decide +kernel
  refine List.forall_iff_forall_mem.2 fun t ht => ?_
  obtain ⟨hdiscerns, honce, hordered⟩ := hconditions t ht
  exact ⟨hdiscerns, honce, hordered, misstores_of_answer 6 _ (hdiffers t ht)⟩

end Whittle.Ir
