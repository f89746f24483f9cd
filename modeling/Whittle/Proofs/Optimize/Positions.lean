import Mathlib.Data.List.Nodup
import Whittle.Proofs.Optimize.Patterns
import Whittle.Proofs.Optimize.Propagation

/-!
# What destructuring makes known

Where an array literal is taken apart, constant propagation learns the variables of the pattern from the
elements of the literal, index by index.  When the code runs, an index counts what the elements have put
into the array, and a spread puts in any number of data.  The two agree up to the first spread, and no
further.

Every known value has one reason in what else is known: the cell has one writer, and the operation of that
writer says where the value comes from; a target is at one position, because no pattern is taken twice.  So
nothing that is added later can take the reason away.

Main statement: `Module.known_by_position`.
-/

namespace Whittle.Ir

/-- Whether an operation is a spread. -/
def Op.isSpread : Op → Bool
  | .spread _ => true
  | _ => false

/-- What a pattern takes at an index from an array, given what the elements of the literal have put into
it. -/
def taken (contributions : List (List Datum)) (index : Nat) : Datum :=
  contributions.flatten[index]?.getD (.plain .undefined)

theorem taken_eq {contributions : List (List Datum)} {n : Nat} {d : Datum}
    (hbefore : ∀ data ∈ contributions.take n, data.length = 1) (hn : contributions[n]? = some [d]) :
    taken contributions n = d := by
  induction n generalizing contributions with
  | zero =>
    cases contributions with
    | nil => cases hn
    | cons data contributions =>
      obtain rfl := Option.some.inj hn
      rfl
  | succ n ih =>
    cases contributions with
    | nil => cases hn
    | cons data contributions =>
      rw [List.take_succ_cons, List.forall_mem_cons] at hbefore
      obtain ⟨first, rfl⟩ := List.length_eq_one_iff.1 hbefore.1
      exact ih hbefore.2 hn

namespace Module

variable {m : Module} {env : Environment}

/-- An element of an array literal is a spread. -/
def IsSpread (m : Module) (element : Place) : Prop :=
  ∃ i ∈ m.instructions, i.place.cell.id = element.cell.id ∧ i.op.isSpread = true

instance (m : Module) (element : Place) : Decidable (m.IsSpread element) :=
  inferInstanceAs (Decidable (∃ i ∈ m.instructions, i.place.cell.id = element.cell.id ∧ i.op.isSpread = true))

/-- An element of an array literal can put the data into the array: any data if it is a spread, else one
datum, and the known one where one is known. -/
def Contributes (m : Module) (env : Environment) (element : Place) (data : List Datum) : Prop :=
  m.IsSpread element ∨
    ∃ d, data = [d] ∧ ∀ v, (m.facts env).known.get? element.cell.id = some v → d = .plain v

theorem exists_contributes (m : Module) (env : Environment) (elements : List Place) :
    ∃ contributions, List.Forall₂ (m.Contributes env) elements contributions := by
  induction elements with
  | nil => exact ⟨[], .nil⟩
  | cons element elements ih =>
    obtain ⟨contributions, h⟩ := ih
    cases hknown : (m.facts env).known.get? element.cell.id with
    | none =>
      refine ⟨[.object 0] :: contributions, .cons (.inr ⟨_, rfl, fun v hv => ?_⟩) h⟩
      cases hknown.symm.trans hv
    | some w =>
      refine ⟨[.plain w] :: contributions, .cons (.inr ⟨_, rfl, fun v hv => ?_⟩) h⟩
      rw [Option.some.inj (hknown.symm.trans hv)]

/-! ## Targets are apart -/

/-- In lists that share nothing, an element tells which one it is from. -/
theorem index_unique {α β : Type} {xs : List α} {g : α → List β} (h : (xs.flatMap g).Nodup) {n k : Nat}
    {x y : α} (hx : xs[n]? = some x) (hy : xs[k]? = some y) {c : β} (hc : c ∈ g x) (hc' : c ∈ g y) :
    n = k := by
  have hdisjoint {n k : Nat} {x y : α} (hx : xs[n]? = some x) (hy : xs[k]? = some y) (hlt : n < k) :
      List.Disjoint (g x) (g y) := by
    obtain ⟨hn, rfl⟩ := List.getElem?_eq_some_iff.1 hx
    obtain ⟨hk, rfl⟩ := List.getElem?_eq_some_iff.1 hy
    exact List.pairwise_iff_getElem.1 (List.nodup_flatMap.1 h).2 n k hn hk hlt
  rcases Nat.lt_trichotomy n k with hlt | heq | hlt
  · exact (hdisjoint hx hy hlt hc hc').elim
  · exact heq
  · exact (hdisjoint hy hx hlt hc' hc).elim

theorem eq_of_mem_flatMap {α β : Type} {xs : List α} {g : α → List β} (h : (xs.flatMap g).Nodup) {x y : α}
    (hx : x ∈ xs) (hy : y ∈ xs) {c : β} (hc : c ∈ g x) (hc' : c ∈ g y) : x = y := by
  obtain ⟨n, hn⟩ := List.mem_iff_getElem?.1 hx
  obtain ⟨k, hk⟩ := List.mem_iff_getElem?.1 hy
  obtain rfl := index_unique h hn hk hc hc'
  exact Option.some.inj (hn.symm.trans hk)

theorem numberedCells_flatMap {α : Type} (xs : List α) (g : α → List Place) :
    numberedCells (xs.flatMap g) = xs.flatMap fun x => numberedCells (g x) := by
  rw [numberedCells, List.filter_flatMap, List.map_flatMap]
  rfl

theorem mem_numberedCells {ps : List Place} {p : Place} (hp : p ∈ ps)
    (hnumbered : p.cell.version.isNumbered = true) : p.cell.id ∈ numberedCells ps :=
  List.mem_map_of_mem (List.mem_filter.2 ⟨hp, hnumbered⟩)

theorem pairing?_eq_some {f : Function} {i : Instr} {targets : List (Option Place)} {sources : List Place}
    (h : f.pairing? i = some (targets, sources)) : ∃ pattern ∈ i.op.takes, ∃ e ∈ f.instructions,
      e.place.cell.id = pattern.cell.id ∧ e.op = .arrayPattern targets := by
  rw [Function.pairing?] at h
  split at h
  · next pattern value kind hop =>
    split at h
    · next hpattern _ =>
      cases h
      exact ⟨pattern, by simp [hop, Op.takes], Function.exists_of_get?_ops hpattern⟩
    · cases h
  · cases h

theorem mem_takes {i : Instr} {targets : List (Option Place)} (hop : i.op = .arrayPattern targets) {n : Nat}
    {p : Place} (hn : targets[n]? = some (some p)) : p ∈ i.op.takes :=
  hop ▸ List.mem_flatMap.2 ⟨_, List.mem_of_getElem? hn, Option.mem_toList.2 rfl⟩

/-- A result is taken by one instruction. -/
theorem Reached.taker_unique (h : m.Reached env) {i j k : Instr} (hi : i ∈ m.instructions)
    (hj : j ∈ m.instructions) (hk : k ∈ m.instructions) {p q : Place} (hp : p ∈ j.op.takes)
    (hq : q ∈ k.op.takes) (hpi : p.cell.id = i.place.cell.id) (hqi : q.cell.id = i.place.cell.id) :
    j = k := by
  have hnodup := h.taken_nodup
  rw [takenBy, numberedCells_flatMap] at hnodup
  refine eq_of_mem_flatMap hnodup hj hk (mem_numberedCells hp (h.isNumbered_taken hi hj hp hpi)) ?_
  rw [hpi, ← hqi]
  exact mem_numberedCells hq (h.isNumbered_taken hi hk hq hqi)

/-- An array pattern takes a result at one index. -/
theorem Reached.taken_index_unique (h : m.Reached env) {i j : Instr} (hi : i ∈ m.instructions)
    (hj : j ∈ m.instructions) {targets : List (Option Place)} (hop : j.op = .arrayPattern targets)
    {n k : Nat} {p q : Place} (hn : targets[n]? = some (some p)) (hk : targets[k]? = some (some q))
    (hpi : p.cell.id = i.place.cell.id) (hqi : q.cell.id = i.place.cell.id) : n = k := by
  have hnodup := h.taken_nodup
  rw [takenBy, numberedCells_flatMap] at hnodup
  have htargets := (List.nodup_flatMap.1 hnodup).1 j hj
  rw [hop, Op.takes, numberedCells_flatMap] at htargets
  refine index_unique htargets hn hk
    (mem_numberedCells (Option.mem_toList.2 rfl) (h.isNumbered_taken hi hj (mem_takes hop hn) hpi)) ?_
  rw [hpi, ← hqi]
  exact mem_numberedCells (Option.mem_toList.2 rfl) (h.isNumbered_taken hi hj (mem_takes hop hk) hqi)

/-- Positions whose target is the same result are one. -/
theorem Reached.position_unique (h : m.Reached env) {i : Instr} (hi : i ∈ m.instructions) {p q : Position}
    (hp : p ∈ m.positions) (hq : q ∈ m.positions) (hpi : p.target.cell.id = i.place.cell.id)
    (hqi : q.target.cell.id = i.place.cell.id) : p = q := by
  have hmem {f : Function} (hf : f ∈ m.functions.values) {i : Instr} (hi : i ∈ f.instructions) :
      i ∈ m.instructions := List.mem_flatMap.2 ⟨f, hf, hi⟩
  obtain ⟨f, hf, d, hd, targets, hpairing, htarget⟩ := mem_positions.1 hp
  obtain ⟨f', hf', d', hd', targets', hpairing', htarget'⟩ := mem_positions.1 hq
  obtain ⟨pattern, hpattern, e, he, hplace, hop⟩ := pairing?_eq_some hpairing
  obtain ⟨pattern', hpattern', e', he', hplace', hop'⟩ := pairing?_eq_some hpairing'
  -- one array pattern takes the target, at one index
  obtain rfl := h.taker_unique hi (hmem hf he) (hmem hf' he') (mem_takes hop htarget)
    (mem_takes hop' htarget') hpi hqi
  obtain rfl := Op.arrayPattern.inj (hop.symm.trans hop')
  have hindex := h.taken_index_unique hi (hmem hf he) hop htarget htarget' hpi hqi
  rw [hindex] at htarget
  have hplaces : p.target = q.target := Option.some.inj (Option.some.inj (htarget.symm.trans htarget'))
  -- one instruction takes the array pattern, and it is in one function
  obtain rfl := h.taker_unique (hmem hf he) (hmem hf hd) (hmem hf' hd') hpattern hpattern' hplace.symm
    hplace'.symm
  have hresults := h.results_nodup
  rw [instructions, List.map_flatMap] at hresults
  obtain rfl := eq_of_mem_flatMap hresults hf hf' (List.mem_map_of_mem hd) (List.mem_map_of_mem hd')
  obtain ⟨-, hsources⟩ := Prod.mk.inj (Option.some.inj (hpairing.symm.trans hpairing'))
  cases p
  cases q
  cases hsources
  cases hindex
  cases hplaces
  rfl

/-! ## Reasons -/

/-- The instruction, which writes the cell, makes its value known from what is known. -/
def Teaches (m : Module) (known : Known) (i : Instr) (id : CellId) (v : Value) : Prop :=
  match i.op with
  | .literal w => w = v
  | .storeLocal _ value _ => known.get? value.cell.id = some v
  | .binding _ => ∃ p ∈ m.positions, p.target.cell.id = id ∧ ∃ source, p.sources[p.index]? = some source ∧
      known.get? source.cell.id = some v
  | _ => False

variable {known known' : Known} {i : Instr} {id : CellId} {v w : Value}

/-- An instruction makes one value known. -/
theorem Reached.teaches_unique (h : m.Reached env) (hi : i ∈ m.instructions) (hid : id ∈ i.writes)
    (hv : m.Teaches known i id v) (hw : m.Teaches known i id w) : v = w := by
  rw [Teaches] at hv hw
  cases hop : i.op <;> rw [hop] at hv hw
  case literal => exact hv.symm.trans hw
  case storeLocal => exact Option.some.inj (hv.symm.trans hw)
  case binding =>
    obtain ⟨p, hp, htarget, source, hsource, hv⟩ := hv
    obtain ⟨q, hq, htarget', source', hsource', hw⟩ := hw
    obtain rfl : id = i.place.cell.id := by simpa [Instr.writes, Instr.defined, hop, Op.target?] using hid
    obtain rfl := h.position_unique hi hp hq htarget htarget'
    obtain rfl := Option.some.inj (hsource.symm.trans hsource')
    exact Option.some.inj (hv.symm.trans hw)
  all_goals exact hv.elim

theorem Teaches.mono (h : m.Teaches known i id v)
    (hknown : ∀ id v, known.get? id = some v → known'.get? id = some v) : m.Teaches known' i id v := by
  rw [Teaches] at h ⊢
  split at h
  · exact h
  · exact hknown _ _ h
  · obtain ⟨p, hp, hid, source, hsource, hv⟩ := h
    exact ⟨p, hp, hid, source, hsource, hknown _ _ hv⟩
  · exact h

/-- The one instruction that writes the cell makes its value known. -/
def Explains (m : Module) (known : Known) (id : CellId) (v : Value) : Prop :=
  ∃ i ∈ m.instructions, id ∈ i.writes ∧ (∃ s, m.sitesOf id = [s]) ∧ m.Teaches known i id v

theorem Reached.teaches (h : m.Reached env) (hexplains : m.Explains known id v) (hi : i ∈ m.instructions)
    (hid : id ∈ i.writes) : m.Teaches known i id v := by
  have hids (id : FuncId) (f : Function) : m.functions.get? id = some f → f.id = id := h.ids
  obtain ⟨j, hj, hid', ⟨s, hs⟩, hteaches⟩ := hexplains
  rw [← map_sited] at hi hj
  obtain ⟨⟨_, i⟩, hsited, rfl⟩ := List.mem_map.1 hi
  obtain ⟨⟨_, j⟩, hsited', rfl⟩ := List.mem_map.1 hj
  obtain ⟨-, rfl⟩ := eq_of_sitesOf hids hs hsited hsited' hid hid'
  exact hteaches

/-- Learning a value takes no reason away: where the cell was known, it was known by that value. -/
theorem Reached.explains_insert (h : m.Reached env)
    (hknown : ∀ id v, known.get? id = some v → m.Explains known id v) (hnew : m.Explains known id v) :
    ∀ id' v', (known.insert id v).get? id' = some v' → m.Explains (known.insert id v) id' v' := by
  have hkeeps (id' : CellId) (v' : Value) (hget : known.get? id' = some v') :
      (known.insert id v).get? id' = some v' := by
    rw [CellMap.get?_insert]
    split
    · next heq =>
      subst heq
      obtain ⟨i, hi, hid, -, hteaches⟩ := hnew
      exact congrArg some (h.teaches_unique hi hid hteaches (h.teaches (hknown _ _ hget) hi hid))
    · exact hget
  have hmono {id' : CellId} {v' : Value} (h : m.Explains known id' v') :
      m.Explains (known.insert id v) id' v' := by
    obtain ⟨i, hi, hid, hsite, hteaches⟩ := h
    exact ⟨i, hi, hid, hsite, hteaches.mono hkeeps⟩
  intro id' v' hget
  rw [CellMap.get?_insert] at hget
  split at hget
  · next heq =>
    subst heq
    obtain rfl := Option.some.inj hget
    exact hmono hnew
  · exact hmono (hknown _ _ hget)

/-- A result is written at one site. -/
theorem Reached.exists_site (h : m.Reached env) (hi : i ∈ m.instructions) :
    ∃ s, m.sitesOf i.place.cell.id = [s] :=
  exists_sitesOf h.coherent h.numberedOnce.nodup (List.mem_flatMap.2 ⟨i, hi, List.mem_cons_self⟩)
    (h.isNumbered hi)

/-- Every known value is explained by what is known. -/
theorem Reached.explains (h : m.Reached env) (id : CellId) (v : Value)
    (hknown : (m.facts env).known.get? id = some v) : m.Explains (m.facts env).known id v := by
  have hplace (i : Instr) : i.place.cell.id ∈ i.writes := List.mem_map_of_mem List.mem_cons_self
  refine facts_induction (P := fun known => ∀ id v, known.get? id = some v → m.Explains known id v)
    ?_ ?_ ?_ id v hknown
  · intro id v hget
    obtain ⟨i, hi, hop, rfl⟩ := exists_of_get?_literals hget
    exact ⟨i, hi, hplace i, h.exists_site hi, by rw [Teaches, hop]⟩
  · intro known i target value kind v c hi hop hv hc hknown
    refine h.explains_insert hknown ⟨i, hi, ?_, ?_, by rwa [Teaches, hop]⟩
    · obtain rfl | ⟨rfl, -⟩ := hc
      · exact hplace i
      · exact List.mem_map_of_mem (by simp [Instr.defined, hop, Op.target?])
    · obtain rfl | ⟨rfl, htrackable⟩ := hc
      · exact h.exists_site hi
      · rw [isTrackable, Bool.and_eq_true] at htrackable
        exact m.exists_sitesOf_of_isWrittenOnce htrackable.1
  · intro known p source j v hp hsource hj hid hop _ hv hknown
    refine h.explains_insert hknown ⟨j, hj, hid ▸ hplace j, hid ▸ h.exists_site hj, ?_⟩
    cases hj : j.op <;> rw [hj] at hop <;> try cases hop
    rw [Teaches, hj]
    exact ⟨p, hp, rfl, source, hsource, hv⟩

/-- Destructuring binds a known variable to the known value, whatever the elements of the array literal put
into the array, if none of those in front is a spread. -/
theorem known_by_position (h : m.Reached env) {p : Position} (hp : p ∈ m.positions)
    (hi : i ∈ m.instructions) (hplace : i.place.cell.id = p.target.cell.id) (hop : i.op.isBinding = true)
    (hknown : (m.facts env).known.get? p.target.cell.id = some v)
    (hspread : ∀ element ∈ p.sources.take p.index, ¬ m.IsSpread element)
    {contributions : List (List Datum)}
    (hcontributions : List.Forall₂ (m.Contributes env) p.sources contributions) :
    taken contributions p.index = .plain v := by
  have hwriter {i : Instr} {id : CellId} (hid : i.place.cell.id = id) : id ∈ i.writes :=
    hid ▸ List.mem_map_of_mem List.mem_cons_self
  obtain ⟨source, hsource, hknown⟩ : ∃ source, p.sources[p.index]? = some source ∧
      (m.facts env).known.get? source.cell.id = some v := by
    have hteaches := h.teaches (h.explains _ _ hknown) hi (hwriter hplace)
    cases hname : i.op <;> rw [hname] at hop <;> try cases hop
    rw [Teaches, hname] at hteaches
    obtain ⟨q, hq, hid, hteaches⟩ := hteaches
    rwa [h.position_unique hi hq hp (hid.trans hplace.symm) hplace.symm] at hteaches
  -- nothing teaches what a spread computes
  have hsingle : ¬ m.IsSpread source := by
    rintro ⟨j, hj, hid, hop⟩
    have hteaches := h.teaches (h.explains _ _ hknown) hj (hwriter hid)
    cases hname : j.op <;> rw [hname] at hop <;> try cases hop
    rw [Teaches, hname] at hteaches
    exact hteaches
  obtain ⟨hlength, hall⟩ := List.forall₂_iff_get.1 hcontributions
  obtain ⟨hindex, rfl⟩ := List.getElem?_eq_some_iff.1 hsource
  obtain ⟨d, hdata, hd⟩ := (hall p.index hindex (hlength ▸ hindex)).resolve_left hsingle
  rw [← hd v hknown]
  refine taken_eq (fun data hmem => ?_) (List.getElem?_eq_some_iff.2 ⟨hlength ▸ hindex, hdata⟩)
  obtain ⟨htake, hbefore⟩ := List.forall₂_iff_get.1 (List.forall₂_take p.index hcontributions)
  obtain ⟨n, hn, rfl⟩ := List.getElem_of_mem hmem
  obtain ⟨_, hdata, -⟩ := (hbefore n (htake ▸ hn) hn).resolve_left (hspread _ (List.getElem_mem _))
  exact congrArg List.length hdata

end Module

/-- `const [a, b, c] = [f(), 1, ...xs]; log(b);` -/
def takingApart : Syntax.Module :=
  let ident (text : String) : Syntax.Ident := .synthetic text
  let name (text : String) : Syntax.Expr := .name .synthetic (ident text)
  let target (text : String) : Option Syntax.Pattern := some (.name .synthetic (ident text))
  ⟨⟨0, 0⟩,
    [.declaration .synthetic .constKind
      [.mk .synthetic (.array .synthetic [target "a", target "b", target "c"])
        (some (.array .synthetic [.one (.call .synthetic (name "f") []),
          .one (.literal .synthetic (.number Number.one)), .spread (name "xs")]))],
     .expression .synthetic (.call .synthetic (name "log") [.one (name "b")])]⟩

/-- Whatever `f` returns and `xs` holds, `b` is one. -/
theorem Module.known_by_position_takingApart :
    ∃ (m : Module) (env : Environment) (p : Position) (i : Instr), joined? takingApart = some (m, env) ∧
      m.Reached env ∧ p ∈ m.positions ∧ i ∈ m.instructions ∧
      i.place.cell.id = p.target.cell.id ∧ i.op.isBinding = true ∧
      (m.facts env).known.get? p.target.cell.id = some (.number Number.one) ∧
      (∀ element ∈ p.sources.take p.index, ¬ m.IsSpread element) ∧
      (∃ element ∈ p.sources, m.IsSpread element) ∧
      (∃ contributions, List.Forall₂ (m.Contributes env) p.sources contributions) ∧
      ∀ contributions, List.Forall₂ (m.Contributes env) p.sources contributions →
        taken contributions p.index = .plain (.number Number.one) := by
  have hcomputes : ∃ t ∈ joined? takingApart, ∃ p ∈ t.1.positions,
      ∃ i ∈ t.1.instructions, i.place.cell.id = p.target.cell.id ∧ i.op.isBinding = true ∧
        (t.1.facts t.2).known.get? p.target.cell.id = some (.number Number.one) ∧
        (∀ element ∈ p.sources.take p.index, ¬ t.1.IsSpread element) ∧
        ∃ element ∈ p.sources, t.1.IsSpread element := by
    decide +kernel
  obtain ⟨⟨m, env⟩, hjoined, p, hp, i, hi, hplace, hop, hknown, hspread, hlater⟩ := hcomputes
  have hreached : m.Reached env := (arises_of_joined? hjoined).reached
  exact ⟨m, env, p, i, hjoined, hreached, hp, hi, hplace, hop, hknown, hspread, hlater,
    m.exists_contributes env p.sources, fun _ hcontributions =>
      m.known_by_position hreached hp hi hplace hop hknown hspread hcontributions⟩

end Whittle.Ir
