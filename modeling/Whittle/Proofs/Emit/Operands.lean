import Mathlib.Tactic.Common
import Whittle.Proofs.Emit.Trail

/-!
# Operands in order

An instruction takes its operands one after the other and puts what they do into what it defines.  So it
continues the trail, if the operands that wait with effects are the end of the trail (`Feeds`).
-/

namespace Whittle.Emit

open Ir Syntax Ledger

namespace Watch

variable {ctx : Context} {W : Watch ctx} {st st' st'' : State} {c : CellId} {p : Pending}

/-! ## Taking values -/

theorem Sound.nodup_load (h : W.Sound st) : (W.load st).cells.Nodup := by
  have hsub : (W.load st).cells.Sublist (st.values.reverse.map (·.1)) := by
    rw [load, Load.cells]
    refine (List.filter_sublist.map _).trans ?_
    rw [List.map_map]
    exact List.Sublist.refl _
  refine hsub.nodup ?_
  rw [List.map_reverse, List.nodup_reverse]
  exact h.nodup

/-- No effects wait for a cell if no value with effects does. -/
theorem notMem_load (h : ∀ p, (c, p) ∈ st.values → W.trace p.expr = []) : c ∉ (W.load st).cells := by
  intro hmem
  obtain ⟨e, he, rfl⟩ := List.mem_map.1 hmem
  obtain ⟨hne, p, hp, htrace⟩ := mem_load.1 he
  exact hne (htrace ▸ h p hp)

/-- From one state to another the given cells were read, and nothing else happened. -/
structure Took (W : Watch ctx) (cells : List CellId) (st st' : State) : Prop where
  sound : W.Sound st'
  emitted : st'.emitted = st.emitted
  written : W.written? st' = W.written? st
  load : W.load st' = (W.load st).without cells

theorem Took.refl (h : W.Sound st) : W.Took [] st st := ⟨h, rfl, rfl, (Load.without_nil _).symm⟩

/-- A step that only looks at the state takes what is empty. -/
theorem Took.of_looks {P : Pending → Prop} {act : Step Pending} (hlook : W.Looks act P) (hst : W.Sound st)
    (hrun : act ctx st = .ok (p, st')) (hc : c ∉ (W.load st).cells) : W.Took [c] st st' ∧ P p := by
  obtain ⟨hst', hemitted, hout, hvalues, hp⟩ := hlook st p st' hst hrun
  refine ⟨⟨hst', hemitted, by rw [written?, hout, written?], ?_⟩, hp⟩
  have hload : W.load st' = W.load st := by rw [Watch.load, hvalues, Watch.load]
  rw [hload, Load.without_of_notMem hc]

theorem Took.trans {cells cells' : List CellId} (h : W.Took cells st st') (h' : W.Took cells' st' st'') :
    W.Took (cells ++ cells') st st'' where
  sound := h'.sound
  emitted := h'.emitted.trans h.emitted
  written := h'.written.trans h.written
  load := by rw [h'.load, h.load, Load.without_without]

/-- The value of a place does what waits for the reader of its cell. -/
theorem took_take {place : Place} (hst : W.Sound st) (hrun : take place ctx st = .ok (p, st')) :
    W.Took [place.cell.id] st st' ∧ W.Honest p ∧ W.trace p.expr = (W.load st).due place.cell.id := by
  obtain ⟨st₁, st₂, hget, hrun⟩ := step_bind_eq_ok hrun
  cases hget
  cases hfound : st.values.lookup place.cell.id with
  | some value =>
    rw [hfound] at hrun
    obtain ⟨before, behind, hvalues, _⟩ := List.lookup_eq_some_iff.1 hfound
    have hmem : (place.cell.id, value) ∈ st.values := by simp [hvalues]
    have hhonest := hst.values _ hmem
    have honly (q : Pending) (hq : (place.cell.id, q) ∈ st.values) : q = value :=
      congrArg Prod.snd (List.inj_on_of_nodup_map hst.nodup hq hmem rfl)
    have hdue : W.trace value.expr = (W.load st).due place.cell.id := by
      by_cases htrace : W.trace value.expr = []
      · rw [htrace, Load.due_of_notMem (notMem_load fun q hq => by rwa [honly q hq])]
      · exact (Load.due_of_mem hst.nodup_load (mem_load.2 ⟨htrace, value, hmem, rfl⟩)).symm
    cases hrepeat : value.isRepeatable with
    | true =>
      simp only [hrepeat] at hrun
      cases hrun
      have hnone := notMem_load (c := place.cell.id) fun q hq => by
        rw [honly q hq]
        exact hhonest.repeatable hrepeat
      exact ⟨⟨hst, rfl, rfl, (Load.without_of_notMem hnone).symm⟩, hhonest, hdue⟩
    | false =>
      simp only [hrepeat] at hrun
      cases hrun
      exact ⟨⟨hst.drop _, rfl, rfl, load_drop st _⟩, hhonest, hdue⟩
  | none =>
    rw [hfound] at hrun
    have hnone : place.cell.id ∉ (W.load st).cells := notMem_load fun q hq =>
      absurd rfl (bne_iff_ne.1 (List.lookup_eq_none_iff.1 hfound _ hq))
    obtain ⟨ctx', st₂, hread, hrun⟩ := step_bind_eq_ok hrun
    cases hread
    cases htemporary : ctx.env.isTemporary place.declaration with
    | true =>
      simp only [htemporary] at hrun
      cases hrun
    | false =>
      simp only [htemporary] at hrun
      obtain ⟨htook, htrace, hp⟩ := Took.of_looks (Looks.readName _) hst hrun hnone
      exact ⟨htook, hp, by rw [htrace, Load.due_of_notMem hnone]⟩

/-! ## Steps that take operands -/

variable {α : Type} {waits : Bool} {cells : List CellId} {spent gain : List Effect}

/-- A step reads the given cells in turn.  Then it continues the trail with what was spent before, with
what waited for it in these cells and with what it does itself. -/
def Feeds (W : Watch ctx) (c : CellId) (waits : Bool) (act : Step Unit) (cells : List CellId)
    (spent gain : List Effect) : Prop :=
  ∀ st u st', W.Sound st → (cells.filter (W.load st).cells.contains).Nodup → c ∉ (W.load st).cells →
    act ctx st = .ok (u, st') →
    ∃ st₁, W.Took cells st st₁ ∧
      W.After c waits st₁ (spent ++ cells.flatMap (W.load st).due ++ gain) st'

namespace Feeds

theorem of_adds {act : Step Unit} {total : List Effect} (h : W.Adds c waits act total Anything)
    (htotal : total = spent ++ gain) : W.Feeds c waits act [] spent gain := by
  intro st u st' hst _ hc hrun
  refine ⟨st, .refl hst, ?_⟩
  rw [List.flatMap_nil, List.append_nil, ← htotal]
  exact (h st u st' hst hc hrun).1

theorem gain_eq {act : Step Unit} {gain' : List Effect} (h : W.Feeds c waits act cells spent gain)
    (heq : gain = gain') : W.Feeds c waits act cells spent gain' :=
  heq ▸ h

/-- What a value that is taken does is spent. -/
theorem take {place : Place} {next : Pending → Step Unit}
    (h : ∀ p, W.Honest p → W.Feeds c waits (next p) cells (spent ++ W.trace p.expr) gain) :
    W.Feeds c waits (take place >>= next) (place.cell.id :: cells) spent gain := by
  intro st u st' hst hnodup hc hrun
  obtain ⟨p, st₁, htake, hnext⟩ := step_bind_eq_ok hrun
  obtain ⟨htook, hp, hdue⟩ := took_take hst htake
  have hcells : (W.load st₁).cells.Sublist (W.load st).cells := by
    rw [htook.load]
    exact Load.cells_without_sublist _ _
  have hrest : (cells.filter (W.load st₁).cells.contains).Nodup := by
    have hsub : (cells.filter (W.load st₁).cells.contains).Sublist
        (cells.filter (W.load st).cells.contains) :=
      List.monotone_filter_right cells fun c hc =>
        List.contains_iff_mem.2 (hcells.subset (List.contains_iff_mem.1 hc))
    exact hsub.nodup (((List.sublist_cons_self _ cells).filter _).nodup hnodup)
  -- a cell with effects is read once, so what the first operand leaves is what the others find
  have hothers : ∀ c ∈ cells, (W.load st₁).due c = (W.load st).due c := by
    intro c hc
    rw [htook.load, Load.due_without]
    split
    case isFalse => rfl
    case isTrue hsame =>
      obtain rfl := List.mem_singleton.1 hsame
      refine (Load.due_of_notMem fun hmem => ?_).symm
      have hcontains := List.contains_iff_mem.2 hmem
      rw [List.filter_cons_of_pos hcontains, List.nodup_cons] at hnodup
      exact hnodup.1 (List.mem_filter.2 ⟨hc, hcontains⟩)
  obtain ⟨st₂, htook', hafter⟩ :=
    h p hp st₁ u st' htook.sound hrest (fun hmem => hc (hcells.subset hmem)) hnext
  refine ⟨st₂, htook.trans htook', ?_⟩
  rwa [hdue, List.flatMap_congr hothers, List.append_assoc spent, ← List.flatMap_cons] at hafter

/-- A step that only looks at the state comes first. -/
theorem look {act : Step α} {next : α → Step Unit} {P : α → Prop} (hlook : W.Looks act P)
    (h : ∀ a, P a → W.Feeds c waits (next a) cells spent gain) :
    W.Feeds c waits (act >>= next) cells spent gain := by
  intro st u st' hst hnodup hc hrun
  obtain ⟨a, st₁, hact, hnext⟩ := step_bind_eq_ok hrun
  obtain ⟨hst₁, hemitted, hout, hvalues, ha⟩ := hlook st a st₁ hst hact
  have hload : W.load st₁ = W.load st := by rw [load, hvalues, load]
  have hwritten : W.written? st₁ = W.written? st := by rw [written?, hout, written?]
  obtain ⟨st₂, htook, hafter⟩ := h a ha st₁ u st' hst₁ (hload ▸ hnodup) (hload ▸ hc) hnext
  rw [hload] at hafter
  exact ⟨st₂, ⟨htook.sound, htook.emitted.trans hemitted, htook.written.trans hwritten,
    htook.load.trans (by rw [hload])⟩, hafter⟩

end Feeds

/-! ## Values with operands -/

/-- Operands are honest and have the given effects together. -/
structure Covers (W : Watch ctx) (operands : List Pending) (effects : List Effect) : Prop where
  honest : ∀ o ∈ operands, W.Honest o
  sum : operands.flatMap (fun o => W.trace o.expr) = effects

namespace Covers

variable {operands more : List Pending} {effects effects' : List Effect}

theorem nil : W.Covers [] [] := ⟨nofun, rfl⟩

theorem cons (hp : W.Honest p) (h : W.Covers operands effects) :
    W.Covers (p :: operands) (W.trace p.expr ++ effects) :=
  ⟨List.forall_mem_cons.2 ⟨hp, h.honest⟩, by rw [List.flatMap_cons, h.sum]⟩

theorem append (h : W.Covers operands effects) (h' : W.Covers more effects') :
    W.Covers (operands ++ more) (effects ++ effects') :=
  ⟨List.forall_mem_append.2 ⟨h.honest, h'.honest⟩, by rw [List.flatMap_append, h.sum, h'.sum]⟩

/-- Operands that do nothing have no effects. -/
theorem eq_nil (h : W.Covers operands effects) (hsilent : operands.any (·.hasEffects) = false) :
    effects = [] := by
  rw [← h.sum, List.flatMap_eq_nil_iff]
  exact fun o ho => (h.honest o ho).silent (Bool.eq_false_iff.2 (List.any_eq_false.1 hsilent o ho))

end Covers

/-- A value that is read once and writes nothing has to be honest only when it has no effects. -/
theorem Honest.of_silent (hrepeatable : p.isRepeatable = false) (hself : p.isSelfCopy = false)
    (hstore : p.store = none) (hsilent : p.hasEffects = false → W.trace p.expr = []) : W.Honest p where
  silent := hsilent
  repeatable h := by simp [hrepeatable] at h
  selfCopy h := by simp [hself] at h
  store s h := by simp [hstore] at h

theorem honest_effectful (e : Expr) (operands : List Pending) : W.Honest (effectful e operands) :=
  .of_silent rfl rfl rfl nofun

/-- A value that writes a variable does what the written value does. -/
theorem honest_store {e : Expr} {s : Store} (h : W.trace e = W.trace s.value) (names : KeySet DeclId) :
    W.Honest { expr := e, names, hasEffects := true, store := some s } where
  silent h := by cases h
  repeatable h := by cases h
  selfCopy h := by cases h
  store s' hs := by
    cases hs
    exact h

/-- A value without effects of its own is as honest as its operands. -/
theorem honest_pureValue {e : Expr} {operands : List Pending} (h : W.Covers operands (W.trace e)) :
    W.Honest (pureValue e operands) :=
  .of_silent rfl rfl rfl h.eq_nil

/-! ## Lists of operands -/

theorem Looks.nestedFunction (id : FuncId) : W.Looks (nestedFunction id) Anything := by
  intro st f st' hst hrun
  obtain ⟨ctx', st₁, hread, hrun⟩ := step_bind_eq_ok hrun
  cases hread
  obtain ⟨st₁, st₂, hget, hrun⟩ := step_bind_eq_ok hrun
  cases hget
  cases hnested : ctx.nested id st.names with
  | error e =>
    rw [hnested] at hrun
    cases hrun
  | ok r =>
    rw [hnested] at hrun
    cases hrun
    exact ⟨{ hst with names := fun d => (W.nested id _ _ _ hnested d).trans (hst.names d) }, rfl, rfl,
      rfl, trivial⟩

theorem Feeds.elements {ps : List Place} {next : List Element × List Pending → Step Unit}
    (h : ∀ r, W.Covers r.2 (W.of (Element.effectsAll r.1)) →
      W.Feeds c waits (next r) cells (spent ++ W.of (Element.effectsAll r.1)) gain) :
    W.Feeds c waits (takeElements ps >>= next) (ps.map (·.cell.id) ++ cells) spent gain := by
  induction ps generalizing spent next with
  | nil =>
    rw [takeElements, pure_bind]
    simpa [Element.effectsAll] using h ([], []) .nil
  | cons p ps ih =>
    rw [takeElements, bind_assoc]
    refine Feeds.look Looks.get fun st hst => ?_
    have hnone : st.spreads.get? p.cell.id = none := hst.spreads _
    simp only [hnone, bind_assoc, pure_bind]
    refine Feeds.take fun value hvalue => ih fun r hr => ?_
    have hr' := hr.cons hvalue
    simpa [Element.effectsAll, trace] using h (.one value.expr :: r.1, value :: r.2)
      (by simpa [Element.effectsAll, trace] using hr')

theorem Feeds.key {key : Key} {next : PropertyKey × List Pending → Step Unit}
    (h : ∀ r, W.Covers r.2 (W.of r.1.effects) →
      W.Feeds c waits (next r) cells (spent ++ W.of r.1.effects) gain) :
    W.Feeds c waits (takeKey key >>= next) (key.reads.map (·.cell.id) ++ cells) spent gain := by
  cases key with
  | computed p =>
    rw [takeKey, bind_assoc]
    refine Feeds.take fun value hvalue => ?_
    rw [pure_bind]
    have hkey := Covers.nil.cons hvalue
    exact h (.computed value.expr, [value]) (by simpa [PropertyKey.effects, trace] using hkey)
  | name text =>
    rw [takeKey, pure_bind]
    simpa [PropertyKey.effects, Key.reads] using h (.name text, []) .nil
  | string text =>
    rw [takeKey, pure_bind]
    simpa [PropertyKey.effects, Key.reads] using h (.string text, []) .nil
  | number value =>
    rw [takeKey, pure_bind]
    simpa [PropertyKey.effects, Key.reads] using h (.number value, []) .nil

theorem Feeds.properties {ps : List Ir.Property}
    {next : List Syntax.Property × List Pending → Step Unit}
    (h : ∀ r, W.Covers r.2 (W.of (Property.effectsAll r.1)) →
      W.Feeds c waits (next r) cells (spent ++ W.of (Property.effectsAll r.1)) gain) :
    W.Feeds c waits (takeProperties ps >>= next) ((ps.flatMap Ir.Property.reads).map (·.cell.id) ++ cells)
      spent gain := by
  induction ps generalizing spent next with
  | nil =>
    rw [takeProperties, pure_bind]
    simpa [Property.effectsAll] using h ([], []) .nil
  | cons property ps ih =>
    cases property with
    | keyValue key value shorthand =>
      simp only [takeProperties, bind_assoc, pure_bind, List.flatMap_cons, Ir.Property.reads, List.map_append,
        List.map_cons, List.append_assoc, List.cons_append, List.nil_append]
      refine Feeds.key fun k hk => Feeds.take fun v hv => ih fun r hr => ?_
      have hall := hk.append (hr.cons hv)
      simpa [Property.effectsAll, trace] using
        h (.keyValue k.1 v.expr (isShort shorthand k.1 v.expr) :: r.1, k.2 ++ v :: r.2)
          (by simpa [Property.effectsAll, trace] using hall)
    | method key id =>
      simp only [takeProperties, bind_assoc, pure_bind, List.flatMap_cons, Ir.Property.reads, List.map_append,
        List.append_assoc]
      refine Feeds.key fun k hk => Feeds.look (Looks.nestedFunction id) fun f _ => ih fun r hr => ?_
      have hall := hk.append hr
      simpa [Property.effectsAll, trace] using h (.method k.1 f :: r.1, k.2 ++ r.2)
        (by simpa [Property.effectsAll, trace] using hall)
    | spread value =>
      simp only [takeProperties, bind_assoc, pure_bind, List.flatMap_cons, Ir.Property.reads, List.map_cons,
        List.cons_append, List.nil_append]
      refine Feeds.take fun v hv => ih fun r hr => ?_
      have hall := hr.cons hv
      simpa [Property.effectsAll, trace] using h (.spread v.expr :: r.1, v :: r.2)
        (by simpa [Property.effectsAll, trace] using hall)

end Watch

end Whittle.Emit
