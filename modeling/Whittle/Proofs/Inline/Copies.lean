import Mathlib.Tactic.Common
import Whittle.Proofs.Inline.Renaming
import Whittle.Proofs.Ir.Cells

/-!
# Copied code

A copy in progress gives every cell of the callee a counterpart that did not exist before, different
cells different ones (`Copying.Fresh`), and never takes one back (`Copying.Extends`).  So all copied
instructions can be read with the counterparts that the copy ends up with (`Copying.isCopy_instrs`).
-/

namespace Whittle.Ir

/-! ## Replacing only what is there -/

namespace Op

theorem mapReads_congr {g g' : Place → Place} {op : Op} (h : ∀ p ∈ op.reads, g p = g' p) :
    op.mapReads g = op.mapReads g' := by
  have hkey (key : Key) (hkey : ∀ p ∈ key.reads, g p = g' p) : key.mapReads g = key.mapReads g' := by
    cases key <;> simp_all [Key.mapReads, Key.reads]
  cases op with
  | object properties =>
    refine congrArg object (List.map_congr_left fun p hp => ?_)
    have hp (q : Place) (hq : q ∈ p.reads) : g q = g' q := h q (List.mem_flatMap.2 ⟨p, hp, hq⟩)
    cases p <;> simp_all [Property.mapReads, Property.reads]
  | objectPattern properties =>
    refine congrArg objectPattern (List.map_congr_left fun p hp => ?_)
    have hp (q : Place) (hq : q ∈ p.reads) : g q = g' q := h q (List.mem_flatMap.2 ⟨p, hp, hq⟩)
    cases p <;> simp_all [PatternProperty.mapReads, PatternProperty.reads]
  | arrayPattern elements =>
    refine congrArg arrayPattern (List.map_congr_left fun e he => ?_)
    cases e with
    | none => rfl
    | some p => exact congrArg some (h p (List.mem_flatMap.2 ⟨_, he, List.mem_singleton_self p⟩))
  | unsupported source bindings =>
    refine congrArg (unsupported source) (List.map_congr_left fun b hb => ?_)
    rw [h b.2 (List.mem_map.2 ⟨b, hb, rfl⟩)]
  | _ => simp_all [mapReads, reads]

theorem mapPlaces_congr {g g' : Place → Place} {op : Op}
    (h : ∀ p ∈ op.reads ++ op.target?.toList, g p = g' p) : op.mapPlaces g = op.mapPlaces g' := by
  rw [mapPlaces, mapPlaces, mapReads_congr fun p hp => h p (List.mem_append_left _ hp)]
  cases op <;> simp_all [mapReads, Copying.onTarget, target?]

end Op

namespace Copying

variable {c c' c'' : Copying} {base : Environment} {start cells cells' cells'' : List Cell}
  {reserved : List Place} {p : Place}

/-! ## What copying keeps -/

/-- A copying that came further than another one. -/
structure Extends (c : Copying) (cells : List Cell) (c' : Copying) (cells' : List Cell) : Prop where
  caller : c'.caller = c.caller
  callee : c'.callee = c.callee
  env : Advance c.env cells c'.env cells'
  versions : c'.env.versions = c.env.versions
  functions : c'.env.functions = c.env.functions
  places : ∀ id p, c.places.get? id = some p → c'.places.get? id = some p

theorem Extends.refl (h : c.env.Logs cells) : c.Extends cells c cells :=
  ⟨rfl, rfl, .refl h, rfl, rfl, fun _ _ h => h⟩

theorem Extends.trans (h : c.Extends cells c' cells') (h' : c'.Extends cells' c'' cells'') :
    c.Extends cells c'' cells'' :=
  ⟨h'.caller.trans h.caller, h'.callee.trans h.callee, h.env.trans h'.env,
    h'.versions.trans h.versions, h'.functions.trans h.functions,
    fun id p hp => h'.places id p (h.places id p hp)⟩

/-- The counterparts are cells of the caller that the environment `base` does not know, of the kind of
those that they stand for, and so are their declarations; different cells have different ones, and none
of them is reserved. -/
structure Fresh (base : Environment) (start cells : List Cell) (reserved : List Place) (c : Copying) :
    Prop where
  declarations : ∀ d d', c.declarations.get? d = some d' → c.env.ownerOf d' = some c.caller ∧
    c.env.isTemporary d' = base.isTemporary d ∧ base.declarations.size ≤ d'.index
  owner : ∀ id p, c.places.get? id = some p → c.env.ownerOf p.declaration = some c.caller
  known : ∀ id p, c.places.get? id = some p → p.IsOf cells
  new : ∀ id p, c.places.get? id = some p → base.nextCell.index ≤ p.cell.id.index
  undeclared : ∀ id p, c.places.get? id = some p → base.declarations.size ≤ p.declaration.index
  numbered : ∀ id p, c.places.get? id = some p → p.cell.version.isNumbered = true
  temporary : ∀ id p, c.places.get? id = some p → ∀ k, start[id.index]? = some k →
    c.env.isTemporary p.declaration = base.isTemporary k.declaration
  injective : ∀ id p id' p', c.places.get? id = some p → c.places.get? id' = some p' →
    p.cell.id = p'.cell.id → id = id'
  reserved_known : ∀ k ∈ reserved, k.IsOf cells ∧ c.env.isTemporary k.declaration = true
  reserved_nodup : (reserved.map (·.cell.id)).Nodup
  apart : ∀ k ∈ reserved, ∀ id p, c.places.get? id = some p → p.cell.id ≠ k.cell.id

/-- Handing out more changes nothing about the counterparts. -/
theorem Fresh.grow (h : c.Fresh base start cells reserved) (hlogs : c.env.Logs cells)
    (hextends : c.Extends cells c' cells') (hplaces : c'.places = c.places)
    (hdeclarations : c'.declarations = c.declarations) : c'.Fresh base start cells' reserved := by
  have howner (d : DeclId) (hd : c.env.ownerOf d = some c.caller) :
      c'.env.ownerOf d = some c'.caller := by
    rw [hextends.env.ownerOf hd, hextends.caller]
  have htemporary (d : DeclId) (hd : c.env.ownerOf d = some c.caller) :
      c'.env.isTemporary d = c.env.isTemporary d :=
    hextends.env.temporary d (Environment.index_lt_of_ownerOf hd)
  refine ⟨?_, ?_, ?_, ?_, ?_, ?_, ?_, ?_, fun k hk => ?_, h.reserved_nodup, ?_⟩
  · rw [hdeclarations]
    intro d d' hd
    obtain ⟨hcaller, hkind, hnew⟩ := h.declarations d d' hd
    exact ⟨howner d' hcaller, (htemporary d' hcaller).trans hkind, hnew⟩
  case refine_9 =>
    obtain ⟨hof, hk⟩ := h.reserved_known k hk
    exact ⟨hof.mono hextends.env.cells, (hextends.env.temporary _ (hlogs.has hof).2).trans hk⟩
  all_goals rw [hplaces]
  · exact fun id p hp => howner _ (h.owner id p hp)
  · exact fun id p hp => (h.known id p hp).mono hextends.env.cells
  · exact h.new
  · exact h.undeclared
  · exact h.numbered
  · exact fun id p hp k hk => (htemporary _ (h.owner id p hp)).trans (h.temporary id p hp k hk)
  · exact h.injective
  · exact h.apart

/-- A copying in progress, given the environment and the cells at its start. -/
structure Goes (base : Environment) (start cells : List Cell) (reserved : List Place) (c : Copying) :
    Prop where
  started : base.Logs start
  env : Advance base start c.env cells
  versions : c.env.versions = base.versions
  functions : c.env.functions = base.functions
  fresh : c.Fresh base start cells reserved

theorem Goes.extend {reserved' : List Place} (h : c.Goes base start cells reserved)
    (hextends : c.Extends cells c' cells') (hfresh : c'.Fresh base start cells' reserved') :
    c'.Goes base start cells' reserved' :=
  ⟨h.started, h.env.trans hextends.env, hextends.versions.trans h.versions,
    hextends.functions.trans h.functions, hfresh⟩

theorem Goes.nextCell_le (h : c.Goes base start cells reserved) :
    base.nextCell.index ≤ c.env.nextCell.index :=
  h.env.nextCell_le h.started

/-! ## Counterparts of declarations -/

theorem declaration_of_none {d : DeclId} (hd : c.declarations.get? d = none) :
    c.declaration d =
      ((c.env.declare (c.env.nameOf d) (kind (c.env.kindOf d)) c.caller).1,
        { c with
          env := (c.env.declare (c.env.nameOf d) (kind (c.env.kindOf d)) c.caller).2
          declarations := c.declarations.insert d ⟨c.env.declarations.size⟩ }) := by
  simp only [declaration, hd]
  rfl

theorem declaration_of_some {d d' : DeclId} (hd : c.declarations.get? d = some d') :
    c.declaration d = (d', c) := by
  simp only [declaration, hd]

theorem places_declaration (c : Copying) (d : DeclId) : (c.declaration d).2.places = c.places := by
  cases hd : c.declarations.get? d with
  | none => rw [declaration_of_none hd]
  | some d' => rw [declaration_of_some hd]

theorem extends_declaration (h : c.env.Logs cells) (d : DeclId) :
    c.Extends cells (c.declaration d).2 cells := by
  cases hd : c.declarations.get? d with
  | none =>
    rw [declaration_of_none hd]
    exact ⟨rfl, rfl, .declare h _ _ _, rfl, rfl, fun _ _ h => h⟩
  | some d' =>
    rw [declaration_of_some hd]
    exact .refl h

theorem kind_temporary (k : DeclKind) : (kind k == .temporary) = (k == .temporary) := by
  cases k <;> rfl

/-- The counterpart of a declaration is new, belongs to the caller and is of the same kind. -/
theorem Goes.declaration (h : c.Goes base start cells reserved) {d : DeclId}
    (hdeclared : d.index < base.declarations.size) :
    (c.declaration d).2.Goes base start cells reserved ∧
      (c.declaration d).2.env.ownerOf (c.declaration d).1 = some c.caller ∧
      (c.declaration d).2.env.isTemporary (c.declaration d).1 = base.isTemporary d ∧
      base.declarations.size ≤ (c.declaration d).1.index := by
  cases hd : c.declarations.get? d with
  | some d' =>
    rw [declaration_of_some hd]
    exact ⟨h, h.fresh.declarations d d' hd⟩
  | none =>
    have hextends := extends_declaration h.env.logs d
    have hfresh := h.fresh
    have howner := Environment.ownerOf_declare c.env (c.env.nameOf d) (kind (c.env.kindOf d)) c.caller
    have hkind : (c.env.declare (c.env.nameOf d) (kind (c.env.kindOf d)) c.caller).2.isTemporary
        ⟨c.env.declarations.size⟩ = base.isTemporary d := by
      rw [Environment.isTemporary_declare, kind_temporary, ← h.env.temporary d hdeclared]
      rfl
    rw [declaration_of_none hd] at hextends ⊢
    -- all but the new counterpart is as before
    have hlater : c.Extends cells { c with
        env := (c.env.declare (c.env.nameOf d) (kind (c.env.kindOf d)) c.caller).2 } cells :=
      ⟨hextends.caller, hextends.callee, hextends.env, hextends.versions, hextends.functions,
        hextends.places⟩
    have hgrown := h.fresh.grow h.env.logs hlater rfl rfl
    refine ⟨h.extend hextends { hgrown with declarations := fun x x' hx => ?_ }, howner, hkind,
      h.env.size⟩
    rw [Table.get?_insert] at hx
    split at hx
    · next heq =>
      obtain rfl := Option.some.inj hx
      rw [heq]
      exact ⟨howner, hkind, h.env.size⟩
    · exact hgrown.declarations x x' hx

/-! ## Counterparts of places -/

/-- The copying with one more counterpart, of the given declaration. -/
def withPlace (c : Copying) (d : DeclId) (id : CellId) : Copying :=
  { c with env := (c.env.newPlace d).2, places := c.places.insert id (c.env.newPlace d).1 }

theorem add_of_own (howner : c.env.ownerOf p.declaration = some c.callee)
    (hnew : c.places.get? p.cell.id = none) :
    c.add p = (c.declaration p.declaration).2.withPlace (c.declaration p.declaration).1 p.cell.id := by
  simp only [add, howner, Table.contains, hnew, bne_self_eq_false, Option.isSome_none, Bool.or_self,
    Bool.false_eq_true, if_false]
  rfl

theorem add_of_known {q : Place} (hknown : c.places.get? p.cell.id = some q) : c.add p = c := by
  simp [add, Table.contains, hknown]

theorem add_of_foreign (howner : c.env.ownerOf p.declaration ≠ some c.callee) : c.add p = c := by
  simp [add, howner]

/-- A counterpart is added. -/
theorem Goes.withPlace (h : c.Goes base start cells reserved) {d : DeclId}
    (hd : c.env.ownerOf d = some c.caller) (hp : p.IsOf start)
    (hkind : c.env.isTemporary d = base.isTemporary p.declaration)
    (hdeclared : base.declarations.size ≤ d.index)
    (hnew : c.places.get? p.cell.id = none) :
    ∃ cells', (c.withPlace d p.cell.id).Goes base start cells' reserved ∧
      c.Extends cells (c.withPlace d p.cell.id) cells' := by
  obtain ⟨cells', hadvance, hof⟩ := Advance.newPlace h.env.logs (Environment.index_lt_of_ownerOf hd)
  have hcases (id : CellId) (q : Place) (hq : (c.withPlace d p.cell.id).places.get? id = some q) :
      (id = p.cell.id ∧ q = (c.env.newPlace d).1) ∨ c.places.get? id = some q := by
    rw [Copying.withPlace, Table.get?_insert] at hq
    split at hq
    · next heq => exact .inl ⟨heq, (Option.some.inj hq).symm⟩
    · exact .inr hq
  -- what was there before has smaller numbers than the new cell
  have hold {q : Place} (hq : q.IsOf cells) : q.cell.id ≠ (c.env.newPlace d).1.cell.id := by
    intro heq
    have hlt := (h.env.logs.has hq).1
    rw [heq] at hlt
    exact absurd hlt (Nat.lt_irrefl _)
  have hextends : c.Extends cells (c.withPlace d p.cell.id) cells' := by
    refine ⟨rfl, rfl, hadvance, rfl, rfl, fun id q hq => ?_⟩
    have hne : id ≠ p.cell.id := by
      rintro rfl
      rw [hnew] at hq
      cases hq
    rw [Copying.withPlace, Table.get?_insert, if_neg hne]
    exact hq
  have hlater : c.Extends cells { c with env := (c.env.newPlace d).2 } cells' :=
    ⟨rfl, rfl, hadvance, rfl, rfl, fun _ _ hq => hq⟩
  have hgrown := h.fresh.grow h.env.logs hlater rfl rfl
  refine ⟨cells', h.extend hextends ⟨hgrown.declarations, fun id q hq => ?_, fun id q hq => ?_,
    fun id q hq => ?_, fun id q hq => ?_, fun id q hq => ?_, fun id q hq k hk => ?_,
    fun id₁ q₁ id₂ q₂ h₁ h₂ heq => ?_,
    hgrown.reserved_known, hgrown.reserved_nodup, fun k hk id q hq => ?_⟩, hextends⟩
  · obtain ⟨-, rfl⟩ | hq := hcases id q hq
    · exact hadvance.ownerOf hd
    · exact hgrown.owner id q hq
  · obtain ⟨-, rfl⟩ | hq := hcases id q hq
    · exact hof
    · exact hgrown.known id q hq
  · obtain ⟨-, rfl⟩ | hq := hcases id q hq
    · exact h.nextCell_le
    · exact hgrown.new id q hq
  · obtain ⟨-, rfl⟩ | hq := hcases id q hq
    · exact hdeclared
    · exact hgrown.undeclared id q hq
  · obtain ⟨-, rfl⟩ | hq := hcases id q hq
    · rfl
    · exact hgrown.numbered id q hq
  · obtain ⟨rfl, rfl⟩ | hq := hcases id q hq
    · obtain rfl : p.cell = k := Option.some.inj (hp.symm.trans hk)
      exact (hadvance.temporary d (Environment.index_lt_of_ownerOf hd)).trans hkind
    · exact hgrown.temporary id q hq k hk
  · obtain ⟨hid₁, rfl⟩ | h₁ := hcases id₁ q₁ h₁ <;> obtain ⟨hid₂, rfl⟩ | h₂ := hcases id₂ q₂ h₂
    · rw [hid₁, hid₂]
    · exact absurd heq.symm (hold (h.fresh.known id₂ q₂ h₂))
    · exact absurd heq (hold (h.fresh.known id₁ q₁ h₁))
    · exact hgrown.injective id₁ q₁ id₂ q₂ h₁ h₂ heq
  · obtain ⟨-, rfl⟩ | hq := hcases id q hq
    · exact (hold (h.fresh.reserved_known k hk).1).symm
    · exact hgrown.apart k hk id q hq

/-- A place of the callee has a counterpart. -/
def Covers (c : Copying) (p : Place) : Prop :=
  c.env.ownerOf p.declaration = some c.callee → ∃ q, c.places.get? p.cell.id = some q

theorem Covers.extend (h : c.Covers p) (hextends : c.Extends cells c' cells')
    (hp : p.declaration.index < c.env.declarations.size) : c'.Covers p := by
  intro howner
  rw [hextends.env.owner _ hp, hextends.callee] at howner
  obtain ⟨q, hq⟩ := h howner
  exact ⟨q, hextends.places _ q hq⟩

theorem Covers.get?_places (h : c.Covers p)
    (howner : c.env.ownerOf p.declaration = some c.callee) :
    c.places.get? p.cell.id = some (c.place p) := by
  obtain ⟨q, hq⟩ := h howner
  simp [place, howner, Substitution.apply, Table.getD, hq]

theorem place_of_foreign (howner : c.env.ownerOf p.declaration ≠ some c.callee) :
    c.place p = p := by
  simp [place, howner]

/-- A counterpart that exists stays. -/
theorem place_extend (hextends : c.Extends cells c' cells')
    (hp : p.declaration.index < c.env.declarations.size) (hcovers : c.Covers p) :
    c'.place p = c.place p := by
  have hsame : c'.env.ownerOf p.declaration = c.env.ownerOf p.declaration := hextends.env.owner _ hp
  by_cases howner : c.env.ownerOf p.declaration = some c.callee
  · have howner' : c'.env.ownerOf p.declaration = some c'.callee := by
      rw [hsame, howner, hextends.callee]
    have hkept := hextends.places _ _ (hcovers.get?_places howner)
    exact Option.some.inj (((hcovers.extend hextends hp).get?_places howner').symm.trans hkept)
  · rw [place_of_foreign howner, place_of_foreign]
    rwa [hsame, hextends.callee]

theorem Goes.add (h : c.Goes base start cells reserved) (hp : p.IsOf start) :
    ∃ cells', (c.add p).Goes base start cells' reserved ∧ c.Extends cells (c.add p) cells' ∧
      (c.add p).Covers p := by
  by_cases howner : c.env.ownerOf p.declaration = some c.callee
  · cases hget : c.places.get? p.cell.id with
    | some q =>
      rw [add_of_known hget]
      exact ⟨cells, h, .refl h.env.logs, fun _ => ⟨q, hget⟩⟩
    | none =>
      have hdeclaration := extends_declaration h.env.logs p.declaration
      obtain ⟨hgoes, hd, hkind, hdeclared⟩ := h.declaration (h.started.has hp).2
      have hnew : (c.declaration p.declaration).2.places.get? p.cell.id = none := by
        rw [places_declaration, hget]
      rw [← hdeclaration.caller] at hd
      obtain ⟨cells', hgoes', hplace⟩ := hgoes.withPlace hd hp hkind hdeclared hnew
      rw [add_of_own howner hget]
      exact ⟨cells', hgoes', hdeclaration.trans hplace, fun _ => ⟨_, Table.get?_insert_self ..⟩⟩
  · rw [add_of_foreign howner]
    exact ⟨cells, h, .refl h.env.logs, fun howner' => absurd howner' howner⟩

theorem Goes.addAll {ps : List Place} (h : c.Goes base start cells reserved)
    (hps : ∀ p ∈ ps, p.IsOf start) :
    ∃ cells', (ps.foldl Copying.add c).Goes base start cells' reserved ∧
      c.Extends cells (ps.foldl Copying.add c) cells' ∧
      ∀ p ∈ ps, (ps.foldl Copying.add c).Covers p := by
  induction ps generalizing c cells with
  | nil => exact ⟨cells, h, .refl h.env.logs, by simp⟩
  | cons p ps ih =>
    obtain ⟨hp, hps⟩ := List.forall_mem_cons.1 hps
    obtain ⟨cells₁, hgoes, hextends, hcovers⟩ := h.add hp
    obtain ⟨cells₂, hgoes', hextends', hcovers'⟩ := ih hgoes hps
    refine ⟨cells₂, hgoes', hextends.trans hextends', fun q hq => ?_⟩
    obtain rfl | hq := List.mem_cons.1 hq
    · exact hcovers.extend hextends' ((h.started.has hp).2.trans_le hgoes.env.size)
    · exact hcovers' q hq

theorem Goes.addAny (h : c.Goes base start cells reserved) {value : Option Place}
    (hvalue : ∀ p, value = some p → p.IsOf start) :
    ∃ cells', (value.elim c c.add).Goes base start cells' reserved ∧
      c.Extends cells (value.elim c c.add) cells' ∧
      ∀ p, value = some p → (value.elim c c.add).Covers p := by
  cases value with
  | none => exact ⟨cells, h, .refl h.env.logs, nofun⟩
  | some p =>
    obtain ⟨cells', hgoes, hextends, hcovers⟩ := h.add (hvalue p rfl)
    exact ⟨cells', hgoes, hextends, fun q hq => Option.some.inj hq ▸ hcovers⟩

/-! ## Copied instructions -/

/-- An instruction with the counterparts of all places of another. -/
structure IsCopy (c : Copying) (i j : Instr) : Prop where
  op : j.op = i.op.mapPlaces c.place
  place : j.place = c.place i.place

/-- Copies can be read with the counterparts of any later moment. -/
theorem IsCopy.extend {i j : Instr} (h : c.IsCopy i j) (hextends : c.Extends cells c' cells')
    (hi : ∀ p ∈ i.places, p.declaration.index < c.env.declarations.size)
    (hcovers : ∀ p ∈ i.places, c.Covers p) : c'.IsCopy i j := by
  have hplace (p : Place) (hp : p ∈ i.places) : c.place p = c'.place p :=
    (place_extend hextends (hi p hp) (hcovers p hp)).symm
  refine ⟨?_, ?_⟩
  · rw [h.op]
    refine Op.mapPlaces_congr fun p hp => hplace p ?_
    simp only [Instr.places, Instr.defined, Instr.reads, List.mem_append, List.mem_cons] at hp ⊢
    tauto
  · rw [h.place, hplace i.place (by simp [Instr.places, Instr.defined])]

theorem isCopy_extend {is js : List Instr} (h : List.Forall₂ c.IsCopy is js)
    (hextends : c.Extends cells c' cells')
    (his : ∀ i ∈ is, ∀ p ∈ i.places, p.declaration.index < c.env.declarations.size)
    (hcovers : ∀ i ∈ is, ∀ p ∈ i.places, c.Covers p) : List.Forall₂ c'.IsCopy is js := by
  induction h with
  | nil => exact .nil
  | cons hij _ ih =>
    refine .cons (hij.extend hextends (his _ List.mem_cons_self) (hcovers _ List.mem_cons_self))
      (ih (fun i hi => his i (List.mem_cons_of_mem _ hi)) fun i hi => ?_)
    exact hcovers i (List.mem_cons_of_mem _ hi)

theorem Goes.instr (h : c.Goes base start cells reserved) {i : Instr}
    (hi : ∀ p ∈ i.places, p.IsOf start) :
    ∃ cells', (c.instr i).2.Goes base start cells' reserved ∧ c.Extends cells (c.instr i).2 cells' ∧
      (∀ p ∈ i.places, (c.instr i).2.Covers p) ∧ (c.instr i).2.IsCopy i (c.instr i).1 := by
  have hmem (p : Place) : p ∈ i.reads ++ i.op.target?.toList ++ [i.place] ↔ p ∈ i.places := by
    simp only [Instr.places, Instr.defined, List.mem_append, List.mem_cons]
    tauto
  obtain ⟨cells', hgoes, hextends, hcovers⟩ := h.addAll fun p hp => hi p ((hmem p).1 hp)
  have hnumber : ((i.reads ++ i.op.target?.toList ++ [i.place]).foldl Copying.add c).Extends cells'
      (c.instr i).2 cells' :=
    ⟨rfl, rfl, .of_same hgoes.env.logs rfl rfl rfl (fun _ hd => hd) (Nat.le_refl _) fun _ hd => .inl hd,
      rfl, rfl, fun _ _ h => h⟩
  exact ⟨cells', hgoes.extend hnumber (hgoes.fresh.grow hgoes.env.logs hnumber rfl rfl),
    hextends.trans hnumber, fun p hp => hcovers p ((hmem p).2 hp), rfl, rfl⟩

/-- Copying instructions gives a copy of each. -/
theorem Goes.instrs {is : List Instr} (h : c.Goes base start cells reserved)
    (his : ∀ i ∈ is, ∀ p ∈ i.places, p.IsOf start) :
    ∃ cells', (c.instrs is).2.Goes base start cells' reserved ∧
      c.Extends cells (c.instrs is).2 cells' ∧
      (∀ i ∈ is, ∀ p ∈ i.places, (c.instrs is).2.Covers p) ∧
      List.Forall₂ (c.instrs is).2.IsCopy is (c.instrs is).1 := by
  induction is generalizing c cells with
  | nil => exact ⟨cells, h, .refl h.env.logs, by simp, .nil⟩
  | cons i is ih =>
    have hi := his i List.mem_cons_self
    obtain ⟨cells₁, hgoes, hextends, hcovers, hcopy⟩ := h.instr hi
    obtain ⟨cells₂, hgoes', hextends', hcovers', hcopies⟩ :=
      ih hgoes fun j hj => his j (List.mem_cons_of_mem _ hj)
    have hknown (p : Place) (hp : p ∈ i.places) :
        p.declaration.index < (c.instr i).2.env.declarations.size :=
      (h.started.has (hi p hp)).2.trans_le hgoes.env.size
    refine ⟨cells₂, hgoes', hextends.trans hextends', fun j hj p hp => ?_,
      .cons (hcopy.extend hextends' hknown hcovers) hcopies⟩
    obtain rfl | hj := List.mem_cons.1 hj
    · exact (hcovers p hp).extend hextends' (hknown p hp)
    · exact hcovers' j hj p hp

/-- A new instruction of the caller defines a place that is reserved from then on. -/
theorem Goes.new (h : c.Goes base start cells reserved) (op : Op) :
    ∃ cells', (c.new op).2.Goes base start cells' ((c.new op).1.place :: reserved) ∧
      c.Extends cells (c.new op).2 cells' ∧
      base.nextCell.index ≤ (c.new op).1.place.cell.id.index := by
  obtain ⟨cells', hadvance, hof, -⟩ := Advance.newInstr h.env.logs c.caller op
  have hcell : (c.new op).1.place.cell.id = c.env.nextCell := rfl
  have hextends : c.Extends cells (c.new op).2 cells' := ⟨rfl, rfl, hadvance, rfl, rfl, fun _ _ h => h⟩
  have hfresh := h.fresh.grow h.env.logs hextends rfl rfl
  have hold {q : Place} (hq : q.IsOf cells) : q.cell.id ≠ (c.new op).1.place.cell.id := by
    intro heq
    have hlt := (h.env.logs.has hq).1
    rw [heq, hcell] at hlt
    exact absurd hlt (Nat.lt_irrefl _)
  refine ⟨cells', h.extend hextends { hfresh with
    reserved_known := fun k hk => ?_, reserved_nodup := ?_, apart := fun k hk id p hp => ?_ },
    hextends, hcell ▸ h.nextCell_le⟩
  · obtain rfl | hk := List.mem_cons.1 hk
    · exact ⟨hof, Environment.isTemporary_newInstr c.env c.caller op⟩
    · exact hfresh.reserved_known k hk
  · refine List.nodup_cons.2 ⟨fun hmem => ?_, h.fresh.reserved_nodup⟩
    obtain ⟨k, hk, heq⟩ := List.mem_map.1 hmem
    exact hold (h.fresh.reserved_known k hk).1 heq
  · obtain rfl | hk := List.mem_cons.1 hk
    · exact hold (h.fresh.known id p hp)
    · exact hfresh.apart k hk id p hp

/-! ## Counterparts of cells -/

/-- The counterpart of a cell. -/
def cell (c : Copying) (k : Cell) : Cell := (c.place ⟨default, k⟩).cell

theorem cell_place (c : Copying) (p : Place) : (c.place p).cell = c.cell p.cell := by
  simp only [cell, place, Place.declaration]
  by_cases howner : c.env.ownerOf p.cell.declaration = some c.callee
  · simp only [howner, bne_self_eq_false, Bool.false_eq_true, if_false, Substitution.apply, Table.getD]
    cases c.places.get? p.cell.id <;> rfl
  · simp [howner]

theorem IsCopy.renames {i j : Instr} (h : c.IsCopy i j) : i.Renames c.cell j :=
  ⟨⟨c.place, c.cell_place, h.op, h.place⟩⟩

theorem cell_of_foreign {k : Cell} (howner : c.env.ownerOf k.declaration ≠ some c.callee) :
    c.cell k = k := by
  rw [cell, place_of_foreign howner]

theorem Covers.cell {k : Cell} (hcovers : c.Covers p) (hp : p.cell = k)
    (howner : c.env.ownerOf k.declaration = some c.callee) :
    ∃ q, c.places.get? k.id = some q ∧ c.cell k = q.cell := by
  subst hp
  exact ⟨c.place p, hcovers.get?_places howner, (c.cell_place p).symm⟩

end Copying

end Whittle.Ir
