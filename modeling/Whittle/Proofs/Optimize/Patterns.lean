import Mathlib.Data.List.Nodup
import Whittle.Proofs.Lowering.Patterns
import Whittle.Proofs.Optimize.Results

/-!
# Every pattern is taken once

In a lowered module a block makes the patterns that it takes, and takes each of them once.  Operations
keep it so: what is added takes patterns that are added with it, and what goes was taken by nobody.  Joins
come in the place of some variables that patterns bind; these are no longer patterns of the block, and a
function that is copied has no joins.

Main statement: `Module.Reached.taken_nodup`.
-/

namespace Whittle.Ir

/-- The instructions take no numbered version more often than they make it, be it to hold it in the end.
Where they are `strict`, they take nothing else. -/
structure TakesOnce (strict : Prop) (held : List Place) (is : List Instr) : Prop where
  once : ∀ p, p.cell.version.isNumbered = true →
    held.count p + (takenBy is).count p ≤ (offeredBy is).count p
  numbered : strict → ∀ p ∈ held ++ takenBy is, p.cell.version.isNumbered = true

section Lists

variable {strict strict' : Prop} {held : List Place} {is is' js : List Instr} {i : Instr}

theorem mem_offeredBy {p : Place} :
    p ∈ offeredBy is ↔ ∃ i ∈ is, i.op.category = .pattern ∧ i.place = p := by
  simp only [offeredBy, List.mem_flatMap, Instr.offers]
  refine exists_congr fun i => and_congr_right fun _ => ?_
  split
  · next h => simp [h, eq_comm]
  · next h => simp [h]

theorem offeredBy_sublist (is : List Instr) : (offeredBy is).Sublist (is.map (·.place)) := by
  induction is with
  | nil => exact .slnil
  | cons i is ih =>
    rw [offeredBy_cons, Instr.offers, List.map_cons]
    split
    · exact ih.cons_cons _
    · exact ih.cons _

theorem mem_takenBy {p : Place} : p ∈ takenBy is ↔ ∃ i ∈ is, p ∈ i.op.takes := List.mem_flatMap

theorem spares_iff : Spares held is ↔ (held ++ takenBy is).Subperm (offeredBy is) := by
  simp only [List.subperm_ext_iff, Spares, List.count_append]
  refine ⟨fun h p _ => h p, fun h p => ?_⟩
  by_cases hp : p ∈ held ++ takenBy is
  · exact h p hp
  · rw [← List.count_append, List.count_eq_zero.2 hp]
    exact Nat.zero_le _

theorem Spares.subset (h : Spares held is) : held ++ takenBy is ⊆ offeredBy is := (spares_iff.1 h).subset

theorem Spares.takesOnce (h : Spares held is) (his : ∀ i ∈ is, i.IsNumbered) :
    TakesOnce True held is := by
  refine ⟨fun p _ => h p, fun _ p hp => ?_⟩
  obtain ⟨i, hi, -, rfl⟩ := mem_offeredBy.1 (h.subset hp)
  exact his i hi

namespace TakesOnce

theorem mono (h : TakesOnce strict held is) (hstrict : strict' → strict) : TakesOnce strict' held is :=
  ⟨h.once, fun hs => h.numbered (hstrict hs)⟩

theorem congr (h : TakesOnce strict held is) (htaken : takenBy is' = takenBy is)
    (hoffered : offeredBy is' = offeredBy is) : TakesOnce strict held is' := by
  refine ⟨?_, ?_⟩
  · rw [htaken, hoffered]
    exact h.once
  · rw [htaken]
    exact h.numbered

theorem append (h : TakesOnce strict held is) (h' : TakesOnce strict [] js) :
    TakesOnce strict held (is ++ js) := by
  refine ⟨fun p hp => ?_, fun hs p hp => ?_⟩
  · have hle := h.once p hp
    have hle' := h'.once p hp
    rw [takenBy_append, offeredBy_append, List.count_append, List.count_append]
    rw [List.count_nil] at hle'
    omega
  · rw [takenBy_append, ← List.append_assoc] at hp
    exact (List.mem_append.1 hp).elim (h.numbered hs p) (h'.numbered hs p)

theorem mem_offeredBy (h : TakesOnce strict held is) {p : Place} (hp : p ∈ takenBy is)
    (hnumbered : p.cell.version.isNumbered = true) : p ∈ offeredBy is := by
  have hpos := List.count_pos_iff.2 hp
  have hle := h.once p hnumbered
  exact List.count_pos_iff.1 (by omega)

theorem perm (h : TakesOnce strict held is) (hperm : is'.Perm is) : TakesOnce strict held is' := by
  have htaken : (takenBy is').Perm (takenBy is) := hperm.flatMap_right fun i : Instr => i.op.takes
  have hoffered : (offeredBy is').Perm (offeredBy is) := hperm.flatMap_right Instr.offers
  refine ⟨fun p hp => ?_, fun hs p hp => ?_⟩
  · rw [htaken.count_eq, hoffered.count_eq]
    exact h.once p hp
  · exact h.numbered hs p ((htaken.append_left held).mem_iff.1 hp)

/-- What takes no pattern can be added. -/
theorem add (h : TakesOnce strict held is) (hperm : is'.Perm (js ++ is)) (hjs : takenBy js = []) :
    TakesOnce strict held is' := by
  have hnone : TakesOnce strict [] js := by
    refine ⟨fun p _ => ?_, ?_⟩
    · rw [hjs]
      exact Nat.zero_le _
    · rw [hjs]
      exact fun _ _ => List.not_mem_nil.elim
  exact (h.append hnone).perm (hperm.trans List.perm_append_comm)

/-- Code that takes numbered versions alone makes all that it takes. -/
theorem spares (h : TakesOnce True held is) : Spares held is := by
  intro p
  by_cases hp : p.cell.version.isNumbered = true
  · exact h.once p hp
  · rw [← List.count_append, List.count_eq_zero.2 fun hmem => hp (h.numbered trivial p hmem)]
    exact Nat.zero_le _

/-- What makes a pattern that is not taken can go. -/
theorem remove (h : TakesOnce strict [] (is ++ i :: js)) (hunread : i.place ∉ takenBy (is ++ js)) :
    TakesOnce strict [] (is ++ js) := by
  refine ⟨fun p hp => ?_, fun hs p hp => h.numbered hs p ?_⟩
  · have hle := h.once p hp
    by_cases heq : p = i.place
    · subst heq
      rw [List.count_eq_zero.2 hunread]
      exact Nat.zero_le _
    · have hnot : i.offers.count p = 0 := by
        rw [List.count_eq_zero, Instr.offers]
        split <;> simp [heq]
      simp only [takenBy_append, takenBy_cons, offeredBy_append, offeredBy_cons,
        List.count_append] at hle ⊢
      omega
  · simp only [takenBy_append, takenBy_cons, List.nil_append, List.mem_append] at hp ⊢
    exact hp.imp_right .inr

end TakesOnce

/-! ## What passes put in the place of instructions -/

/-- The operation has nothing to do with patterns. -/
structure Op.Patternless (op : Op) : Prop where
  takes : op.takes = []
  category : op.category ≠ .pattern

theorem Op.patternless_of_isFoldable {op : Op} (h : op.isFoldable = true) : op.Patternless := by
  cases op <;> first | cases h; done | exact ⟨rfl, nofun⟩

theorem Op.patternless_storeLocal (target value : Place) (kind : StoreKind) :
    (Op.storeLocal target value kind).Patternless := ⟨rfl, nofun⟩

theorem Op.patternless_copy (target value : Place) : (Op.copy target value).Patternless := ⟨rfl, nofun⟩

theorem Op.patternless_literal (value : Value) : (Op.literal value).Patternless := ⟨rfl, nofun⟩

/-- Code with the same patterns: only instructions that have nothing to do with patterns go or change. -/
inductive SamePatterns : List Instr → List Instr → Prop
  | nil : SamePatterns [] []
  | keep {is is' : List Instr} (i : Instr) : SamePatterns is is' → SamePatterns (i :: is) (i :: is')
  | change {is is' : List Instr} {i j : Instr} :
      i.op.Patternless → j.op.Patternless → SamePatterns is is' → SamePatterns (i :: is) (j :: is')
  | drop {is is' : List Instr} {i : Instr} :
      i.op.Patternless → SamePatterns is is' → SamePatterns (i :: is) is'

theorem SamePatterns.eq (h : SamePatterns is is') :
    takenBy is' = takenBy is ∧ offeredBy is' = offeredBy is := by
  have hoffers {i : Instr} (hi : i.op.Patternless) : i.offers = [] := if_neg hi.category
  induction h with
  | nil => exact ⟨rfl, rfl⟩
  | keep i _ ih => simp only [takenBy_cons, offeredBy_cons, ih, and_self]
  | change hi hj _ ih =>
    simp only [takenBy_cons, offeredBy_cons, ih, hi.takes, hj.takes, hoffers hi, hoffers hj, and_self]
  | drop hi _ ih =>
    simpa only [takenBy_cons, offeredBy_cons, hi.takes, hoffers hi, List.nil_append] using ih

theorem TakesOnce.samePatterns (h : TakesOnce strict held is) (hsame : SamePatterns is is') :
    TakesOnce strict held is' :=
  h.congr hsame.eq.1 hsame.eq.2

theorem Folds.samePatterns (h : Folds is is') : SamePatterns is is' := by
  obtain ⟨value?, hfoldable, rfl⟩ := h
  rw [replaceKnown]
  dsimp only
  induction is generalizing value? with
  | nil => exact .nil
  | cons i is ih =>
    rw [List.mapIdx_cons, List.map_cons]
    have hrest := ih (fun index => value? (index + 1)) fun index => hfoldable (index + 1)
    split
    · next v hv =>
      have hi := Op.patternless_of_isFoldable (hfoldable _ _ v hv)
      exact .change hi (Op.patternless_literal v) hrest
    · exact .keep i hrest

theorem samePatterns_forwardBlock (canSkip : Place → Place → Bool) (s : Forwarding) (is : List Instr) :
    SamePatterns is (forwardBlock canSkip s is).2 := by
  induction is generalizing s with
  | nil => exact .nil
  | cons i is ih =>
    rw [forwardBlock]
    split
    · exact .keep i (ih _)
    · next hop => exact .change (hop ▸ Op.patternless_storeLocal ..) (Op.patternless_storeLocal ..) (ih _)
    · next hop => exact .change (hop ▸ Op.patternless_copy ..) (Op.patternless_copy ..) (ih _)
    · exact .keep i (ih _)

theorem Omits.samePatterns {env : Environment} {unread : Place → Prop} {words : Legacy}
    (h : Omits env unread words is is') : SamePatterns is is' := by
  induction h with
  | nil => exact .nil
  | keep _ _ ih => exact .keep _ ih
  | store hop _ _ ih => exact .change (hop ▸ Op.patternless_storeLocal ..) (Op.patternless_storeLocal ..) ih
  | drop hop _ _ _ ih => exact .drop (hop ▸ Op.patternless_storeLocal ..) ih

theorem SamePatterns.refl : (is : List Instr) → SamePatterns is is
  | [] => .nil
  | i :: is => .keep i (refl is)

theorem SamePatterns.append_left (h : SamePatterns is is') : (before : List Instr) →
    SamePatterns (before ++ is) (before ++ is')
  | [] => h
  | i :: before => .keep i (h.append_left before)

/-! ## Redirected reads -/

theorem Instr.offers_mapReads (g : Place → Place) (i : Instr) : (i.mapReads g).offers = i.offers := by
  rw [offers, offers, mapReads, Op.category_mapReads]

theorem takenBy_mapReads (g : Place → Place) (is : List Instr) :
    takenBy (is.map (·.mapReads g)) = (takenBy is).map g := by
  rw [takenBy, List.flatMap_map, takenBy, List.map_flatMap]
  exact List.flatMap_congr fun i _ => Op.takes_mapReads g i.op

theorem offeredBy_mapReads (g : Place → Place) (is : List Instr) :
    offeredBy (is.map (·.mapReads g)) = offeredBy is := by
  rw [offeredBy, List.flatMap_map]
  exact List.flatMap_congr fun i _ => i.offers_mapReads g

/-- What is taken stays. -/
theorem TakesOnce.mapReads (h : TakesOnce strict held is) {g : Place → Place}
    (hg : ∀ p ∈ takenBy is, g p = p) : TakesOnce strict held (is.map (·.mapReads g)) := by
  refine h.congr ?_ (offeredBy_mapReads g is)
  rw [takenBy_mapReads, List.map_congr_left hg, List.map_id']

/-! Joins come in the place of some variables. -/

variable {g : Place → Place} {change : Nat → Instr → Instr}

theorem offeredBy_mapIdx (hchange : ∀ index i, change index i = i ∨ change index i = i.mapReads g) :
    offeredBy (is.mapIdx change) = offeredBy is := by
  induction is generalizing change with
  | nil => rfl
  | cons i is ih =>
    rw [List.mapIdx_cons, offeredBy_cons, offeredBy_cons, ih fun index => hchange (index + 1)]
    obtain hi | hi := hchange 0 i <;> rw [hi]
    rw [Instr.offers_mapReads]

theorem count_takes_mapReads {p : Place} (hg : ∀ q, g q = p → p = q) (i : Instr) :
    (i.mapReads g).op.takes.count p ≤ i.op.takes.count p := by
  rw [Instr.mapReads, Op.takes_mapReads, List.count, List.countP_map]
  refine List.countP_mono_left fun q _ hq => ?_
  rw [Function.comp_apply, beq_iff_eq] at hq
  exact beq_iff_eq.2 (hg q hq).symm

theorem count_takenBy_mapIdx (hchange : ∀ index i, change index i = i ∨ change index i = i.mapReads g)
    {p : Place} (hg : ∀ q, g q = p → p = q) :
    (takenBy (is.mapIdx change)).count p ≤ (takenBy is).count p := by
  induction is generalizing change with
  | nil => exact Nat.le_refl _
  | cons i is ih =>
    have hrest := ih fun index => hchange (index + 1)
    have hfirst : (change 0 i).op.takes.count p ≤ i.op.takes.count p := by
      obtain hi | hi := hchange 0 i <;> rw [hi]
      exact count_takes_mapReads hg i
    rw [List.mapIdx_cons, takenBy_cons, takenBy_cons, List.count_append, List.count_append]
    omega

/-- A join is no numbered version, so what is taken of these does not become more. -/
theorem TakesOnce.mapIdx (h : TakesOnce False [] is)
    (hg : ∀ p, (g p).cell.version.isNumbered = true → g p = p)
    (hchange : ∀ index i, change index i = i ∨ change index i = i.mapReads g) :
    TakesOnce False [] (is.mapIdx change) := by
  refine ⟨fun p hp => ?_, False.elim⟩
  have htaken : (takenBy (is.mapIdx change)).count p ≤ (takenBy is).count p :=
    count_takenBy_mapIdx hchange fun q hq => hq.symm.trans (hg q (hq ▸ hp))
  rw [offeredBy_mapIdx hchange]
  exact (Nat.add_le_add_left htaken _).trans (h.once p hp)

end Lists

theorem takesOnce_nil {strict : Prop} : TakesOnce strict [] [] :=
  ⟨fun _ _ => Nat.le_refl _, fun _ _ => List.not_mem_nil.elim⟩

/-- Code that is put together from pieces. -/
theorem takesOnce_flatMap {α : Type} {strict : Prop} {xs : List α} {code : α → List Instr}
    (h : ∀ x ∈ xs, TakesOnce strict [] (code x)) : TakesOnce strict [] (xs.flatMap code) := by
  induction xs with
  | nil => exact takesOnce_nil
  | cons x xs ih =>
    obtain ⟨hx, hxs⟩ := List.forall_mem_cons.1 h
    exact hx.append (ih hxs)

/-! ## Functions -/

/-- All code of a function takes its patterns once; the header holds the parameters. -/
structure Function.TakesOnce (strict : Prop) (f : Function) : Prop where
  header : Ir.TakesOnce strict f.params f.header
  blocks : ∀ b block, f.blocks.get? b = some block → Ir.TakesOnce strict [] block.instructions

namespace Function

variable {strict strict' : Prop} {f f' : Function} {env env' : Environment}

namespace TakesOnce

theorem mono (h : f.TakesOnce strict) (hstrict : strict' → strict) : f.TakesOnce strict' :=
  ⟨h.header.mono hstrict, fun b block hb => (h.blocks b block hb).mono hstrict⟩

theorem setBlock (h : f.TakesOnce strict) (id : BlockId) {b : Block}
    (hb : Ir.TakesOnce strict [] b.instructions) : (f.setBlock id b).TakesOnce strict :=
  ⟨h.header, forall_setBlock h.blocks id hb⟩

theorem mapBlocks (h : f.TakesOnce strict) {g : BlockId → Block → Block}
    (hg : ∀ id b, f.blocks.get? id = some b → Ir.TakesOnce strict [] (g id b).instructions) :
    (f.mapBlocks g).TakesOnce strict :=
  ⟨h.header, forall_mapBlocks hg⟩

theorem reworks {R : List Instr → List Instr → Prop} (h : f.TakesOnce strict) (hf : f.Reworks R f')
    (hR : ∀ is is', R is is' → SamePatterns is is') : f'.TakesOnce strict := by
  obtain ⟨change, rfl, hchange⟩ := hf
  exact h.mapBlocks fun id b hb => (h.blocks id b hb).samePatterns (hR _ _ (hchange id b hb).2)

theorem dropUnreachable (h : f.TakesOnce strict) : f.dropUnreachable.2.TakesOnce strict := by
  rw [dropUnreachable_eq]
  exact ⟨h.header, forall_dropUnreachable h.blocks⟩

theorem merge (h : f.TakesOnce strict) {target source : BlockId} {merged : Block}
    (hmerged : f.blocks.get? source = some merged) : (f.merge target source merged).TakesOnce strict :=
  ⟨h.header, forall_merge h.blocks fun _ hb => hb.append (h.blocks _ _ hmerged)⟩

/-- What stands for a join takes no pattern, and reads of the join are of no numbered version. -/
theorem survives {phi : Phi} (hjoined : phi.place.cell.version.isNumbered = false) :
    Survives (fun f _ => f.TakesOnce False) phi where
  store := by
    intro f env first hf _
    refine ⟨hf.header, forall_withStore hf.blocks fun b hb => ?_⟩
    have hperm := insertBehind_perm (·.defined.contains first.place)
      (env.newInstr f.id (.storeLocal phi.place first.place .reassign)).1 b.instructions
    rw [← List.singleton_append] at hperm
    exact hb.add hperm rfl
  redirect := by
    intro f env hf
    refine hf.mapBlocks fun id b hb => ?_
    split
    · refine (hf.blocks id b hb).mapIdx ?_ fun index i => (ite_eq_or_eq ..).symm
      intro p hp
      split at hp
      · cases hjoined.symm.trans hp
      · next hoperand => exact if_neg hoperand
    · exact hf.blocks id b hb
  copy := by
    intro f env predecessor operand b hf _ hb
    exact hf.setBlock _ ((hf.blocks _ _ hb).add List.perm_append_comm rfl)

theorem eliminateSsa (h : f.TakesOnce f.Straight) (hplain : f.Straight → f.Plain)
    (hphis : ∀ phi ∈ f.phis, phi.place.cell.version.isNumbered = false)
    (hout : f.eliminateSsa env = .ok (f', env')) : f'.TakesOnce f'.Straight := by
  by_cases hstraight : f.Straight
  · obtain rfl := eliminateSsa_of_size_le_one (hplain hstraight).phis hout
    have hbefore := h.mono fun _ : ({ f with phis := [] } : Function).Straight => hstraight
    exact ⟨hbefore.header, hbefore.blocks⟩
  · have hf' : f'.TakesOnce False := by
      have hbefore : f.TakesOnce False := h.mono False.elim
      apply eliminateSsa_induction (fun phi hphi _ => survives (hphis phi hphi)) _ hout
      exact ⟨hbefore.header, hbefore.blocks⟩
    exact hf'.mono fun hstraight' => hstraight ((sameFlow_eliminateSsa hout).straight hstraight')

end TakesOnce

end Function

/-! ## Copies -/

theorem Op.takes_mapPlaces (g : Place → Place) (op : Op) : (op.mapPlaces g).takes = op.takes.map g := by
  have hreads : (op.mapPlaces g).takes = (op.mapReads g).takes := by cases op <;> rfl
  rw [hreads, takes_mapReads]

theorem Op.category_mapPlaces (g : Place → Place) (op : Op) : (op.mapPlaces g).category = op.category := by
  cases op <;> rfl

/-- Copies of code that makes what it takes do so. -/
theorem Copying.spares {c : Copying} {held : List Place} {is js : List Instr} (h : Spares held is)
    (hcopies : List.Forall₂ c.IsCopy is js) : Spares (held.map c.place) js := by
  have hjs : takenBy js = (takenBy is).map c.place ∧ offeredBy js = (offeredBy is).map c.place := by
    clear h
    induction hcopies with
    | nil => exact ⟨rfl, rfl⟩
    | @cons i j is js hij _ ih =>
      have hoffers : j.offers = i.offers.map c.place := by
        rw [Instr.offers, Instr.offers, hij.op, Op.category_mapPlaces, hij.place]
        split <;> rfl
      simp only [takenBy_cons, offeredBy_cons, List.map_append, ih, hij.op, Op.takes_mapPlaces, hoffers,
        and_self]
  obtain ⟨ps, hperm, hsub⟩ := spares_iff.1 h
  rw [spares_iff, hjs.1, hjs.2, ← List.map_append]
  exact ⟨ps.map c.place, hperm.map c.place, hsub.map c.place⟩

/-- What takes the cell of a result takes a numbered version. -/
theorem Module.Reached.isNumbered_taken {m : Module} {env : Environment} (h : m.Reached env) {i j : Instr}
    (hi : i ∈ m.instructions) (hj : j ∈ m.instructions) {p : Place} (hp : p ∈ j.op.takes)
    (hid : p.cell.id = i.place.cell.id) : p.cell.version.isNumbered = true := by
  have hcell : p.cell = i.place.cell :=
    h.discerns p (m.places_of_instr hj (List.mem_append_left _ (j.op.takes_subset_reads hp)))
      _ (m.places_of_instr hi i.place_mem_places) hid
  exact hcell ▸ h.isNumbered hi

/-- Only patterns are taken, so nobody takes what another instruction computes. -/
theorem Module.Reached.taken_ne {m : Module} {env : Environment} (h : m.Reached env) {strict : Prop}
    {f : Function} (hf : f ∈ m.functions.values) {b : Block} (hb : b ∈ f.blocks.values)
    (htakes : TakesOnce strict [] b.instructions) {p : Place} (hp : p ∈ takenBy b.instructions) {i : Instr}
    (hi : i ∈ m.instructions) (hpattern : i.op.category ≠ .pattern) : p.cell.id ≠ i.place.cell.id := by
  intro hid
  have hmem {j : Instr} (hj : j ∈ b.instructions) : j ∈ m.instructions :=
    List.mem_flatMap.2 ⟨f, hf, List.mem_append_right _ (List.mem_flatMap.2 ⟨b, hb, hj⟩)⟩
  obtain ⟨k, hk, hpk⟩ := mem_takenBy.1 hp
  have hnumbered := h.isNumbered_taken hi (hmem hk) hpk hid
  obtain ⟨j, hj, hcategory, rfl⟩ := mem_offeredBy.1 (htakes.mem_offeredBy hp hnumbered)
  obtain rfl := List.inj_on_of_nodup_map h.results_nodup (hmem hj) hi hid
  exact hpattern hcategory

namespace Splice

variable {m : Module} {env : Environment} {start : List Cell} (s : Splice m env start)

/-- The pattern of the parameters takes them from the header. -/
theorem spares_main (h : s.callee.TakesOnce True) : Spares [] s.main := by
  have hheader := Copying.spares h.header.spares s.expands.header
  have hcode : Ir.TakesOnce True [] s.toInlining.code := by
    refine takesOnce_flatMap fun b hb => ?_
    obtain ⟨id, hb⟩ := Table.mem_values.1 (s.copyable.body b hb)
    exact h.blocks id b hb
  have hbody := Copying.spares hcode.spares s.expands.body
  have hpattern : s.pattern.op.takes = s.callee.params.map s.copying.place := by
    rw [s.expands.pattern_op, Op.takes, List.flatMap_map]
    exact List.map_eq_flatMap.symm
  have hoffers : s.pattern.offers = [s.pattern.place] := by
    rw [Instr.offers, s.expands.pattern_op]
    rfl
  have hbind : s.bind.op.takes = [s.pattern.place] := by rw [s.expands.bind_op, Op.takes]
  have harray : s.array.op.takes = [] := by rw [s.expands.array_op]; rfl
  intro p
  have hp := hheader p
  have hp' := hbody p
  simp only [main, takenBy_nil, takenBy_cons, takenBy_append, offeredBy_nil, offeredBy_cons,
    offeredBy_append, harray, hpattern, hbind, hoffers, List.map_nil, List.count_nil,
    List.count_append] at hp' ⊢
  omega

theorem patternless_call : s.call.op.Patternless := s.call_op ▸ ⟨rfl, nofun⟩

/-- The block of the call with all that stands in the place of the call. -/
theorem takesOnce_instructions {strict : Prop} (h : Ir.TakesOnce strict [] s.block.instructions)
    (hcallee : s.callee.TakesOnce True) : Ir.TakesOnce strict [] s.instructions ∧
      ∀ p ∈ takenBy s.instructions, p ∈ takenBy s.block.instructions ∨ p ∈ takenBy s.main := by
  have hsame : SamePatterns s.block.instructions (s.block.instructions.take s.site.index ++
      (s.closing s.call ++ s.block.instructions.drop (s.site.index + 1))) := by
    conv => enter [1]; rw [s.block_eq]
    refine SamePatterns.append_left ?_ _
    rw [Inlining.closing]
    cases returned? s.body with
    | none => exact .change s.patternless_call (Op.patternless_literal _) (.refl _)
    | some p => exact .drop s.patternless_call (.refl _)
  have hmain : Ir.TakesOnce strict [] s.main := by
    refine ((s.spares_main hcallee).takesOnce fun i hi => ?_).mono fun _ => trivial
    exact s.isNumbered_main s.expands.goes.env.logs _ (List.mem_flatMap.2 ⟨i, hi, List.mem_cons_self⟩)
  have hperm : s.instructions.Perm (s.block.instructions.take s.site.index ++
      (s.closing s.call ++ s.block.instructions.drop (s.site.index + 1)) ++ s.main) := by
    rw [s.instructions_eq, List.append_assoc]
    exact List.perm_append_comm.append_left _
  refine ⟨((h.samePatterns hsame).append hmain).perm hperm, fun p hp => ?_⟩
  have htaken := (hperm.flatMap_right fun i : Instr => i.op.takes).mem_iff.1 hp
  rw [← takenBy, takenBy_append, hsame.eq.1] at htaken
  exact List.mem_append.1 htaken

/-- Nobody takes the value of the call. -/
theorem redirect_taken {strict : Prop} (hreached : m.Reached env) (hall : m.AllUse env start)
    (hcallee : s.callee.TakesOnce True)
    {b : Block} (hb : b ∈ s.caller.blocks.values) (htakes : Ir.TakesOnce strict [] b.instructions)
    {p : Place} (hp : p ∈ takenBy b.instructions ∨ p ∈ takenBy s.main) :
    redirect s.call.place s.result p = p := by
  refine redirect_of_ne _ ?_
  have hcaller : s.caller ∈ m.functions.values := Table.mem_values.2 ⟨_, s.caller_mem⟩
  have hcall : s.call ∈ m.instructions := List.mem_flatMap.2 ⟨s.caller, hcaller, List.mem_append_right _
    (List.mem_flatMap.2 ⟨s.block, Table.mem_values.2 ⟨_, s.block_mem⟩, s.call_mem_block⟩)⟩
  rcases hp with hp | hp
  · exact hreached.taken_ne hcaller hb htakes hp hcall s.patternless_call.category
  · -- what the copy takes is new
    obtain ⟨j, hj, -, rfl⟩ := mem_offeredBy.1 ((s.spares_main hcallee).subset hp)
    have hnew := (s.between_main (List.mem_flatMap.2 ⟨j, hj, List.mem_cons_self⟩)).1
    have hold := (s.copyable.logs.has (hall.isOf hcall s.call.place_mem_places)).1
    intro hid
    rw [hid] at hnew
    omega

/-- The caller takes its patterns once, and those of the copy. -/
theorem takesOnce_replaced {strict : Prop} (hreached : m.Reached env) (hall : m.AllUse env start)
    (hcaller : s.caller.TakesOnce strict) (hcallee : s.callee.TakesOnce True) :
    s.replaced.TakesOnce strict := by
  have hspliced : ∀ id b, s.spliced.blocks.get? id = some b → Ir.TakesOnce strict [] b.instructions ∧
      ∀ p ∈ takenBy b.instructions, redirect s.call.place s.result p = p := by
    refine Function.forall_setBlock (fun id b hb => ?_) _ ?_
    · have htakes := hcaller.blocks id b hb
      exact ⟨htakes, fun p hp => s.redirect_taken hreached hall hcallee
        (Table.mem_values.2 ⟨id, hb⟩) htakes (.inl hp)⟩
    · have htakes := hcaller.blocks _ _ s.block_mem
      obtain ⟨honce, htaken⟩ := s.takesOnce_instructions htakes hcallee
      exact ⟨honce, fun p hp => s.redirect_taken hreached hall hcallee
        (Table.mem_values.2 ⟨_, s.block_mem⟩) htakes (htaken p hp)⟩
  exact ⟨hcaller.header, Function.forall_mapBlocks fun id b hb =>
    (hspliced id b hb).1.mapReads (hspliced id b hb).2⟩

end Splice

/-! ## Modules -/

theorem Function.TakesOnce.instructions {strict : Prop} {f : Function} (h : f.TakesOnce strict) :
    Ir.TakesOnce strict f.params f.instructions := by
  refine h.header.append (takesOnce_flatMap fun b hb => ?_)
  obtain ⟨id, hb⟩ := Table.mem_values.1 hb
  exact h.blocks id b hb

namespace Module

variable {m m' : Module} {env env' : Environment} {cells : List Cell} {id : FuncId} {f : Function}

/-- All functions of a module take their patterns once, and those that may be copied take numbered versions
alone. -/
def TakesOnce (m : Module) : Prop := ∀ id f, m.functions.get? id = some f → f.TakesOnce f.Straight

theorem TakesOnce.setFunction (h : m.TakesOnce) (hf : f.TakesOnce f.Straight) :
    (m.setFunction id f).TakesOnce := by
  intro id' f' hf'
  rw [get?_setFunction] at hf'
  split at hf'
  · exact Option.some.inj hf' ▸ hf
  · exact h id' f' hf'

theorem TakesOnce.reworks {R : List Instr → List Instr → Prop} (h : m.TakesOnce) (hm : m.Reworks R m')
    (hR : ∀ is is', R is is' → SamePatterns is is') : m'.TakesOnce := by
  intro id f' hf'
  obtain ⟨f, hf, hreworks⟩ := hm.get? hf'
  exact ((h id f hf).reworks hreworks hR).mono hreworks.sameFlow.straight

theorem TakesOnce.sweepDead (h : m.TakesOnce) : (m.sweepDead env).2.TakesOnce := by
  apply sweepDead_removals _ h
  intro m id f b block before i after hm hf hb hinstrs hunread
  have htakes := (hm id f hf).blocks b block hb
  rw [hinstrs] at htakes
  have hkept : i.place ∉ takenBy (before ++ after) := by
    intro hp
    obtain ⟨j, hj, hp⟩ := mem_takenBy.1 hp
    have hold : j ∈ block.instructions :=
      hinstrs ▸ ((List.sublist_cons_self i after).append_left before).subset hj
    have hmem : j ∈ f.instructions :=
      List.mem_append_right _ (List.mem_flatMap.2 ⟨block, Table.mem_values.2 ⟨b, hb⟩, hold⟩)
    have hread : i.place ∈ m.reads := List.mem_flatMap.2 ⟨f, Table.mem_values.2 ⟨id, hf⟩,
      List.mem_append_left _ (List.mem_flatMap.2 ⟨j, hmem, j.op.takes_subset_reads hp⟩)⟩
    exact hunread i.place List.mem_cons_self (List.mem_map_of_mem hread)
  exact hm.setFunction (((hm id f hf).setBlock b (htakes.remove hkept)).mono
    (Function.SameFlow.withInstructions hb _).straight)

theorem TakesOnce.mergeBlocks (h : m.TakesOnce) : (m.mergeBlocks env).2.1.TakesOnce := by
  refine mergeBlocks_induction (P := fun m _ => m.TakesOnce) ?_ ?_ h
  · intro m env id f hm hf
    exact hm.setFunction ((hm id f hf).dropUnreachable.mono Function.straight_of_dropUnreachable)
  · intro m env id f target source merged hm hf hmergeable hmerged
    exact hm.setFunction (((hm id f hf).merge hmerged).mono (Function.straight_of_merge hmergeable hmerged))

theorem TakesOnce.inlineOne (h : m.TakesOnce) (hreached : m.Reached env) (cache : RecursionCache) :
    (m.inlineOne env cache).2.1.TakesOnce := by
  obtain ⟨cells, hlogs, hall⟩ := hreached.coherent
  rcases hinline : m.inlineOne env cache with ⟨changed, m', env', cache'⟩
  cases changed with
  | false =>
    obtain ⟨rfl, rfl⟩ := inlineOne_eq_false hinline
    exact h
  | true =>
    obtain ⟨s, rfl, rfl⟩ := exists_splice hall hlogs hinline
    have hstraight := (Function.straightBody?_eq_some (smallBody?_eq_some s.small).1).1
    have hcallee : s.callee.TakesOnce True := (h _ _ s.callee_mem).mono fun _ => hstraight
    exact h.setFunction ((s.takesOnce_replaced hreached hall (h _ _ s.caller_mem) hcallee).mono
      s.sameFlow_replaced.straight)

end Module

theorem Pass.takesOnce_step {w : Workbench} (h : w.module.TakesOnce) (hreached : w.module.Reached w.env)
    (pass : Pass) : (pass.step w).2.module.TakesOnce := by
  cases pass with
  | inlining => exact h.inlineOne hreached w.recursion
  | propagation =>
    exact h.reworks (w.module.reworks_propagateConstants w.env w.constants) fun _ _ => Folds.samePatterns
  | forwarding =>
    apply h.reworks (w.module.reworks_forwardStores w.env)
    rintro is _ ⟨canSkip, -, rfl⟩
    exact samePatterns_forwardBlock canSkip {} is
  | overwriting =>
    apply h.reworks (w.module.reworks_dropOverwritten w.env)
    rintro is _ rfl
    exact (omits_dropOverwritten w.env _ is).samePatterns
  | sweeping => exact h.sweepDead
  | merging => exact h.mergeBlocks

namespace Module

variable {m m' : Module} {env env' : Environment}

theorem TakesOnce.next (h : m.TakesOnce) (hreached : m.Reached env) (hop : Operation m env m' env') :
    m'.TakesOnce := by
  cases hop with
  | resolve globals => exact h
  | @buildSsa _ _ f _ hf =>
    have hbuilt : (f.buildSsa env).1.TakesOnce f.Straight := ⟨(h _ _ hf).header, (h _ _ hf).blocks⟩
    exact h.setFunction (hbuilt.mono (f.sameFlow_buildSsa env).straight)
  | @eliminateSsa _ _ f _ _ _ hf hout =>
    obtain ⟨cells, -, hall⟩ := hreached.coherent
    exact h.setFunction ((h _ _ hf).eliminateSsa (hreached.numberedOnce.plain _ _ hf)
      (fun phi hphi => ((hall _ _ hf).phis phi hphi).joined) hout)
  | step w pass => exact pass.takesOnce_step h hreached

/-- Whatever operations have led to a module, its functions take their patterns once. -/
theorem Reached.takesOnce (h : m.Reached env) : m.TakesOnce := by
  induction h with
  | lower hlower =>
    intro id f hf
    have hspares := Syntax.Module.spares_lower hlower hf
    have hnumbered := numbered_lower hlower id f hf
    have hheader := (hspares.header.takesOnce hnumbered.header).mono fun _ : f.Straight => trivial
    rw [List.append_nil] at hheader
    exact ⟨hheader, fun b block hb =>
      ((hspares.blocks b block hb).takesOnce (hnumbered.blocks b block hb)).mono fun _ => trivial⟩
  | next hreached hop ih => exact ih.next hreached hop

/-- Whatever operations have led to a module, no numbered version is taken twice. -/
theorem Reached.taken_nodup (h : m.Reached env) : (numberedCells (takenBy m.instructions)).Nodup := by
  have hmodule : Ir.TakesOnce False [] m.instructions := by
    refine takesOnce_flatMap fun f hf => ?_
    obtain ⟨id, hf⟩ := Table.mem_values.1 hf
    obtain ⟨honce, -⟩ := (h.takesOnce id f hf).instructions
    exact ⟨fun p hp => by have := honce p hp; rw [List.count_nil]; omega, False.elim⟩
  have hsub : ((takenBy m.instructions).filter (·.cell.version.isNumbered)).Subperm
      (m.instructions.map (·.place)) := by
    refine (List.subperm_ext_iff.2 fun p hp => ?_).trans (offeredBy_sublist _).subperm
    have hnumbered : p.cell.version.isNumbered = true := (List.mem_filter.1 hp).2
    have honce := hmodule.once p hnumbered
    rw [List.count_nil, Nat.zero_add] at honce
    exact (List.filter_sublist.count_le p).trans honce
  obtain ⟨ps, hperm, hsub⟩ := hsub
  refine (hperm.map _).nodup_iff.1 (List.Nodup.sublist (hsub.map _) ?_)
  rw [List.map_map]
  exact h.results_nodup

end Module

end Whittle.Ir
