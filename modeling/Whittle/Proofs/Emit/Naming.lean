import Mathlib.Data.Finset.Card
import Mathlib.Data.List.Nodup
import Mathlib.Data.Nat.Find
import Mathlib.Tactic.Common
import Std.Data.String.ToNat
import Whittle.Emit.Module
import Whittle.Proofs.Flow.Predecessors
import Whittle.Proofs.Lowering.Tree

/-!
# Names never capture

Names are given function by function, the functions around one first.  A function sees variables of
its own and of the functions around it; among those that it or a function inside it refers to, no two
get one name, and none gets a name that the module uses without declaring it.

Main statement: `Names.assign_apart`.
-/

namespace Whittle.Emit

open Ir

/-! ## Searching for a name -/

/-- The first candidate, from `start` on, that is not taken. -/
structure IsFirstFree (taken : KeySet String) (candidate : Nat → String) (start n : Nat) : Prop where
  le : start ≤ n
  free : taken.contains (candidate n) = false
  skipped : ∀ k, start ≤ k → k < n → taken.contains (candidate k) = true

namespace IsFirstFree

variable {taken : KeySet String} {candidate : Nat → String} {start n n' : Nat}

theorem unique (h : IsFirstFree taken candidate start n) (h' : IsFirstFree taken candidate start n') :
    n = n' := by
  by_contra hne
  rcases Nat.lt_or_gt_of_ne hne with hlt | hlt
  · have := h'.skipped n h.le hlt
    rw [h.free] at this
    cases this
  · have := h.skipped n' h'.le hlt
    rw [h'.free] at this
    cases this

/-- A taken candidate is skipped. -/
theorem of_succ (h : IsFirstFree taken candidate (start + 1) n)
    (htaken : taken.contains (candidate start) = true) : IsFirstFree taken candidate start n := by
  refine ⟨Nat.le_of_succ_le h.le, h.free, fun k hle hlt => ?_⟩
  rcases Nat.eq_or_lt_of_le hle with rfl | hle
  · exact htaken
  · exact h.skipped k hle hlt

end IsFirstFree

/-- Among different candidates, one more than there are names taken, one is free. -/
theorem exists_isFirstFree (taken : KeySet String) {candidate : Nat → String}
    (hcandidate : ∀ i j, candidate i = candidate j → i = j) (start : Nat) :
    ∃ n, IsFirstFree taken candidate start n ∧ n < start + taken.size + 1 := by
  have hfree : ∃ k, taken.contains (candidate (start + k)) = false ∧ k < taken.size + 1 := by
    by_contra hall
    have hmem : ∀ name ∈ (List.range (taken.size + 1)).map fun k => candidate (start + k),
        name ∈ taken.keys := by
      intro name hname
      obtain ⟨k, hk, rfl⟩ := List.mem_map.1 hname
      rw [Table.mem_keys]
      by_contra hnot
      exact hall ⟨k, Bool.eq_false_iff.2 hnot, List.mem_range.1 hk⟩
    have hnodup : ((List.range (taken.size + 1)).map fun k => candidate (start + k)).Nodup := by
      refine List.Nodup.map (fun i j hij => ?_) List.nodup_range
      exact Nat.add_left_cancel (hcandidate _ _ hij)
    have hlength := (List.subperm_of_subset hnodup hmem).length_le
    rw [List.length_map, List.length_range, Table.length_keys] at hlength
    omega
  classical
  have hspec := Nat.find_spec hfree
  refine ⟨start + Nat.find hfree, ⟨Nat.le_add_right _ _, hspec.1, fun k hle hlt => ?_⟩, by omega⟩
  have hmin := Nat.find_min hfree (m := k - start) (by omega)
  rw [Nat.add_sub_cancel' hle] at hmin
  by_contra hnot
  exact hmin ⟨Bool.eq_false_iff.2 hnot, by omega⟩

/-- What a variable may be called: its own name, then that name with a number. -/
def suffixed (base : String) : Nat → String
  | 0 => base
  | n + 1 => base ++ "_" ++ toString (n + 1)

theorem suffixed_injective (base : String) (i j : Nat) (h : suffixed base i = suffixed base j) :
    i = j := by
  have hlonger (n : Nat) : base ≠ base ++ "_" ++ toString n := by
    intro heq
    have hlength := congrArg String.length heq
    simp only [String.length_append] at hlength
    have hmark : "_".length = 1 := rfl
    omega
  cases i with
  | zero =>
    cases j with
    | zero => rfl
    | succ j => exact absurd h (hlonger _)
  | succ i =>
    cases j with
    | zero => exact absurd h.symm (hlonger _)
    | succ j => exact Nat.repr_inj.1 (String.append_right_inj _ |>.1 h)

/-- What a temporary may be called. -/
def numbered (n : Nat) : String := "_t" ++ toString n

theorem numbered_injective (i j : Nat) (h : numbered i = numbered j) : i = j :=
  Nat.repr_inj.1 (String.append_right_inj _ |>.1 h)

theorem unusedName_go {scope : KeySet String} {base : String} {fuel start n : Nat}
    (h : IsFirstFree scope (suffixed base) (start + 1) n) (hn : n < start + 1 + fuel) :
    unusedName.go scope base fuel (start + 1) = suffixed base n := by
  induction fuel generalizing start with
  | zero =>
    have := h.le
    omega
  | succ fuel ih =>
    rw [unusedName.go]
    split
    case isTrue htaken =>
      have hne : n ≠ start + 1 := by
        rintro rfl
        have hfree := h.free
        rw [suffixed, htaken] at hfree
        cases hfree
      have hle := h.le
      exact ih ⟨by omega, h.free, fun k hk => h.skipped k (by omega)⟩ (by omega)
    case isFalse hfree =>
      have hstart : IsFirstFree scope (suffixed base) (start + 1) (start + 1) :=
        ⟨Nat.le_refl _, Bool.eq_false_iff.2 hfree, fun k hle hlt => by omega⟩
      rw [← hstart.unique h]
      rfl

/-- The search for a name ends, at the first one that is not in scope. -/
theorem exists_unusedName (scope : KeySet String) (base : String) :
    ∃ n, IsFirstFree scope (suffixed base) 0 n ∧ unusedName scope base = suffixed base n := by
  rw [unusedName]
  split
  case isTrue htaken =>
    obtain ⟨n, hn, hlt⟩ := exists_isFirstFree scope (suffixed_injective base) 1
    exact ⟨n, hn.of_succ htaken, unusedName_go hn (by omega)⟩
  case isFalse hfree =>
    exact ⟨0, ⟨Nat.le_refl _, Bool.eq_false_iff.2 hfree, fun k _ hlt => absurd hlt (Nat.not_lt_zero k)⟩,
      rfl⟩

theorem unusedName_not_in_scope (scope : KeySet String) (base : String) :
    scope.contains (unusedName scope base) = false := by
  obtain ⟨n, hn, heq⟩ := exists_unusedName scope base
  rw [heq]
  exact hn.free

namespace Names

theorem temporary_go {names : Names} {fuel start n : Nat}
    (h : IsFirstFree names.taken numbered start n) (hn : n < start + fuel) :
    temporary.go names fuel start =
      (numbered n, { names with taken := KeySet.add names.taken (numbered n), nextTemporary := n + 1 }) := by
  induction fuel generalizing start with
  | zero =>
    have := h.le
    omega
  | succ fuel ih =>
    rw [temporary.go]
    split
    case isTrue htaken =>
      have hne : n ≠ start := by
        rintro rfl
        have hfree := h.free
        rw [numbered, htaken] at hfree
        cases hfree
      have hle := h.le
      exact ih ⟨by omega, h.free, fun k hk => h.skipped k (by omega)⟩ (by omega)
    case isFalse hfree =>
      obtain rfl : start = n := IsFirstFree.unique
        ⟨Nat.le_refl _, Bool.eq_false_iff.2 hfree, fun k hle hlt => by omega⟩ h
      rfl

/-- A temporary gets the first name, from the next number on, that is not taken. -/
theorem exists_temporary (names : Names) : ∃ n, IsFirstFree names.taken numbered names.nextTemporary n ∧
    names.temporary = (numbered n,
      { names with taken := KeySet.add names.taken (numbered n), nextTemporary := n + 1 }) := by
  obtain ⟨n, hn, hlt⟩ := exists_isFirstFree names.taken numbered_injective names.nextTemporary
  exact ⟨n, hn, temporary_go hn (by omega)⟩

/-- The names when the given number of temporaries have been named. -/
def after (names : Names) : Nat → Names
  | 0 => names
  | n + 1 => (names.after n).temporary.2

theorem taken_after_mono (names : Names) {name : String} {k n : Nat} (hle : k ≤ n)
    (h : (names.after k).taken.contains name = true) : (names.after n).taken.contains name = true := by
  induction n, hle using Nat.le_induction with
  | base => exact h
  | succ n _ ih =>
    obtain ⟨i, _, heq⟩ := (names.after n).exists_temporary
    rw [after, heq]
    simp [ih]

theorem temporary_not_taken (names : Names) : names.taken.contains names.temporary.1 = false := by
  obtain ⟨n, hn, heq⟩ := names.exists_temporary
  rw [heq]
  exact hn.free

/-- A temporary gets a name that was not taken before. -/
theorem temporary_after_ne (names : Names) {name : String} {k n : Nat} (hle : k ≤ n)
    (h : (names.after k).taken.contains name = true) : (names.after n).temporary.1 ≠ name := by
  rintro rfl
  have hnot := (names.after n).temporary_not_taken
  rw [names.taken_after_mono hle h] at hnot
  cases hnot

theorem taken_temporary (names : Names) : names.temporary.2.taken.contains names.temporary.1 = true := by
  obtain ⟨n, -, heq⟩ := names.exists_temporary
  simp [heq]

end Names



/-! ## Functions inside functions -/

/-- The function that a function of the module stands in. -/
def parent? (m : Module) (f : FuncId) : Option FuncId := (m.functions.get? f).bind (·.parent)

/-- The second function is the first, a function of the module, or lies inside it. -/
inductive Inside (m : Module) (outer : FuncId) : FuncId → Prop
  | self : m.functions.contains outer = true → Inside m outer outer
  | nested {f parent : FuncId} : parent? m f = some parent → Inside m outer parent → Inside m outer f

/-- A complete walk from a function to the outermost one around it. -/
inductive Climbs (m : Module) : FuncId → List FuncId → Prop
  | top {f : FuncId} : parent? m f = none → Climbs m f [f]
  | up {f parent : FuncId} {around : List FuncId} :
      parent? m f = some parent → Climbs m parent around → Climbs m f (f :: around)

/-- Functions are numbered from the outside in. -/
def OutsideIn (m : Module) : Prop := ∀ f parent, parent? m f = some parent → parent.index < f.index

section Nesting

variable {m : Module} {f g k : FuncId}

theorem contains_of_parent? {parent : FuncId} (h : parent? m f = some parent) :
    m.functions.contains f = true := by
  obtain ⟨fn, hfn, -⟩ := Option.bind_eq_some_iff.1 h
  exact Table.contains_iff.2 ⟨fn, hfn⟩

theorem Inside.contains (h : Inside m g f) : m.functions.contains f = true := by
  cases h with
  | self hcontains => exact hcontains
  | nested hparent _ => exact contains_of_parent? hparent

theorem Inside.outer_contains (h : Inside m g f) : m.functions.contains g = true := by
  induction h with
  | self hcontains => exact hcontains
  | nested _ _ ih => exact ih

theorem Inside.trans (hk : Inside m k g) (h : Inside m g f) : Inside m k f := by
  induction h with
  | self _ => exact hk
  | nested hparent _ ih => exact .nested hparent ih

theorem Inside.index_le (hm : OutsideIn m) (h : Inside m g f) : g.index ≤ f.index := by
  induction h with
  | self _ => exact Nat.le_refl _
  | nested hparent _ ih => exact Nat.le_of_lt (Nat.lt_of_le_of_lt ih (hm _ _ hparent))

/-- Of two functions around one, one is around the other. -/
theorem Inside.linear (h : Inside m g f) (h' : Inside m k f) : Inside m g k ∨ Inside m k g := by
  induction h with
  | self _ => exact .inr h'
  | nested hparent h ih =>
    cases h' with
    | self _ => exact .inl (.nested hparent h)
    | nested hparent' h' =>
      obtain rfl : _ = _ := Option.some.inj (hparent.symm.trans hparent')
      exact ih h'

theorem Climbs.mem_iff {around : List FuncId} (h : Climbs m f around)
    (hg : m.functions.contains g = true) : g ∈ around ↔ Inside m g f := by
  induction h with
  | top htop =>
    rw [List.mem_singleton]
    constructor
    · rintro rfl
      exact .self hg
    · intro hinside
      cases hinside with
      | self _ => rfl
      | nested hparent _ =>
        rw [htop] at hparent
        cases hparent
  | up hparent _ ih =>
    rw [List.mem_cons, ih]
    constructor
    · rintro (rfl | hinside)
      · exact .self hg
      · exact .nested hparent hinside
    · intro hinside
      cases hinside with
      | self _ => exact .inl rfl
      | nested hparent' hinside =>
        obtain rfl : _ = _ := Option.some.inj (hparent.symm.trans hparent')
        exact .inr hinside

/-- The functions numbered up to a given one. -/
def upTo (m : Module) (f : FuncId) : Finset FuncId :=
  m.functions.keys.toFinset.filter (·.index ≤ f.index)

theorem card_upTo_lt (hm : OutsideIn m) (h : parent? m f = some g) :
    (upTo m g).card < (upTo m f).card := by
  have hlt := hm f g h
  have hsubset : upTo m g ⊆ upTo m f := by
    intro k hk
    simp only [upTo, Finset.mem_filter] at hk ⊢
    exact ⟨hk.1, by omega⟩
  refine Finset.card_lt_card ((Finset.ssubset_iff_of_subset hsubset).2 ⟨f, ?_, ?_⟩)
  · simp [upTo, Table.mem_keys, contains_of_parent? h]
  · simp [upTo, hlt]

/-- The walk outwards meets smaller and smaller numbers, so it ends before the fuel does. -/
theorem climbs_of_card_lt (hm : OutsideIn m) {fuel : Nat} (hfuel : (upTo m f).card < fuel) :
    Climbs m f (ancestors m fuel f) := by
  induction fuel generalizing f with
  | zero => omega
  | succ fuel ih =>
    rw [ancestors]
    split
    case h_1 parent hparent =>
      have hlt := card_upTo_lt hm hparent
      exact .up hparent (ih (by omega))
    case h_2 htop => exact .top htop

theorem climbs_ancestors (hm : OutsideIn m) (f : FuncId) :
    Climbs m f (ancestors m (m.functions.size + 1) f) := by
  refine climbs_of_card_lt hm (Nat.lt_succ_of_le ?_)
  calc (upTo m f).card ≤ m.functions.keys.toFinset.card := Finset.card_filter_le _ _
    _ ≤ m.functions.keys.length := List.toFinset_card_le _
    _ = m.functions.size := Table.length_keys _

end Nesting

/-! ## What functions refer to -/

/-- A function reads or defines some version of a declaration. -/
def Mentions (fn : Function) (d : DeclId) : Prop :=
  (∃ i ∈ fn.instructions, ∃ p ∈ i.reads ++ i.defined, p.declaration = d) ∨
    ∃ p ∈ fn.reads, p.declaration = d

theorem contains_directReferences {env : Environment} {fn : Function} {d : DeclId} :
    (directReferences env fn).contains d = true ↔ Mentions fn d ∧ env.isTemporary d = false := by
  simp only [directReferences, KeySet.contains_ofList, decide_eq_true_eq, List.mem_filter,
    List.mem_map, List.mem_append, List.mem_flatMap, Bool.not_eq_true', Mentions]
  grind

/-- A function, or one inside it, mentions a variable. -/
def Refers (m : Module) (env : Environment) (f : FuncId) (d : DeclId) : Prop :=
  env.isTemporary d = false ∧
    ∃ g fn, m.functions.get? g = some fn ∧ Inside m f g ∧ Mentions fn d

theorem Refers.outer {m : Module} {env : Environment} {f g : FuncId} {d : DeclId}
    (h : Refers m env f d) (hg : Inside m g f) : Refers m env g d := by
  obtain ⟨hd, k, fn, hfn, hk, hmentions⟩ := h
  exact ⟨hd, k, fn, hfn, hg.trans hk, hmentions⟩

theorem contains_references {m : Module} {env : Environment} (hm : OutsideIn m) {f : FuncId}
    (hf : m.functions.contains f = true) {d : DeclId} :
    ((references m env).getD f ∅).contains d = true ↔ Refers m env f d := by
  let Has (table : Table FuncId (KeySet DeclId)) : Prop := (table.getD f ∅).contains d = true
  -- one function adds what it mentions to the set of every function around it
  have hstep (table : Table FuncId (KeySet DeclId)) (e : FuncId × Function) :
      Has ((ancestors m (m.functions.size + 1) e.1).foldl
        (fun table id => table.insert id
          (KeySet.addAll (table.getD id ∅) (directReferences env e.2).keys)) table) ↔
      Has table ∨ (Inside m f e.1 ∧ Mentions e.2 d ∧ env.isTemporary d = false) := by
    rw [foldl_adds_iff (P := Has) (R := fun id => id = f ∧ Mentions e.2 d ∧ env.isTemporary d = false)]
    · rw [← (climbs_ancestors hm e.1).mem_iff hf]
      simp
    · intro table id _
      simp only [Has]
      rw [Table.getD_insert]
      split
      case isTrue heq =>
        subst heq
        rw [KeySet.contains_addAll, Bool.or_eq_true, decide_eq_true_eq, Table.mem_keys,
          contains_directReferences]
        simp [or_comm]
      case isFalse hne =>
        simp [Ne.symm hne]
  have hall : Has (references m env) ↔ Has ∅ ∨ ∃ e ∈ m.functions.entries,
      Inside m f e.1 ∧ Mentions e.2 d ∧ env.isTemporary d = false :=
    foldl_adds_iff _ (fun table e _ => hstep table e) ∅
  refine hall.trans ⟨?_, ?_⟩
  · rintro (hempty | ⟨⟨g, fn⟩, hmem, hinside, hmentions, hd⟩)
    · cases hempty
    · exact ⟨hd, g, fn, Table.mem_entries.1 hmem, hinside, hmentions⟩
  · rintro ⟨hd, g, fn, hfn, hinside, hmentions⟩
    exact .inr ⟨(g, fn), Table.mem_entries.2 hfn, hinside, hmentions, hd⟩

/-! ## Naming the declarations of one function -/

/-- A variable of a function that has a name in the source. -/
structure Owns (env : Environment) (function : FuncId) (d : DeclId) : Prop where
  owner : env.ownerOf d = some function
  not_temporary : env.isTemporary d = false
  named : (env.nameOf d).isSome = true

namespace Naming

variable {env : Environment} {function : FuncId} {d d' : DeclId}

theorem add_of_owns (n : Naming) (h : Owns env function d) :
    ∃ name, n.inScope.contains name = false ∧
      n.add env function d = ⟨n.assigned.insert d name, KeySet.add n.inScope name⟩ := by
  obtain ⟨base, hbase⟩ := Option.isSome_iff_exists.1 h.named
  refine ⟨unusedName n.inScope base, unusedName_not_in_scope _ _, ?_⟩
  simp [add, h.owner, h.not_temporary, hbase]

theorem add_of_not_owns (n : Naming) (h : ¬Owns env function d) : n.add env function d = n := by
  rw [add]
  split
  case isTrue => rfl
  case isFalse hown =>
    split
    case h_1 => rfl
    case h_2 base hbase =>
      refine absurd ⟨?_, ?_, by simp [hbase]⟩ h
      all_goals simp_all

/-- One declaration is named: names in scope stay there, and other declarations keep theirs. -/
theorem contains_add_inScope (n : Naming) (d : DeclId) {name : String}
    (h : n.inScope.contains name = true) : (n.add env function d).inScope.contains name = true := by
  by_cases howns : Owns env function d
  · obtain ⟨fresh, -, heq⟩ := n.add_of_owns howns
    simp [heq, h]
  · rwa [n.add_of_not_owns howns]

theorem get?_add_of_ne (n : Naming) (h : d' ≠ d) :
    (n.add env function d).assigned.get? d' = n.assigned.get? d' := by
  by_cases howns : Owns env function d
  · obtain ⟨fresh, -, heq⟩ := n.add_of_owns howns
    simp [heq, Table.get?_insert, h]
  · rw [n.add_of_not_owns howns]

theorem get?_foldl_of_not_mem {ds : List DeclId} (n : Naming) (h : d ∉ ds) :
    (ds.foldl (add env function) n).assigned.get? d = n.assigned.get? d := by
  induction ds generalizing n with
  | nil => rfl
  | cons d' ds ih =>
    rw [List.mem_cons, not_or] at h
    exact (ih _ h.2).trans (n.get?_add_of_ne h.1)

theorem get?_foldl_of_not_owns (ds : List DeclId) (n : Naming) (h : ¬Owns env function d) :
    (ds.foldl (add env function) n).assigned.get? d = n.assigned.get? d := by
  induction ds generalizing n with
  | nil => rfl
  | cons d' ds ih =>
    rw [List.foldl_cons, ih]
    by_cases heq : d = d'
    · rw [← heq, n.add_of_not_owns h]
    · exact n.get?_add_of_ne heq

/-- A variable of the function gets a name that was not in scope, and is in scope from then on. -/
theorem exists_get?_foldl {ds : List DeclId} (hnodup : ds.Nodup) (n : Naming) (hmem : d ∈ ds)
    (howns : Owns env function d) : ∃ name, n.inScope.contains name = false ∧
      (ds.foldl (add env function) n).assigned.get? d = some name := by
  induction ds generalizing n with
  | nil => cases hmem
  | cons d' ds ih =>
    obtain ⟨hnot, hnodup⟩ := List.nodup_cons.1 hnodup
    rcases List.mem_cons.1 hmem with rfl | hmem
    · obtain ⟨name, hfree, heq⟩ := n.add_of_owns howns
      refine ⟨name, hfree, ?_⟩
      rw [List.foldl_cons, get?_foldl_of_not_mem _ hnot, heq, Table.get?_insert_self]
    · obtain ⟨name, hfree, hname⟩ := ih hnodup (n.add env function d') hmem
      refine ⟨name, Bool.eq_false_iff.2 fun hin => ?_, hname⟩
      rw [n.contains_add_inScope d' hin] at hfree
      cases hfree

/-- Two variables of the function get different names. -/
theorem get?_foldl_ne {ds : List DeclId} (hnodup : ds.Nodup) (n : Naming) (hmem : d ∈ ds)
    (hmem' : d' ∈ ds) (howns : Owns env function d) (howns' : Owns env function d') (hne : d ≠ d') :
    (ds.foldl (add env function) n).assigned.get? d ≠
      (ds.foldl (add env function) n).assigned.get? d' := by
  -- the one named later gets a name that is not in scope, where the earlier one's is
  have hlater {head : DeclId} {rest : List DeclId} (n : Naming) (hnodup : (head :: rest).Nodup)
      {e : DeclId} (hhead : Owns env function head) (he : Owns env function e) (hmem : e ∈ rest) :
      ((head :: rest).foldl (add env function) n).assigned.get? head ≠
        ((head :: rest).foldl (add env function) n).assigned.get? e := by
    obtain ⟨hnot, hrest⟩ := List.nodup_cons.1 hnodup
    obtain ⟨name, -, heq⟩ := n.add_of_owns hhead
    obtain ⟨name', hfree', hname'⟩ := exists_get?_foldl hrest (n.add env function head) hmem he
    rw [List.foldl_cons, hname', get?_foldl_of_not_mem _ hnot, heq, Table.get?_insert_self]
    rintro hsame
    rw [← Option.some.inj hsame, heq] at hfree'
    simp at hfree'
  induction ds generalizing n with
  | nil => cases hmem
  | cons head rest ih =>
    rcases List.mem_cons.1 hmem with rfl | hrest
    · exact hlater n hnodup howns howns' ((List.mem_cons.1 hmem').resolve_left (Ne.symm hne))
    · rcases List.mem_cons.1 hmem' with rfl | hrest'
      · exact (hlater n hnodup howns' howns hrest).symm
      · exact ih (List.nodup_cons.1 hnodup).2 _ hrest hrest'

end Naming

section NameFunction

variable {env : Environment} {globals : KeySet String} {function : FuncId}
  {referenced : KeySet DeclId} {assigned : Table DeclId String} {d d' : DeclId}

/-- Variables of other functions keep their names. -/
theorem get?_nameFunction_of_not_owns (h : ¬Owns env function d) :
    (nameFunction env globals function referenced assigned).get? d = assigned.get? d :=
  Naming.get?_foldl_of_not_owns _ _ h

/-- A variable of the function that is referred to gets a name.  Nothing is called so that the module
uses without declaring it, and no other variable that is referred to and has a name already. -/
theorem exists_get?_nameFunction (globals : KeySet String) (assigned : Table DeclId String)
    (hd : referenced.contains d = true) (howns : Owns env function d) :
    ∃ name, (nameFunction env globals function referenced assigned).get? d = some name ∧
      globals.contains name = false ∧
      ∀ d', referenced.contains d' = true → env.ownerOf d' ≠ some function →
        assigned.get? d' ≠ some name := by
  obtain ⟨name, hfree, hname⟩ :=
    Naming.exists_get?_foldl referenced.keys_nodup _ (Table.mem_keys.2 hd) howns
  refine ⟨name, hname, ?_, fun d' hd' howner hsame => ?_⟩
  · rw [KeySet.contains_addAll, Bool.or_eq_false_iff] at hfree
    exact hfree.2
  · rw [KeySet.contains_addAll, Bool.or_eq_false_iff, decide_eq_false_iff_not] at hfree
    refine hfree.1 (List.mem_filterMap.2 ⟨d', ?_, hsame⟩)
    simp [Table.mem_keys, hd', howner]

theorem get?_nameFunction_ne (hd : referenced.contains d = true) (hd' : referenced.contains d' = true)
    (howns : Owns env function d) (howns' : Owns env function d') (hne : d ≠ d') :
    (nameFunction env globals function referenced assigned).get? d ≠
      (nameFunction env globals function referenced assigned).get? d' :=
  Naming.get?_foldl_ne referenced.keys_nodup _ (Table.mem_keys.2 hd) (Table.mem_keys.2 hd') howns
    howns' hne

end NameFunction

/-! ## Naming all functions -/

/-- Names the declarations of the given functions. -/
def nameFunctions (m : Module) (env : Environment) (fs : List FuncId)
    (assigned : Table DeclId String) : Table DeclId String :=
  fs.foldl (fun assigned f =>
    nameFunction env (globalNames m env) f ((references m env).getD f ∅) assigned) assigned

theorem Names.assigned_assign (m : Module) (env : Environment) :
    (Names.assign m env).assigned = nameFunctions m env m.functions.keys ∅ := rfl

section NameFunctions

variable {m : Module} {env : Environment} {d d' : DeclId} {owner owner' : FuncId}

theorem Owns.unique (h : Owns env owner d) (h' : Owns env owner' d) : owner = owner' :=
  Option.some.inj (h.owner.symm.trans h'.owner)

theorem get?_nameFunctions_of_not_mem {fs : List FuncId} {assigned : Table DeclId String}
    (howns : Owns env owner d) (h : owner ∉ fs) :
    (nameFunctions m env fs assigned).get? d = assigned.get? d := by
  induction fs generalizing assigned with
  | nil => rfl
  | cons f fs ih =>
    rw [List.mem_cons, not_or] at h
    exact (ih h.2).trans (get?_nameFunction_of_not_owns fun hf => h.1 (howns.unique hf))

theorem nameFunctions_append (fs gs : List FuncId) (assigned : Table DeclId String) :
    nameFunctions m env (fs ++ gs) assigned =
      nameFunctions m env gs (nameFunctions m env fs assigned) :=
  List.foldl_append

/-- What a function names, no later function names again. -/
theorem get?_nameFunctions_of_mem {before after : List FuncId} {f : FuncId}
    {assigned : Table DeclId String} (howns : Owns env owner d) (h : owner ∉ after) :
    (nameFunctions m env (before ++ f :: after) assigned).get? d =
      (nameFunction env (globalNames m env) f ((references m env).getD f ∅)
        (nameFunctions m env before assigned)).get? d := by
  rw [nameFunctions_append]
  exact get?_nameFunctions_of_not_mem howns h

end NameFunctions

theorem Names.taken_assign (m : Module) (env : Environment) : (Names.assign m env).taken =
    KeySet.addAll (globalNames m env) (Names.assign m env).assigned.values := rfl

/-- Functions are named in the order of their numbers. -/
theorem keys_in_order (t : Table FuncId Function) : t.keys.Pairwise (·.index < ·.index) :=
  List.pairwise_map.2 (t.sorted.imp fun h => Nat.compare_eq_lt.1 h)

/-- A function with a number no larger is not named later. -/
theorem not_mem_after {before after : List FuncId} {f g : FuncId}
    (horder : (before ++ f :: after).Pairwise (·.index < ·.index)) (hle : g.index ≤ f.index) :
    g ∉ after := by
  intro hmem
  have hlt := (List.pairwise_cons.1 (List.pairwise_append.1 horder).2.1).1 g hmem
  omega

section Assign

variable {m : Module} {env : Environment} {f owner owner' : FuncId} {d d' : DeclId}

/-- A variable that is referred to has a name, and the module uses that name for nothing else. -/
theorem exists_get?_assign (hm : OutsideIn m) (hcontains : m.functions.contains owner = true)
    (howns : Owns env owner d) (hrefers : Refers m env owner d) :
    ∃ name, (Names.assign m env).assigned.get? d = some name ∧
      (globalNames m env).contains name = false := by
  have horder := keys_in_order m.functions
  obtain ⟨before, after, hkeys⟩ := List.append_of_mem (Table.mem_keys.2 hcontains)
  rw [hkeys] at horder
  obtain ⟨name, hname, hglobal, -⟩ := exists_get?_nameFunction (globalNames m env)
    (nameFunctions m env before ∅) ((contains_references hm hcontains).2 hrefers) howns
  refine ⟨name, ?_, hglobal⟩
  rw [Names.assigned_assign, hkeys,
    get?_nameFunctions_of_mem howns (not_mem_after horder (Nat.le_refl _)), hname]

/-- The names of two variables, one owned by a function around the owner of the other: the inner one
is named last, among names that include the outer one. -/
theorem assign_ne_of_inside (hm : OutsideIn m) (hinside : Inside m owner owner')
    (howns : Owns env owner d) (howns' : Owns env owner' d') (hrefers : Refers m env owner' d)
    (hrefers' : Refers m env owner' d') (hne : d ≠ d') :
    (Names.assign m env).assigned.get? d ≠ (Names.assign m env).assigned.get? d' := by
  have hcontains := hinside.contains
  have horder := keys_in_order m.functions
  obtain ⟨before, after, hkeys⟩ := List.append_of_mem (Table.mem_keys.2 hcontains)
  rw [hkeys] at horder
  have hd := (contains_references hm hcontains).2 hrefers
  have hd' := (contains_references hm hcontains).2 hrefers'
  rw [Names.assigned_assign, hkeys,
    get?_nameFunctions_of_mem howns (not_mem_after horder (hinside.index_le hm)),
    get?_nameFunctions_of_mem howns' (not_mem_after horder (Nat.le_refl _))]
  by_cases hsame : owner = owner'
  · subst hsame
    exact get?_nameFunction_ne hd hd' howns howns' hne
  · have howner : ¬Owns env owner' d := fun h => hsame (howns.unique h)
    obtain ⟨name, hname, -, hapart⟩ := exists_get?_nameFunction (globalNames m env)
      (nameFunctions m env before ∅) hd' howns'
    rw [get?_nameFunction_of_not_owns howner, hname]
    exact hapart d hd fun h => hsame (Option.some.inj (howns.owner.symm.trans h))

/-- A variable with a name, seen from a function: the function or one around it owns the variable, and
the function or one inside it mentions it. -/
structure Sees (m : Module) (env : Environment) (f : FuncId) (d : DeclId) : Prop where
  owned : ∃ owner, Inside m owner f ∧ Owns env owner d
  referred : Refers m env f d

theorem Sees.assign_ne (hm : OutsideIn m) (hd : Sees m env f d) (hd' : Sees m env f d') (hne : d ≠ d') :
    (Names.assign m env).assigned.get? d ≠ (Names.assign m env).assigned.get? d' := by
  obtain ⟨owner, hinside, howns⟩ := hd.owned
  obtain ⟨owner', hinside', howns'⟩ := hd'.owned
  rcases hinside.linear hinside' with hinner | hinner
  · exact assign_ne_of_inside hm hinner howns howns' (hd.referred.outer hinside')
      (hd'.referred.outer hinside') hne
  · exact (assign_ne_of_inside hm hinner howns' howns (hd'.referred.outer hinside)
      (hd.referred.outer hinside) hne.symm).symm

/-- Names never capture.  Where functions are numbered from the outside in, the walks to the outermost
function and the searches for an unused name come to an end.  All variables that a function sees have
names, which differ and which the module uses for nothing else.  Temporaries have names of their
own. -/
theorem Names.assign_apart (m : Module) (env : Environment)
    (hm : ∀ f fn parent, m.functions.get? f = some fn → fn.parent = some parent →
      parent.index < f.index) :
    (∀ f, Climbs m f (ancestors m (m.functions.size + 1) f)) ∧
    (∀ scope base, ∃ n, IsFirstFree scope (suffixed base) 0 n ∧
      unusedName scope base = suffixed base n) ∧
    (∀ f d, Sees m env f d → ∃ name, (Names.assign m env).assigned.get? d = some name ∧
      (globalNames m env).contains name = false ∧
      ∀ d', Sees m env f d' → d ≠ d' → (Names.assign m env).assigned.get? d' ≠ some name) ∧
    ∀ n, (∀ d, (Names.assign m env).assigned.get? d ≠
          some ((Names.assign m env).after n).temporary.1) ∧
      (globalNames m env).contains ((Names.assign m env).after n).temporary.1 = false ∧
      ∀ k < n, ((Names.assign m env).after n).temporary.1 ≠
        ((Names.assign m env).after k).temporary.1 := by
  have houtside : OutsideIn m := fun f parent h => by
    obtain ⟨fn, hfn, hparent⟩ := Option.bind_eq_some_iff.1 h
    exact hm f fn parent hfn hparent
  refine ⟨climbs_ancestors houtside, exists_unusedName, fun f d hd => ?_, fun n => ⟨?_, ?_, ?_⟩⟩
  · obtain ⟨owner, hinside, howns⟩ := hd.owned
    obtain ⟨name, hname, hglobal⟩ :=
      exists_get?_assign houtside hinside.outer_contains howns (hd.referred.outer hinside)
    refine ⟨name, hname, hglobal, fun d' hd' hne hname' => ?_⟩
    exact hd.assign_ne houtside hd' hne (hname.trans hname'.symm)
  · intro d hname
    refine (Names.assign m env).temporary_after_ne (Nat.zero_le n) ?_ rfl
    rw [Names.after, Names.taken_assign, KeySet.contains_addAll, Bool.or_eq_true, decide_eq_true_eq]
    exact .inl (Table.mem_values.2 ⟨d, hname⟩)
  · refine Bool.eq_false_iff.2 fun hglobal =>
      (Names.assign m env).temporary_after_ne (Nat.zero_le n) ?_ rfl
    rw [Names.after, Names.taken_assign, KeySet.contains_addAll, hglobal, Bool.or_true]
  · intro k hlt
    exact Names.temporary_after_ne _ hlt (Names.taken_temporary _)

end Assign

open Syntax in
/-- `let x = c; function f() { let x_1 = x; { let x = x_1; return x; } } f();` -/
def shadowing : Syntax.Module :=
  let name (text : String) : Expr := .name .synthetic (.synthetic text)
  let declare (text value : String) : Stmt :=
    .declaration .synthetic .letKind
      [.mk .synthetic (.name .synthetic (.synthetic text)) (some (name value))]
  let body : List Stmt := [declare "x_1" "x",
    .block .synthetic [declare "x" "x_1", .return .synthetic (some (name "x"))]]
  ⟨⟨0, 0⟩, [declare "x" "c",
    .function .synthetic (.mk .synthetic (some (.synthetic "f")) [] (.block body) false),
    .expression .synthetic (.call .synthetic (name "f") [])]⟩

/-- Both variables `x` are seen in the function, where the inner one is `x_2`: the first number leads
to the name of another variable. -/
theorem Names.assign_apart_shadowing : ∃ m env outer inner, shadowing.lower "m" {} = .ok (m, env) ∧
    (∀ f fn parent, m.functions.get? f = some fn → fn.parent = some parent →
      parent.index < f.index) ∧
    (Sees m env ⟨1⟩ outer ∧ Sees m env ⟨1⟩ inner ∧ outer ≠ inner ∧
      env.nameOf outer = some "x" ∧ env.nameOf inner = some "x") ∧
    (Names.assign m env).assigned.get? inner = some "x_2" ∧
    (globalNames m env).contains "x_2" = false ∧
    (Names.assign m env).assigned.get? outer ≠ some "x_2" := by
  obtain ⟨⟨m, env⟩, hlower, hin, ⟨f, hf, hparent, houter, hinner⟩, hmodule, ⟨howner, howner'⟩,
      ⟨hname, hname'⟩, hkind, hassigned⟩ :
      ∃ t ∈ (shadowing.lower "m" {}).toOption,
        (∀ e ∈ t.1.functions.entries, ∀ parent ∈ e.2.parent, parent.index < e.1.index) ∧
        (∃ f ∈ t.1.functions.get? ⟨1⟩, ⟨0⟩ ∈ f.parent ∧
          (directReferences t.2 f).contains ⟨0⟩ = true ∧
          (directReferences t.2 f).contains ⟨5⟩ = true) ∧
        t.1.functions.contains ⟨0⟩ = true ∧
        (⟨0⟩ ∈ t.2.ownerOf ⟨0⟩ ∧ ⟨1⟩ ∈ t.2.ownerOf ⟨5⟩) ∧
        ("x" ∈ t.2.nameOf ⟨0⟩ ∧ "x" ∈ t.2.nameOf ⟨5⟩) ∧
        (t.2.isTemporary ⟨0⟩ = false ∧ t.2.isTemporary ⟨5⟩ = false) ∧
        "x_2" ∈ (Names.assign t.1 t.2).assigned.get? ⟨5⟩ := by
    decide +kernel
  have hm : ∀ f fn parent, m.functions.get? f = some fn → fn.parent = some parent →
      parent.index < f.index :=
    fun f fn parent hfn hparent => hin (f, fn) (Table.mem_entries.2 hfn) parent hparent
  have hself : Inside m ⟨1⟩ ⟨1⟩ := .self (Table.contains_iff.2 ⟨f, hf⟩)
  have hinside : Inside m ⟨0⟩ ⟨1⟩ :=
    .nested (Option.bind_eq_some_iff.2 ⟨f, hf, hparent⟩) (.self hmodule)
  have hsees : Sees m env ⟨1⟩ ⟨0⟩ :=
    ⟨⟨⟨0⟩, hinside, howner, hkind.1, Option.isSome_of_mem hname⟩,
      hkind.1, ⟨1⟩, f, hf, hself, (contains_directReferences.1 houter).1⟩
  have hsees' : Sees m env ⟨1⟩ ⟨5⟩ :=
    ⟨⟨⟨1⟩, hself, howner', hkind.2, Option.isSome_of_mem hname'⟩,
      hkind.2, ⟨1⟩, f, hf, hself, (contains_directReferences.1 hinner).1⟩
  obtain ⟨name, hget, hglobal, hapart⟩ := (Names.assign_apart m env hm).2.2.1 ⟨1⟩ ⟨5⟩ hsees'
  obtain rfl : "x_2" = name := Option.some.inj (hassigned.symm.trans hget)
  exact ⟨m, env, ⟨0⟩, ⟨5⟩, Syntax.Module.eq_ok_of_toOption hlower, hm,
    ⟨hsees, hsees', by decide, hname, hname'⟩, hget, hglobal, hapart ⟨0⟩ hsees (by decide)⟩

end Whittle.Emit
