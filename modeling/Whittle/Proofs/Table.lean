import Mathlib.Data.List.Perm.Subperm
import Mathlib.Tactic.Common
import Whittle.Table

/-!
# Ordered tables: look-up

Look-up is the one view of a table.  The entries of a table are what look-up finds, two tables with
the same look-up are equal, and every operation is described by what it does to look-up.  Sets are
described by membership.
-/

namespace Whittle

namespace Table

variable {κ ν : Type} [Ord κ]

theorem contains_iff {t : Table κ ν} {k : κ} : t.contains k = true ↔ ∃ v, t.get? k = some v :=
  Option.isSome_iff_exists

@[simp] theorem contains_empty (k : κ) : (∅ : Table κ ν).contains k = false := rfl

@[simp] theorem keys_empty : (∅ : Table κ ν).keys = [] := rfl

@[simp] theorem length_keys (t : Table κ ν) : t.keys.length = t.size := by
  simp [keys, size]

theorem getD_of_get? {t : Table κ ν} {k : κ} {v d : ν} (h : t.get? k = some v) :
    t.getD k d = v := by
  rw [getD, h, Option.getD_some]

theorem get?_of_not_contains {t : Table κ ν} {k : κ} (h : t.contains k = false) :
    t.get? k = none := by
  simpa [contains] using h

theorem map_map {μ ρ : Type} (f : κ → ν → μ) (g : κ → μ → ρ) (t : Table κ ν) :
    (t.map f).map g = t.map fun k v => g k (f k v) :=
  ext (List.map_map ..)

theorem values_map {μ : Type} (f : κ → ν → μ) (t : Table κ ν) :
    (t.map f).values = t.entries.map fun e => f e.1 e.2 :=
  List.map_map ..

end Table

variable {κ ν μ : Type} [Ord κ] [Std.TransOrd κ] [Std.LawfulEqOrd κ]

omit [Std.LawfulEqOrd κ] in
theorem compare_self_ne_lt (k : κ) : compare k k ≠ .lt := by
  rw [Std.ReflOrd.compare_self]
  decide

theorem Entries.find?_eq_some_iff {k : κ} {v : ν} {l : List (κ × ν)} (hl : l.Pairwise EntryLt) :
    Entries.find? k l = some v ↔ (k, v) ∈ l := by
  induction l with
  | nil => simp [Entries.find?]
  | cons head rest ih =>
    obtain ⟨k', v'⟩ := head
    obtain ⟨hhead, hrest⟩ := List.pairwise_cons.1 hl
    simp only [Entries.find?, List.mem_cons, Prod.mk.injEq]
    cases hc : compare k k' with
    | lt =>
      refine ⟨fun h => by simp at h, ?_⟩
      rintro (⟨rfl, -⟩ | hmem)
      · exact absurd hc (compare_self_ne_lt k)
      · exact absurd (Std.TransCmp.lt_trans hc (hhead _ hmem)) (compare_self_ne_lt k)
    | eq =>
      have hk : k = k' := Std.LawfulEqCmp.eq_of_compare hc
      subst hk
      constructor
      · intro h
        exact .inl ⟨rfl, (Option.some.inj h).symm⟩
      · rintro (⟨-, rfl⟩ | hmem)
        · rfl
        · exact absurd (hhead _ hmem) (compare_self_ne_lt k)
    | gt =>
      rw [ih hrest]
      refine ⟨.inr, ?_⟩
      rintro (⟨rfl, -⟩ | hmem)
      · exact absurd (Std.OrientedCmp.gt_iff_lt.1 hc) (compare_self_ne_lt k)
      · exact hmem

namespace Table

theorem mem_entries {t : Table κ ν} {k : κ} {v : ν} : (k, v) ∈ t.entries ↔ t.get? k = some v :=
  (Entries.find?_eq_some_iff t.sorted).symm

/-- The entries of a table with one key. -/
theorem entries_of_size_eq_one {t : Table κ ν} {k : κ} {v : ν} (hsize : t.size = 1)
    (h : t.get? k = some v) : t.entries = [(k, v)] := by
  obtain ⟨e, he⟩ := List.length_eq_one_iff.1 hsize
  have hmem := mem_entries.2 h
  rw [he] at hmem ⊢
  rw [List.mem_singleton.1 hmem]

theorem mem_keys {t : Table κ ν} {k : κ} : k ∈ t.keys ↔ t.contains k = true := by
  simp only [keys, List.mem_map, Prod.exists, contains_iff, ← mem_entries]
  constructor
  · rintro ⟨k', v, hmem, rfl⟩
    exact ⟨v, hmem⟩
  · rintro ⟨v, hmem⟩
    exact ⟨k, v, hmem, rfl⟩

theorem mem_values {t : Table κ ν} {v : ν} : v ∈ t.values ↔ ∃ k, t.get? k = some v := by
  simp only [values, List.mem_map, Prod.exists, ← mem_entries]
  constructor
  · rintro ⟨k, v', hmem, rfl⟩
    exact ⟨k, hmem⟩
  · rintro ⟨k, hmem⟩
    exact ⟨k, v, hmem, rfl⟩

omit [Std.LawfulEqOrd κ] in
theorem entries_nodup (t : Table κ ν) : t.entries.Nodup := by
  refine t.sorted.imp ?_
  rintro a b hlt rfl
  exact compare_self_ne_lt a.1 hlt

omit [Std.LawfulEqOrd κ] in
theorem keys_nodup (t : Table κ ν) : t.keys.Nodup := by
  refine List.pairwise_map.2 (t.sorted.imp ?_)
  rintro ⟨a, v⟩ ⟨b, w⟩ hlt hab
  have hab' : a = b := hab
  subst hab'
  exact compare_self_ne_lt a hlt

/-- Two sorted lists with the same members are equal. -/
theorem ext_get? {a b : Table κ ν} (h : ∀ k, a.get? k = b.get? k) : a = b := by
  have hperm : a.entries.Perm b.entries := by
    refine (List.perm_ext_iff_of_nodup a.entries_nodup b.entries_nodup).2 ?_
    rintro ⟨k, v⟩
    rw [mem_entries, mem_entries, h]
  refine ext (hperm.eq_of_pairwise ?_ a.sorted b.sorted)
  intro x y _ _ hxy hyx
  exact absurd (Std.TransCmp.lt_trans hxy hyx) (compare_self_ne_lt x.1)

theorem get?_insert (t : Table κ ν) (j k : κ) (v : ν) [DecidableEq κ] :
    (t.insert k v).get? j = if j = k then some v else t.get? j := by
  split
  · rename_i hjk
    rw [hjk, get?_insert_self]
  · rename_i hjk
    exact get?_insert_ne t v hjk

theorem insert_insert (t : Table κ ν) (k : κ) (v w : ν) : (t.insert k v).insert k w = t.insert k w := by
  classical
  refine ext_get? fun j => ?_
  rw [get?_insert, get?_insert, get?_insert]
  split <;> rfl

theorem insert_self {t : Table κ ν} {k : κ} {v : ν} (h : t.get? k = some v) : t.insert k v = t := by
  classical
  refine ext_get? fun j => ?_
  rw [get?_insert]
  split
  · rename_i hjk
    rw [hjk, h]
  · rfl

theorem get?_map (f : κ → ν → μ) (t : Table κ ν) (k : κ) :
    (t.map f).get? k = (t.get? k).map (f k) := by
  ext w
  simp only [Option.map_eq_some_iff, ← mem_entries, map, List.mem_map, Prod.mk.injEq, Prod.exists]
  constructor
  · rintro ⟨k', v, hmem, rfl, rfl⟩
    exact ⟨v, hmem, rfl⟩
  · rintro ⟨v, hmem, rfl⟩
    exact ⟨k, v, hmem, rfl, rfl⟩

theorem get?_filter (p : κ → ν → Bool) (t : Table κ ν) (k : κ) :
    (t.filter p).get? k = (t.get? k).filter (p k) := by
  ext w
  simp only [Option.filter_eq_some_iff, ← mem_entries, filter, List.mem_filter]

theorem get?_erase (t : Table κ ν) (j k : κ) [DecidableEq κ] :
    (t.erase k).get? j = if j = k then none else t.get? j := by
  rw [erase, get?_filter]
  split
  · rename_i hjk
    simp [hjk, Std.ReflCmp.compare_self]
  · rename_i hjk
    have hkj : compare k j ≠ .eq := fun h => hjk (Std.LawfulEqCmp.eq_of_compare h).symm
    cases t.get? j <;> simp [hkj]

theorem get?_modify (t : Table κ ν) (j k : κ) (f : ν → ν) [DecidableEq κ] :
    (t.modify k f).get? j = if j = k then (t.get? j).map f else t.get? j := by
  rw [modify, get?_map]
  by_cases hjk : j = k
  · simp [hjk, Std.ReflCmp.compare_self]
  · have hkj : compare k j ≠ .eq := fun h => hjk (Std.LawfulEqCmp.eq_of_compare h).symm
    simp [hjk, hkj]

@[simp] theorem contains_map (f : κ → ν → μ) (t : Table κ ν) (k : κ) :
    (t.map f).contains k = t.contains k := by
  simp [contains, get?_map]

theorem contains_modify (t : Table κ ν) (j k : κ) (f : ν → ν) [DecidableEq κ] :
    (t.modify k f).contains j = t.contains j := by
  rw [contains, get?_modify, contains]
  split <;> simp

theorem contains_insert (t : Table κ ν) (j k : κ) (v : ν) [DecidableEq κ] :
    (t.insert k v).contains j = (decide (j = k) || t.contains j) := by
  rw [contains, get?_insert, contains]
  split <;> simp_all

theorem contains_erase (t : Table κ ν) (j k : κ) [DecidableEq κ] :
    (t.erase k).contains j = (!decide (j = k) && t.contains j) := by
  rw [contains, get?_erase, contains]
  split <;> simp_all

theorem getD_insert (t : Table κ ν) (j k : κ) (v d : ν) [DecidableEq κ] :
    (t.insert k v).getD j d = if j = k then v else t.getD j d := by
  rw [getD, get?_insert, getD]
  split <;> rfl

theorem modify_of_get? {t : Table κ ν} {k : κ} {v : ν} (h : t.get? k = some v) (f : ν → ν) :
    t.modify k f = t.insert k (f v) := by
  classical
  refine ext_get? fun j => ?_
  rw [get?_modify, get?_insert]
  split
  · rename_i hjk
    rw [hjk, h, Option.map_some]
  · rfl

/-! The values of a table, in any order: what stands under one key, and the rest. -/

theorem values_perm {t : Table κ ν} {k : κ} {v : ν} (h : t.get? k = some v) :
    t.values.Perm (v :: (t.erase k).values) := by
  classical
  have hentries : t.entries.Perm ((k, v) :: (t.erase k).entries) := by
    refine (List.perm_ext_iff_of_nodup t.entries_nodup (List.nodup_cons.2 ⟨?_, entries_nodup _⟩)).2 ?_
    · intro hmem
      rw [mem_entries, get?_erase, if_pos rfl] at hmem
      cases hmem
    · rintro ⟨j, w⟩
      rw [List.mem_cons, mem_entries, mem_entries, get?_erase]
      by_cases hjk : j = k
      · subst hjk
        simp [h, eq_comm]
      · simp [hjk]
  exact hentries.map (·.2)

theorem erase_of_not_contains {t : Table κ ν} {k : κ} (h : t.contains k = false) : t.erase k = t := by
  classical
  refine ext_get? fun j => ?_
  rw [get?_erase]
  split
  · next heq => rw [heq, get?_of_not_contains h]
  · rfl

theorem values_insert_perm (t : Table κ ν) (k : κ) (v : ν) :
    (t.insert k v).values.Perm (v :: (t.erase k).values) := by
  classical
  have herase : (t.insert k v).erase k = t.erase k := by
    refine ext_get? fun j => ?_
    rw [get?_erase, get?_erase, get?_insert]
    split <;> rfl
  rw [← herase]
  exact values_perm (get?_insert_self t k v)

theorem size_insert {t : Table κ ν} {k : κ} (hnew : t.contains k = false) (v : ν) :
    (t.insert k v).size = t.size + 1 := by
  have hlength := (values_insert_perm t k v).length_eq
  rw [erase_of_not_contains hnew] at hlength
  simpa [values, size] using hlength

/-- A table made from answers about keys gives these answers. -/
theorem get?_ofList_filterMap [DecidableEq κ] (ks : List κ) (f : κ → Option ν) (j : κ) :
    (ofList (ks.filterMap fun k => (f k).map (k, ·))).get? j = if j ∈ ks then f j else none := by
  have hfold (l : List κ) (t : Table κ ν) :
      ((l.filterMap fun k => (f k).map (k, ·)).foldl (fun t e => t.insert e.1 e.2) t).get? j =
        if j ∈ l then (f j).or (t.get? j) else t.get? j := by
    induction l generalizing t with
    | nil => simp
    | cons k l ih =>
      cases hf : f k with
      | none =>
        rw [List.filterMap_cons_none (by simp [hf]), ih]
        by_cases hjk : j = k
        · subst hjk
          simp [hf]
        · simp [hjk]
      | some v =>
        rw [List.filterMap_cons_some (by simp [hf]; rfl), List.foldl_cons, ih, get?_insert]
        by_cases hjk : j = k
        · subst hjk
          simp [hf]
        · simp [hjk]
  rw [ofList, hfold]
  simp

theorem isEmpty_eq_false {t : Table κ ν} : t.isEmpty = false ↔ ∃ k, t.contains k = true := by
  rw [isEmpty, List.isEmpty_eq_false_iff_exists_mem, Prod.exists]
  simp only [mem_entries, contains_iff]

end Table

namespace KeySet

@[simp] theorem contains_add [DecidableEq κ] (s : KeySet κ) (j k : κ) :
    (s.add k).contains j = (decide (j = k) || s.contains j) :=
  Table.contains_insert s j k ()

theorem contains_addAll [DecidableEq κ] (s : KeySet κ) (ks : List κ) (j : κ) :
    (s.addAll ks).contains j = (decide (j ∈ ks) || s.contains j) := by
  induction ks generalizing s with
  | nil => simp [addAll]
  | cons k ks ih =>
    have hstep : s.addAll (k :: ks) = (s.add k).addAll ks := rfl
    rw [hstep, ih, contains_add]
    by_cases hjk : j = k <;> simp [hjk]

@[simp] theorem contains_ofList [DecidableEq κ] (ks : List κ) (j : κ) :
    (ofList ks).contains j = decide (j ∈ ks) := by
  rw [ofList, contains_addAll]
  simp [Table.contains]

@[simp] theorem contains_inter (s t : KeySet κ) (j : κ) :
    (s.inter t).contains j = (s.contains j && t.contains j) := by
  rw [inter, Table.meet_eq_filter, Table.contains, Table.get?_filter]
  cases hs : s.get? j <;> cases ht : t.contains j <;> simp [Table.contains, hs]

theorem ext_contains {s t : KeySet κ} (h : ∀ k, s.contains k = t.contains k) : s = t := by
  refine Table.ext_get? fun k => ?_
  have hk := h k
  simp only [Table.contains] at hk
  cases hs : s.get? k <;> cases ht : t.get? k <;> simp_all

theorem size_le_of_subset {s t : KeySet κ} (h : ∀ k, s.contains k = true → t.contains k = true) :
    s.size ≤ t.size := by
  have hsub : s.keys ⊆ t.keys := fun k hk => Table.mem_keys.2 (h k (Table.mem_keys.1 hk))
  simpa using (List.subperm_of_subset s.keys_nodup hsub).length_le

/-- A proper subset has fewer members. -/
theorem size_lt_of_subset {s t : KeySet κ} (h : ∀ k, s.contains k = true → t.contains k = true)
    (hne : s ≠ t) : s.size < t.size := by
  have hsub : s.keys ⊆ t.keys := fun k hk => Table.mem_keys.2 (h k (Table.mem_keys.1 hk))
  have hperm := List.subperm_of_subset s.keys_nodup hsub
  have hle : s.size ≤ t.size := by simpa using hperm.length_le
  refine Nat.lt_of_le_of_ne hle fun heq => hne (ext_contains fun k => ?_)
  have hkeys : s.keys.Perm t.keys := hperm.perm_of_length_le (by simp [heq])
  rw [Bool.eq_iff_iff, ← Table.mem_keys, ← Table.mem_keys, hkeys.mem_iff]

theorem size_add_le [DecidableEq κ] (s : KeySet κ) (k : κ) : (s.add k).size ≤ s.size + 1 := by
  have hsub : (s.add k).keys ⊆ k :: s.keys := by
    intro j hj
    rw [Table.mem_keys, contains_add, Bool.or_eq_true, decide_eq_true_eq] at hj
    rw [List.mem_cons, Table.mem_keys]
    exact hj
  simpa using (List.subperm_of_subset (s.add k).keys_nodup hsub).length_le

theorem two_le_size_iff {s : KeySet κ} :
    2 ≤ s.size ↔ ∃ j k, j ≠ k ∧ s.contains j = true ∧ s.contains k = true := by
  have hnodup := s.keys_nodup
  simp only [← Table.length_keys, ← Table.mem_keys]
  match hkeys : s.keys with
  | [] => simp
  | [k] =>
    simp only [List.length_singleton, List.mem_singleton]
    refine ⟨fun h => absurd h (by decide), ?_⟩
    rintro ⟨j, k', hne, rfl, rfl⟩
    exact absurd rfl hne
  | j :: k :: rest =>
    rw [hkeys] at hnodup
    exact ⟨fun _ => ⟨j, k, by simp_all, by simp, by simp⟩, fun _ => by simp⟩

end KeySet

/-! ## Measures -/

/-- The sum of a measure over the entries whose keys are not in a set. -/
def Entries.totalOutside (measure : ν → Nat) (seen : KeySet κ) : List (κ × ν) → Nat
  | [] => 0
  | e :: es => (if seen.contains e.1 then 0 else measure e.2) + totalOutside measure seen es

namespace Table

omit [Std.TransOrd κ] [Std.LawfulEqOrd κ] in
theorem totalOutside_empty (measure : ν → Nat) (t : Table κ ν) :
    Entries.totalOutside measure ∅ t.entries = t.total measure := by
  have hfold (l : List (κ × ν)) (n : Nat) :
      (l.map (·.2)).foldl (fun sum v => sum + measure v) n = n + Entries.totalOutside measure ∅ l := by
    induction l generalizing n with
    | nil => rfl
    | cons e l ih =>
      rw [List.map_cons, List.foldl_cons, ih]
      simp [Entries.totalOutside, Nat.add_assoc]
  rw [total, values, hfold, Nat.zero_add]

omit [Std.TransOrd κ] [Std.LawfulEqOrd κ] in
theorem totalOutside_le (measure : ν → Nat) (seen : KeySet κ) (t : Table κ ν) :
    Entries.totalOutside measure seen t.entries ≤ t.total measure := by
  rw [← totalOutside_empty]
  induction t.entries with
  | nil => exact Nat.le_refl 0
  | cons e l ih =>
    refine Nat.add_le_add ?_ ih
    split <;> simp

variable [DecidableEq κ] {measure : ν → Nat} {seen : KeySet κ} {k : κ}

theorem totalOutside_add_of_not_key {l : List (κ × ν)} (h : ∀ e ∈ l, e.1 ≠ k) :
    Entries.totalOutside measure (seen.add k) l = Entries.totalOutside measure seen l := by
  induction l with
  | nil => rfl
  | cons e l ih =>
    have he : e.1 ≠ k := h e List.mem_cons_self
    rw [Entries.totalOutside, Entries.totalOutside, ih fun e' he' => h e' (List.mem_cons_of_mem _ he')]
    simp [he]

/-- A key that joins the set takes the measure of its entry with it. -/
theorem totalOutside_add (t : Table κ ν) (hnew : seen.contains k = false) :
    Entries.totalOutside measure seen t.entries =
      ((t.get? k).map measure).getD 0 + Entries.totalOutside measure (seen.add k) t.entries := by
  obtain ⟨l, hl⟩ := t
  rw [get?]
  induction l with
  | nil => rfl
  | cons e l ih =>
    obtain ⟨j, v⟩ := e
    obtain ⟨hhead, hrest⟩ := List.pairwise_cons.1 hl
    by_cases hj : j = k
    · subst hj
      have hkeys (e' : κ × ν) (he' : e' ∈ l) : e'.1 ≠ j := by
        rintro rfl
        exact compare_self_ne_lt _ (hhead e' he')
      have hfind : Entries.find? j ((j, v) :: l) = some v :=
        (Entries.find?_eq_some_iff hl).2 List.mem_cons_self
      rw [Entries.totalOutside, Entries.totalOutside, totalOutside_add_of_not_key hkeys, hfind]
      simp [hnew]
    · have hfind : Entries.find? k ((j, v) :: l) = Entries.find? k l := by
        ext w
        rw [Entries.find?_eq_some_iff hl, Entries.find?_eq_some_iff hrest]
        simp [Ne.symm hj]
      rw [Entries.totalOutside, Entries.totalOutside, ih hrest, hfind]
      simp [hj]
      omega

theorem totalOutside_add_getD (t : Table κ ν) (hnew : seen.contains k = false) {d : ν} (hd : measure d = 0) :
    Entries.totalOutside measure seen t.entries =
      measure (t.getD k d) + Entries.totalOutside measure (seen.add k) t.entries := by
  rw [totalOutside_add t hnew, getD]
  cases t.get? k with
  | none => simp [hd]
  | some v => rfl

end Table

end Whittle
