/-!
# Ordered tables

A finite map held as the list of its entries, keys strictly increasing.  The order is part of the
type, so two tables with the same entries are equal and every walk over a table visits its keys
from the smallest to the largest.  A table with trivial values serves as a finite set.

Each operation comes with the lemma that says what it does to look-up.
-/

namespace Whittle

/-- One entry stands before another when its key is the smaller one. -/
def EntryLt {κ ν : Type} [Ord κ] (a b : κ × ν) : Prop := compare a.1 b.1 = .lt

namespace Entries

variable {κ ν : Type} [Ord κ]

/-- The value kept under `k`; the walk stops at the first larger key. -/
def find? (k : κ) : List (κ × ν) → Option ν
  | [] => none
  | (k', v) :: rest =>
    match compare k k' with
    | .lt => none
    | .eq => some v
    | .gt => find? k rest

/-- Puts `v` under `k`, replacing what was there. -/
def insert (k : κ) (v : ν) : List (κ × ν) → List (κ × ν)
  | [] => [(k, v)]
  | (k', v') :: rest =>
    match compare k k' with
    | .lt => (k, v) :: (k', v') :: rest
    | .eq => (k, v) :: rest
    | .gt => (k', v') :: insert k v rest

theorem mem_insert {k : κ} {v : ν} {e : κ × ν} {l : List (κ × ν)} (h : e ∈ insert k v l) :
    e = (k, v) ∨ e ∈ l := by
  induction l with
  | nil => simpa [insert] using h
  | cons head rest ih =>
    obtain ⟨k', v'⟩ := head
    simp only [insert] at h
    split at h
    · simpa using h
    · rcases List.mem_cons.1 h with h | h
      · exact .inl h
      · exact .inr (List.mem_cons_of_mem _ h)
    · rcases List.mem_cons.1 h with h | h
      · exact .inr (by simp [h])
      · rcases ih h with h | h
        · exact .inl h
        · exact .inr (List.mem_cons_of_mem _ h)

theorem sorted_insert [Std.TransOrd κ] (k : κ) (v : ν) {l : List (κ × ν)}
    (h : l.Pairwise EntryLt) : (insert k v l).Pairwise EntryLt := by
  induction l with
  | nil => simp [insert]
  | cons head rest ih =>
    obtain ⟨k', v'⟩ := head
    obtain ⟨hhead, hrest⟩ := List.pairwise_cons.1 h
    simp only [insert]
    split
    · rename_i hlt
      refine List.pairwise_cons.2 ⟨fun e he => ?_, h⟩
      rcases List.mem_cons.1 he with rfl | he
      · exact hlt
      · exact Std.TransCmp.lt_trans hlt (hhead e he)
    · rename_i heq
      exact List.pairwise_cons.2
        ⟨fun e he => Std.TransCmp.lt_of_eq_of_lt heq (hhead e he), hrest⟩
    · rename_i hgt
      refine List.pairwise_cons.2 ⟨fun e he => ?_, ih hrest⟩
      rcases mem_insert he with rfl | he
      · exact Std.OrientedCmp.gt_iff_lt.1 hgt
      · exact hhead e he

theorem find?_insert_self [Std.ReflOrd κ] (k : κ) (v : ν) (l : List (κ × ν)) :
    find? k (insert k v l) = some v := by
  induction l with
  | nil => simp [insert, find?, Std.ReflCmp.compare_self]
  | cons head rest ih =>
    obtain ⟨k', v'⟩ := head
    simp only [insert]
    split
    · simp [find?, Std.ReflCmp.compare_self]
    · simp [find?, Std.ReflCmp.compare_self]
    · rename_i hgt
      simp [find?, hgt, ih]

theorem find?_insert_ne [Std.TransOrd κ] [Std.LawfulEqOrd κ] {j k : κ} (v : ν) (hne : j ≠ k)
    (l : List (κ × ν)) : find? j (insert k v l) = find? j l := by
  have hjk : compare j k ≠ .eq := fun h => hne (Std.LawfulEqCmp.eq_of_compare h)
  induction l with
  | nil =>
    simp only [insert, find?]
    split <;> simp_all
  | cons head rest ih =>
    obtain ⟨k', v'⟩ := head
    simp only [insert]
    split
    · rename_i hlt
      simp only [find?]
      cases hc : compare j k with
      | lt => simp [Std.TransCmp.lt_trans hc hlt]
      | eq => exact absurd hc hjk
      | gt => rfl
    · rename_i heq
      have hkk : k = k' := Std.LawfulEqCmp.eq_of_compare heq
      subst hkk
      simp only [find?]
      cases hc : compare j k with
      | lt => rfl
      | eq => exact absurd hc hjk
      | gt => rfl
    · simp only [find?, ih]

variable {μ : Type}

/-- The entries whose keys are among those of `others`.  Both lists are walked once, side by side. -/
def meet : List (κ × ν) → List (κ × μ) → List (κ × ν)
  | [], _ => []
  | e :: es, others =>
    match others.dropWhile fun o => compare o.1 e.1 == .lt with
    | [] => []
    | o :: rest => if compare o.1 e.1 == .eq then e :: meet es (o :: rest) else meet es (o :: rest)

theorem find?_dropWhile_lt [Std.TransOrd κ] {j k : κ} (hjk : compare j k ≠ .gt)
    (l : List (κ × μ)) : find? k (l.dropWhile fun o => compare o.1 j == .lt) = find? k l := by
  induction l with
  | nil => rfl
  | cons head rest ih =>
    obtain ⟨k', v'⟩ := head
    rw [List.dropWhile_cons]
    split
    · rename_i hlt
      have hlt' : compare k' j = .lt := by simpa using hlt
      have hk : compare k k' = .gt := by
        rw [Std.OrientedCmp.gt_iff_lt]
        cases hc : compare j k with
        | lt => exact Std.TransCmp.lt_trans hlt' hc
        | eq => exact Std.TransCmp.lt_of_lt_of_eq hlt' hc
        | gt => exact absurd hc hjk
      simp only [find?, hk, ih]
    · rfl

/-- `meet` keeps exactly the entries whose keys the other list has. -/
theorem meet_eq_filter [Std.TransOrd κ] {l : List (κ × ν)} (hl : l.Pairwise EntryLt)
    (others : List (κ × μ)) :
    meet l others = l.filter fun e => (find? e.1 others).isSome := by
  induction l generalizing others with
  | nil => rfl
  | cons e es ih =>
    obtain ⟨hhead, hes⟩ := List.pairwise_cons.1 hl
    have hself : compare e.1 e.1 ≠ .gt := by simp [Std.ReflCmp.compare_self]
    have hlater (e' : κ × ν) (he' : e' ∈ es) : compare e.1 e'.1 ≠ .gt := by
      have : compare e.1 e'.1 = .lt := hhead e' he'
      simp [this]
    have hfilter : es.filter (fun e' => (find? e'.1 others).isSome) =
        es.filter fun e' =>
          (find? e'.1 (others.dropWhile fun o => compare o.1 e.1 == .lt)).isSome :=
      List.filter_congr fun e' he' => by rw [find?_dropWhile_lt (hlater e' he')]
    rw [List.filter_cons, hfilter, ← find?_dropWhile_lt hself, meet]
    split
    · rename_i hdrop
      simp [hdrop, find?]
    · rename_i o rest hdrop
      rw [hdrop, ih hes]
      have hnot : compare o.1 e.1 ≠ .lt := by
        have := List.head?_dropWhile_not (fun o : κ × μ => compare o.1 e.1 == .lt) others
        simpa [hdrop] using this
      cases hc : compare o.1 e.1 with
      | lt => exact absurd hc hnot
      | eq => simp [find?, Std.OrientedCmp.eq_symm hc]
      | gt => simp [find?, Std.OrientedCmp.gt_iff_lt.1 hc]

end Entries

/-- A finite map with strictly increasing keys. -/
structure Table (κ : Type) (ν : Type) [Ord κ] where
  /-- Keys with their values. -/
  entries : List (κ × ν)
  /-- Keys increase strictly. -/
  sorted : entries.Pairwise EntryLt

namespace Table

variable {κ ν μ : Type} [Ord κ]

instance [DecidableEq κ] [DecidableEq ν] : DecidableEq (Table κ ν) := fun a b =>
  if h : a.entries = b.entries then
    isTrue (by cases a; cases b; simp_all)
  else
    isFalse (fun hab => h (hab ▸ rfl))

@[ext] theorem ext {a b : Table κ ν} (h : a.entries = b.entries) : a = b := by
  cases a; cases b; simp_all

/-- The table without entries. -/
def empty : Table κ ν := ⟨[], .nil⟩

instance : Inhabited (Table κ ν) := ⟨empty⟩

instance : EmptyCollection (Table κ ν) := ⟨empty⟩

/-- The value kept under `k`. -/
def get? (t : Table κ ν) (k : κ) : Option ν := Entries.find? k t.entries

/-- The value kept under `k`, or `d` where there is none. -/
def getD (t : Table κ ν) (k : κ) (d : ν) : ν := (t.get? k).getD d

/-- Whether `k` is a key. -/
def contains (t : Table κ ν) (k : κ) : Bool := (t.get? k).isSome

/-- The keys, increasing. -/
def keys (t : Table κ ν) : List κ := t.entries.map (·.1)

/-- The values in the order of their keys. -/
def values (t : Table κ ν) : List ν := t.entries.map (·.2)

/-- The number of entries. -/
def size (t : Table κ ν) : Nat := t.entries.length

/-- The sum of a measure over all values. -/
def total (t : Table κ ν) (measure : ν → Nat) : Nat :=
  t.values.foldl (fun sum v => sum + measure v) 0

/-- Whether there is no entry. -/
def isEmpty (t : Table κ ν) : Bool := t.entries.isEmpty

/-- Keeps the entries that satisfy `p`. -/
def filter (p : κ → ν → Bool) (t : Table κ ν) : Table κ ν :=
  ⟨t.entries.filter fun e => p e.1 e.2, t.sorted.filter _⟩

/-- Keeps the entries whose keys `others` has, too. -/
def meet (t : Table κ ν) (others : Table κ μ) [Std.TransOrd κ] : Table κ ν :=
  ⟨Entries.meet t.entries others.entries, by
    rw [Entries.meet_eq_filter t.sorted]
    exact t.sorted.filter _⟩

theorem meet_eq_filter [Std.TransOrd κ] (t : Table κ ν) (others : Table κ μ) :
    t.meet others = t.filter fun k _ => others.contains k :=
  ext (Entries.meet_eq_filter t.sorted others.entries)

/-- Removes the entry of `k`. -/
def erase (t : Table κ ν) (k : κ) : Table κ ν := t.filter fun k' _ => compare k k' != .eq

/-- Applies `f` to every value. -/
def map (f : κ → ν → μ) (t : Table κ ν) : Table κ μ :=
  ⟨t.entries.map fun e => (e.1, f e.1 e.2), by
    rw [List.pairwise_map]
    exact t.sorted⟩

/-- Applies `f` to the value kept under `k`, if there is one. -/
def modify (t : Table κ ν) (k : κ) (f : ν → ν) : Table κ ν :=
  t.map fun k' v => if compare k k' == .eq then f v else v

@[simp] theorem get?_empty (k : κ) : (empty : Table κ ν).get? k = none := rfl

variable [Std.TransOrd κ]

/-- Puts `v` under `k`, replacing what was there. -/
def insert (t : Table κ ν) (k : κ) (v : ν) : Table κ ν :=
  ⟨Entries.insert k v t.entries, Entries.sorted_insert k v t.sorted⟩

/-- The table of the given entries; of two entries with one key the later one stays. -/
def ofList (l : List (κ × ν)) : Table κ ν := l.foldl (fun t e => t.insert e.1 e.2) empty

@[simp] theorem get?_insert_self (t : Table κ ν) (k : κ) (v : ν) :
    (t.insert k v).get? k = some v :=
  Entries.find?_insert_self k v t.entries

theorem get?_insert_ne [Std.LawfulEqOrd κ] (t : Table κ ν) {j k : κ} (v : ν) (h : j ≠ k) :
    (t.insert k v).get? j = t.get? j :=
  Entries.find?_insert_ne v h t.entries

end Table

/-- A finite set: a table whose values say nothing. -/
abbrev KeySet (κ : Type) [Ord κ] := Table κ Unit

namespace KeySet

variable {κ : Type} [Ord κ] [Std.TransOrd κ]

/-- Adds a member. -/
def add (s : KeySet κ) (k : κ) : KeySet κ := s.insert k ()

/-- Adds every member of a list. -/
def addAll (s : KeySet κ) (ks : List κ) : KeySet κ := ks.foldl add s

/-- The set of a list's members. -/
def ofList (ks : List κ) : KeySet κ := addAll Table.empty ks

/-- The members common to two sets. -/
def inter (s t : KeySet κ) : KeySet κ := s.meet t

/-- Whether every member of `s` is one of `t`. -/
def subset (s t : KeySet κ) : Bool := s.keys.all t.contains

end KeySet

end Whittle
