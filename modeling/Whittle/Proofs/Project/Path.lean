import Mathlib.Tactic.Common
import Whittle.Project.Path

/-!
# Texts of paths

A text is split into names at its separators, and names are joined by separators again.  Nothing is lost where
no name is empty or holds a separator; so the text of a path says which path it is.

Main statements: `Path.ofText_text` and `Path.normalize_text`.
-/

namespace Whittle.Path

/-- Something that can stand between separators. -/
def IsName (name : String) : Prop := name ≠ "" ∧ '/' ∉ name.toList

/-- The path is read from its own text: its parts are names, and none of them says "here" but for the first one
of a relative path. -/
structure Settled (p : Path) : Prop where
  isName : ∀ name ∈ p.names, IsName name
  here_rest : "." ∉ p.names.tail
  here_absolute : p.isAbsolute = true → "." ∉ p.names

/-! ## Splitting and joining -/

theorem not_mem_of_mem_splitOn {α : Type} [BEq α] [LawfulBEq α] {x : α} {xs l : List α} (h : l ∈ xs.splitOn x) :
    x ∉ l := by
  induction xs generalizing l with
  | nil =>
    obtain rfl : l = [] := by simpa using h
    exact List.not_mem_nil
  | cons y xs ih =>
    rw [List.splitOn_cons_eq_if_modifyHead] at h
    split at h
    · rcases List.mem_cons.1 h with rfl | h
      · exact List.not_mem_nil
      · exact ih h
    · next hne =>
      cases hsplit : xs.splitOn x with
      | nil => exact absurd hsplit (List.splitOn_ne_nil x xs)
      | cons first rest =>
        rw [hsplit, List.modifyHead_cons] at h
        rcases List.mem_cons.1 h with rfl | h
        · rintro (_ | ⟨_, hmem⟩)
          · simp at hne
          · exact ih (hsplit ▸ List.mem_cons_self) hmem
        · exact ih (hsplit ▸ List.mem_cons_of_mem _ h)

theorem isName_of_mem_segments {text name : String} (h : name ∈ segments text) : IsName name := by
  obtain ⟨hmem, hne⟩ := List.mem_filter.1 h
  obtain ⟨cs, hcs, rfl⟩ := List.mem_map.1 hmem
  refine ⟨fun hempty => ?_, ?_⟩
  · simp [hempty] at hne
  · rw [String.toList_ofList]
    exact not_mem_of_mem_splitOn hcs

theorem toList_text (p : Path) :
    p.text.toList = (if p.isAbsolute then ['/'] else []) ++ ['/'].intercalate (p.names.map String.toList) := by
  rw [text, String.toList_append, String.toList_intercalate]
  cases p.isAbsolute <;> rfl

/-- The names of a path are what stands between the separators of its text. -/
theorem segments_text {p : Path} (h : ∀ name ∈ p.names, IsName name) : segments p.text = p.names := by
  have hjoined : ((['/'].intercalate (p.names.map String.toList)).splitOn '/').filter (!·.isEmpty) =
      p.names.map String.toList := by
    cases hnames : p.names with
    | nil => rfl
    | cons name names =>
      rw [← hnames, List.splitOn_intercalate '/' (by simpa using fun n hn => (h n hn).2) (by simp [hnames]),
        List.filter_eq_self]
      simpa using fun n hn => (h n hn).1
  have hsplit : (p.text.toList.splitOn '/').filter (!·.isEmpty) = p.names.map String.toList := by
    rw [toList_text]
    cases p.isAbsolute with
    | false => exact hjoined
    | true =>
      rw [if_pos rfl, List.singleton_append, List.splitOn_cons_eq_if_modifyHead, if_pos (by rfl)]
      exact hjoined
  rw [segments, List.filter_map]
  have hempty : (fun name : String => !name.isEmpty) ∘ String.ofList = fun cs : List Char => !cs.isEmpty := by
    funext cs
    cases cs <;> simp
  rw [hempty, hsplit, List.map_map]
  simp [Function.comp_def]

theorem head?_text {p : Path} (h : ∀ name ∈ p.names, IsName name) :
    (p.text.toList.head? == some '/') = p.isAbsolute := by
  rw [toList_text]
  cases p.isAbsolute with
  | true => rfl
  | false =>
    cases hnames : p.names with
    | nil => rfl
    | cons name names =>
      obtain ⟨hne, hslash⟩ := h name (hnames ▸ List.mem_cons_self)
      cases hcs : name.toList with
      | nil => exact absurd (String.toList_eq_nil_iff.1 hcs) hne
      | cons c cs =>
        have hc : c ≠ '/' := fun heq => hslash (by simp [hcs, heq])
        cases names <;> simp [hcs, hc, List.intercalate_cons_cons]

/-! ## Reading what was written -/

theorem settled_ofText (t : String) : (ofText t).Settled := by
  have hnames : ∀ name ∈ segments t, IsName name := fun _ => isName_of_mem_segments
  rw [ofText]
  dsimp only
  split
  · exact ⟨by simp, by simp, by simp⟩
  · next first rest hsegments =>
    rw [hsegments] at hnames
    have hrest (name : String) (hname : name ∈ rest.filter (· != ".")) : IsName name :=
      hnames name (List.mem_cons_of_mem _ (List.mem_filter.1 hname).1)
    have hhere : "." ∉ rest.filter (· != ".") := by simp
    split
    · exact ⟨hrest, fun hmem => hhere (List.mem_of_mem_tail hmem), fun _ => hhere⟩
    · next hfirst =>
      refine ⟨List.forall_mem_cons.2 ⟨hnames first List.mem_cons_self, hrest⟩, hhere, fun habsolute => ?_⟩
      rw [List.mem_cons, not_or]
      refine ⟨fun heq => hfirst ?_, hhere⟩
      rw [Bool.and_eq_true, ← heq]
      exact ⟨habsolute, rfl⟩

/-- A settled path is read from its text. -/
theorem ofText_text {p : Path} (h : p.Settled) : ofText p.text = p := by
  rw [ofText, segments_text h.isName, head?_text h.isName]
  obtain ⟨isAbsolute, names⟩ := p
  cases names with
  | nil => rfl
  | cons first rest =>
    have hrest : rest.filter (· != ".") = rest := by
      rw [List.filter_eq_self]
      intro name hname
      rw [bne_iff_ne]
      rintro rfl
      exact h.here_rest hname
    have hfirst : (isAbsolute && first == ".") = false := by
      cases isAbsolute with
      | false => rfl
      | true => simpa using fun heq : first = "." => h.here_absolute rfl (heq ▸ List.mem_cons_self)
    simp only [hrest, hfirst, Bool.false_eq_true, if_false]

theorem text_injective {p q : Path} (hp : p.Settled) (hq : q.Settled) (h : p.text = q.text) : p = q := by
  rw [← ofText_text hp, h, ofText_text hq]

/-- What is left when "here" and "one up" are worked out are names of the path. -/
theorem mem_resolveNames {names : List String} {name : String} (h : name ∈ resolveNames names) :
    name ∈ names ∧ name ≠ "." ∧ name ≠ ".." := by
  have hfold (done : List String) : ∀ name, name ∈ names.foldl
      (fun done name => if name == "." then done else if name == ".." then done.tail else name :: done) done →
      name ∈ done ∨ name ∈ names ∧ name ≠ "." ∧ name ≠ ".." := by
    clear h
    induction names generalizing done with
    | nil => exact fun _ h => .inl h
    | cons n names ih =>
      intro name h
      rw [List.foldl_cons] at h
      rcases ih _ name h with h | ⟨h, hne⟩
      · split at h
        · exact .inl h
        · next hhere =>
          split at h
          · exact .inl (List.mem_of_mem_tail h)
          · next hup =>
            rcases List.mem_cons.1 h with rfl | h
            · exact .inr ⟨List.mem_cons_self, by simpa using hhere, by simpa using hup⟩
            · exact .inl h
      · exact .inr ⟨List.mem_cons_of_mem _ h, hne⟩
  exact (hfold [] name (List.mem_reverse.1 h)).resolve_left List.not_mem_nil

theorem settled_resolveNames (t : String) :
    ({ ofText t with names := resolveNames (ofText t).names } : Path).Settled where
  isName name h := (settled_ofText t).isName name (mem_resolveNames h).1
  here_rest h := (mem_resolveNames (List.mem_of_mem_tail h)).2.1 rfl
  here_absolute _ h := (mem_resolveNames h).2.1 rfl

/-- Names none of which says "here" or "one up" stay. -/
theorem resolveNames_of_plain {names : List String} (h : ∀ name ∈ names, name ≠ "." ∧ name ≠ "..") :
    resolveNames names = names := by
  have hfold (done : List String) : names.foldl
      (fun done name => if name == "." then done else if name == ".." then done.tail else name :: done) done =
      names.reverse ++ done := by
    induction names generalizing done with
    | nil => rfl
    | cons name names ih =>
      obtain ⟨hname, hrest⟩ := List.forall_mem_cons.1 h
      rw [List.foldl_cons, ih hrest, List.reverse_cons, List.append_assoc]
      simp [hname.1, hname.2]
  rw [resolveNames, hfold, List.append_nil, List.reverse_reverse]

/-- A path without detours is what its text is normalized to. -/
theorem normalize_text {p : Path} (h : p.Settled) (hplain : ∀ name ∈ p.names, name ≠ "." ∧ name ≠ "..") :
    normalize p.text = p.text := by
  rw [normalize, ofText_text h, resolveNames_of_plain hplain]

theorem normalize_normalize (t : String) : normalize (normalize t) = normalize t :=
  normalize_text (settled_resolveNames t) fun _ hname => (mem_resolveNames hname).2

/-- A normalized path is written as its key. -/
theorem key_of_normalize {t : String} (h : normalize t = t) : key t = t := by
  rw [← h, key, normalize, ofText_text (settled_resolveNames t)]

/-- A normalized path has no part that says "here" or "one up". -/
theorem ne_of_mem_names {t name : String} (h : normalize t = t) (hname : name ∈ (ofText t).names) :
    name ≠ "." ∧ name ≠ ".." := by
  rw [← h, normalize, ofText_text (settled_resolveNames t)] at hname
  exact (mem_resolveNames hname).2

/-! ## Putting paths together -/

theorem segments_append_separator (s t : String) : segments (s ++ "/" ++ t) = segments s ++ segments t := by
  have hsplit : (s ++ "/" ++ t).toList.splitOn '/' = s.toList.splitOn '/' ++ t.toList.splitOn '/' := by
    rw [String.toList_append, String.toList_append, List.append_assoc]
    exact List.splitOnP_append_cons _ _ (beq_self_eq_true '/')
  rw [segments, hsplit, List.map_append, List.filter_append]
  rfl

theorem ofText_of_segments {s t : String} {names : List String}
    (hhead : (s.toList.head? == some '/') = (t.toList.head? == some '/'))
    (hsegments : segments s = segments t ++ names) (hnames : "." ∉ names) :
    ofText s = ⟨(ofText t).isAbsolute, (ofText t).names ++ names⟩ := by
  have hkeep (rest : List String) (hrest : "." ∉ rest) : rest.filter (· != ".") = rest := by
    rw [List.filter_eq_self]
    intro name hname
    rw [bne_iff_ne]
    rintro rfl
    exact hrest hname
  rw [ofText, ofText, hsegments, hhead]
  cases segments t with
  | nil =>
    cases names with
    | nil => rfl
    | cons first rest =>
      obtain ⟨hfirst, hrest⟩ := not_or.1 (mt List.mem_cons.2 hnames)
      have hfirst : (first == ".") = false := beq_false_of_ne (Ne.symm hfirst)
      simp [hfirst, hkeep rest hrest]
  | cons first rest =>
    simp only [List.cons_append, List.filter_append, hkeep names hnames]
    split <;> rfl

/-- Names that are joined to a base stand behind those of the base. -/
theorem ofText_join (base : String) {names : List String} (hnames : ∀ name ∈ names, IsName name ∧ name ≠ ".") :
    ofText (join base (text ⟨false, names⟩)) = ⟨(ofText base).isAbsolute, (ofText base).names ++ names⟩ := by
  have hhere : "." ∉ names := fun hmem => (hnames _ hmem).2 rfl
  have hisName : ∀ name ∈ names, IsName name := fun name hname => (hnames name hname).1
  have hsegments := segments_text (p := ⟨false, names⟩) hisName
  have hhead := head?_text (p := ⟨false, names⟩) hisName
  rw [join, hhead, Bool.false_or]
  split
  · next hempty =>
    obtain rfl : base = "" := by simpa using hempty
    exact ofText_of_segments hhead hsegments hhere
  · next hempty =>
    obtain ⟨c, cs, hbase⟩ : ∃ c cs, base.toList = c :: cs :=
      List.exists_cons_of_ne_nil fun hnil => hempty (by simpa using hnil)
    split
    · next hlast =>
      obtain ⟨front, hfront⟩ := List.getLast?_eq_some_iff.1 (eq_of_beq hlast)
      obtain rfl : base = String.ofList front ++ "/" := String.toList_inj.1 (by simpa using hfront)
      refine ofText_of_segments (by simp [hbase]) ?_ hhere
      have hnone := segments_append_separator (String.ofList front) ""
      rw [String.append_empty] at hnone
      rw [segments_append_separator, hsegments, hnone]
      exact congrArg (· ++ names) (List.append_nil _).symm
    · refine ofText_of_segments (by simp [hbase]) ?_ hhere
      rw [segments_append_separator, hsegments]

end Whittle.Path
