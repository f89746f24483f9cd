import Mathlib.Tactic.Common
import Whittle.Disk
import Whittle.Proofs.Project.Loading
import Whittle.Proofs.Project.Path

/-!
# Places where files are found

What every place where files are found has to promise, and that memory and disks do: the path of a file is
written without detours, and there are no more files than are counted.  A project that is loaded from such a
place has all its files, each under a normalized path.

Main statements: `Files.lawful_resolver`, `Disk.lawful_resolver` and `Project.progress_of_load`.
-/

namespace Whittle

/-- What a place where files are found promises: the path of a file is normalized, and there are at most as many
files as it says. -/
structure Resolver.Lawful (r : Resolver) : Prop where
  normal : ∀ path found, r.find? path = some found → Path.normalize found = found
  count : ∃ paths : List String, paths.length ≤ r.fileCount ∧
    ∀ path found, r.find? path = some found → found ∈ paths

/-! ## Memory -/

theorem Files.keys_normalize (files : List (String × String)) {path : String}
    (h : (Files.ofList files).contains path = true) : ∃ t, path = Path.normalize t := by
  have hfold (l : List (String × String)) (hl : ∀ e ∈ l, ∃ t, e.1 = Path.normalize t) (table : Files)
      (htable : table.contains path = true → ∃ t, path = Path.normalize t)
      (hpath : (l.foldl (fun t e => t.insert e.1 e.2) table).contains path = true) :
      ∃ t, path = Path.normalize t := by
    induction l generalizing table with
    | nil => exact htable hpath
    | cons e l ih =>
      refine ih (fun e' he' => hl e' (List.mem_cons_of_mem _ he')) _ (fun hcontains => ?_) hpath
      rw [Table.contains_insert, Bool.or_eq_true, decide_eq_true_eq] at hcontains
      rcases hcontains with rfl | hcontains
      · exact hl e List.mem_cons_self
      · exact htable hcontains
  refine hfold _ (fun e he => ?_) Table.empty (fun h => nomatch h) h
  obtain ⟨f, -, rfl⟩ := List.mem_map.1 he
  exact ⟨f.1, rfl⟩

/-- Files in memory are found by their normalized paths. -/
theorem Files.lawful_resolver (files : List (String × String)) : (Files.ofList files).resolver.Lawful where
  normal path found h := by
    simp only [resolver] at h
    split at h
    · next hcontains =>
      obtain rfl := Option.some.inj h
      obtain ⟨t, rfl⟩ := keys_normalize files hcontains
      exact Path.normalize_normalize t
    · cases h
  count := by
    refine ⟨(Files.ofList files).keys, by simp [resolver], fun path found h => ?_⟩
    simp only [resolver] at h
    split at h
    · next hcontains =>
      obtain rfl := Option.some.inj h
      exact Table.mem_keys.2 hcontains
    · cases h

/-! ## Disks -/

namespace Disk

variable {d : Disk}

/-- Every item of the trail stands under its name in the directory before it. -/
def Holds (d : Disk) : Trail → Prop
  | [] => True
  | (name, item) :: trail => Path.IsName name ∧ (name ≠ "." ∧ name ≠ "..") ∧
    (∃ items, d.item trail = .directory items ∧ items.lookup name = some item) ∧ d.Holds trail

theorem Holds.tail {trail : Trail} (h : d.Holds trail) : d.Holds trail.tail := by
  cases trail with
  | nil => exact h
  | cons step trail => exact h.2.2.2

theorem Holds.step {trail trail' : Trail} {name : String} (h : d.Holds trail) (hname : Path.IsName name)
    (hstep : d.step trail name = .ok trail') : d.Holds trail' := by
  rw [Disk.step] at hstep
  split at hstep
  · cases hstep
  · next items hitems =>
    split at hstep
    · exact Except.ok.inj hstep ▸ h
    · next hhere =>
      split at hstep
      · exact Except.ok.inj hstep ▸ h.tail
      · next hup =>
        split at hstep
        · cases hstep
        · split at hstep
          · cases hstep
          · next item hlookup =>
            obtain rfl := Except.ok.inj hstep
            exact ⟨hname, ⟨by simpa using hhere, by simpa using hup⟩, ⟨items, hitems, hlookup⟩, h⟩

theorem Holds.walk {trail trail' : Trail} {names : List String} (h : d.Holds trail)
    (hnames : ∀ name ∈ names, Path.IsName name) (hwalk : d.walk trail names = .ok trail') :
    d.Holds trail' := by
  rw [Disk.walk] at hwalk
  induction names generalizing trail with
  | nil =>
    rw [List.foldlM_nil] at hwalk
    exact Except.ok.inj hwalk ▸ h
  | cons name names ih =>
    rw [List.foldlM_cons] at hwalk
    cases hstep : d.step trail name with
    | error fault =>
      rw [hstep] at hwalk
      cases hwalk
    | ok next =>
      rw [hstep] at hwalk
      obtain ⟨hname, hrest⟩ := List.forall_mem_cons.1 hnames
      exact ih (h.step hname hstep) hrest hwalk

theorem holds_of_follow (hd : ∀ name ∈ d.workingDirectory, Path.IsName name) {path : String}
    {names : List String} {trail : Trail} (hnames : ∀ name ∈ names, Path.IsName name)
    (h : d.follow path names = .ok trail) : d.Holds trail := by
  have hroot : d.Holds [] := trivial
  simp only [follow, bind, Except.bind] at h
  split at h
  · cases h
  · split at h
    · exact hroot.walk hnames h
    · split at h
      · cases h
      · next start hstart => exact (hroot.walk hd hstart).walk hnames h

theorem holds_of_file? (hd : ∀ name ∈ d.workingDirectory, Path.IsName name) {path : String} {trail : Trail}
    (h : d.file? path = some trail) : d.Holds trail ∧ ∃ contents, d.item trail = .file contents := by
  rw [file?] at h
  split at h
  · next t hfind =>
    split at h
    · next contents hitem =>
      obtain rfl := Option.some.inj h
      refine ⟨?_, contents, hitem⟩
      simp only [find, bind, Except.bind] at hfind
      split at hfind
      · cases hfind
      · next t' hfollow =>
        have hholds := holds_of_follow hd (fun _ => Path.isName_of_mem_segments) hfollow
        split at hfind
        · split at hfind
          · cases hfind
          · exact Except.ok.inj hfind ▸ hholds
        · exact Except.ok.inj hfind ▸ hholds
    · cases h
  · cases h

theorem mem_filesAll {name : String} {item : DiskItem} {items : List (String × DiskItem)}
    (h : items.lookup name = some item) {f : List String × String} (hf : f ∈ item.files) :
    (name :: f.1, f.2) ∈ DiskItem.filesAll items := by
  induction items with
  | nil => cases h
  | cons entry items ih =>
    obtain ⟨other, found⟩ := entry
    rw [DiskItem.filesAll, List.mem_append]
    rw [List.lookup_cons] at h
    split at h
    · next heq =>
      obtain rfl := Option.some.inj h
      obtain rfl := eq_of_beq heq
      exact .inl (List.mem_map_of_mem hf)
    · exact .inr (ih h)

/-- What an item at the end of a trail holds, the root holds behind the names of the trail. -/
theorem Holds.mem_files {trail : Trail} (h : d.Holds trail) {f : List String × String}
    (hf : f ∈ (d.item trail).files) : (trail.names ++ f.1, f.2) ∈ d.root.files := by
  induction trail generalizing f with
  | nil => exact hf
  | cons step trail ih =>
    obtain ⟨name, item⟩ := step
    obtain ⟨-, -, ⟨items, hitems, hlookup⟩, hrest⟩ := h
    have hbefore := ih hrest (f := (name :: f.1, f.2)) (by
      rw [hitems, DiskItem.files]
      exact mem_filesAll hlookup hf)
    simpa [Trail.names] using hbefore

theorem Holds.names {trail : Trail} (h : d.Holds trail) :
    ∀ name ∈ trail.names, Path.IsName name ∧ name ≠ "." ∧ name ≠ ".." := by
  induction trail with
  | nil => simp [Trail.names]
  | cons step trail ih =>
    intro name hname
    simp only [Trail.names, List.map_cons, List.reverse_cons, List.mem_append, List.mem_singleton] at hname
    rcases hname with hname | rfl
    · exact ih h.2.2.2 name hname
    · exact ⟨h.1, h.2.1⟩

theorem Holds.settled {trail : Trail} (h : d.Holds trail) : (⟨true, trail.names⟩ : Path).Settled where
  isName name hname := (h.names name hname).1
  here_rest hmem := (h.names _ (List.mem_of_mem_tail hmem)).2.1 rfl
  here_absolute _ hmem := (h.names _ hmem).2.1 rfl

/-- Files on a disk are found by the names that lead to them from the root. -/
theorem lawful_resolver (hd : ∀ name ∈ d.workingDirectory, Path.IsName name) : d.resolver.Lawful where
  normal path found h := by
    obtain ⟨trail, htrail, rfl⟩ := Option.map_eq_some_iff.1 h
    have hholds := (holds_of_file? hd htrail).1
    exact Path.normalize_text hholds.settled fun name hname => (hholds.names name hname).2
  count := by
    refine ⟨d.root.files.map fun f => Path.text ⟨true, f.1⟩, by simp [resolver], fun path found h => ?_⟩
    obtain ⟨trail, htrail, rfl⟩ := Option.map_eq_some_iff.1 h
    obtain ⟨hholds, contents, hitem⟩ := holds_of_file? hd htrail
    have hmem := hholds.mem_files (f := ([], contents)) (by
      rw [hitem, DiskItem.files]
      exact List.mem_singleton.2 rfl)
    rw [List.append_nil] at hmem
    exact List.mem_map.2 ⟨_, hmem, rfl⟩

end Disk

/-! ## Loaded projects -/

namespace Project

variable {r : Resolver} {entry : String} {p : Project}

/-- When a project is loaded, nothing is left to load. -/
theorem progress_of_load (hr : r.Lawful) (h : load r entry = .ok p) :
    Progress r p.entry [] p.modules ∧ p.entry = start r entry := by
  obtain ⟨paths, hlength, hpaths⟩ := hr.count
  have hresolve (specifier importer target : String) (htarget : r.resolve specifier importer = .ok target) :
      target ∈ start r entry :: paths := by
    obtain ⟨candidate, -, hfind⟩ := Resolver.find?_of_resolve htarget
    exact List.mem_cons_of_mem _ (hpaths _ _ hfind)
  have hrounds : Rounds r [start r entry] ∅ (loadAll r (r.fileCount + 1) [start r entry] ∅) := by
    refine rounds_loadAll (start r entry :: paths) hresolve (r.fileCount + 1)
      (List.cons_subset.2 ⟨List.mem_cons_self, List.nil_subset _⟩) (List.nil_subset _) ?_
    rw [List.length_cons]
    exact Nat.le_add_right_of_le (Nat.succ_le_succ hlength)
  have hends := hrounds.ends (.init r _)
  rw [load_eq] at h
  cases hresult : loadAll r (r.fileCount + 1) [start r entry] ∅ with
  | error e =>
    rw [hresult] at h
    cases h
  | ok modules =>
    rw [hresult] at h hends
    obtain rfl := Except.ok.inj h
    exact ⟨hends, rfl⟩

/-- The paths of the modules of a project are normalized. -/
theorem normalize_of_load (hr : r.Lawful) (h : load r entry = .ok p) {path : String}
    (hpath : p.modules.contains path = true) : Path.normalize path = path := by
  obtain ⟨hprogress, hentry⟩ := progress_of_load hr h
  have hresolve {specifier importer target : String} (htarget : r.resolve specifier importer = .ok target) :
      Path.normalize target = target := by
    obtain ⟨candidate, -, hfind⟩ := Resolver.find?_of_resolve htarget
    exact hr.normal _ _ hfind
  rcases (hprogress.contains_iff path).1 hpath with _ | ⟨-, _, _, _, -, -, -, htarget⟩
  · rw [hentry, start]
    split
    · next hstart => exact hresolve hstart
    · exact Path.normalize_normalize _
  · exact hresolve htarget

end Project

end Whittle
