import Mathlib.Data.List.TakeWhile
import Mathlib.Logic.Relation
import Mathlib.Tactic.Common
import Whittle.Project.Load
import Whittle.Proofs.Table

/-!
# Loading projects

Files import files: a statement of a module names another file by a specifier.  A project is the entry with
all that it reaches in this way.  Loading goes by rounds, each of which takes the path that was found last;
with files in memory every round either drops a path or loads one more file, so the rounds come to an end.

What carries the rounds is `Progress`: everything known is reached from the entry, and whatever a loaded
module imports is loaded or still pending.

Main statement: `Project.load_exact`.
-/

namespace Whittle

/-- A specifier means a file that is found at one of the paths that are tried. -/
theorem Resolver.find?_of_resolve {r : Resolver} {specifier importer target : String}
    (h : r.resolve specifier importer = .ok target) :
    ∃ candidate ∈ candidates specifier importer, r.find? candidate = some target := by
  rw [resolve] at h
  split at h
  · next hfound =>
    obtain rfl := Except.ok.inj h
    exact List.exists_of_findSome?_eq_some hfound
  · cases h

namespace Project

/-- A statement of the module takes something from the file that the specifier names. -/
def Asks (tree : Syntax.Module) (specifier : String) : Prop :=
  isRelative specifier = true ∧
    ((∃ node names, .importFrom node names specifier ∈ tree.body) ∨
      ∃ node names, .exportNames node names (some specifier) ∈ tree.body)

/-- The file at the first path imports the file at the second one. -/
def Imports (r : Resolver) (path target : String) : Prop :=
  ∃ text tree specifier, r.read path = .ok text ∧ Syntax.parse ⟨path, text⟩ = .ok tree ∧
    Asks tree specifier ∧ r.resolve specifier path = .ok target

/-- The files that a file imports, and those that they import, and so on. -/
def Reaches (r : Resolver) : String → String → Prop := Relation.ReflTransGen (Imports r)

/-- Why the file at a path cannot be a module of the project. -/
inductive Fails (r : Resolver) (path : String) : Error → Prop
  | read {e : Error} (hread : r.read path = .error e) : Fails r path e
  | parse {text : String} {e : Error} (hread : r.read path = .ok text)
      (hparse : Syntax.parse ⟨path, text⟩ = .error e) : Fails r path e
  | resolve {text : String} {tree : Syntax.Module} {specifier : String} {e : Error}
      (hread : r.read path = .ok text) (hparse : Syntax.parse ⟨path, text⟩ = .ok tree)
      (hasks : Asks tree specifier) (hresolve : r.resolve specifier path = .error e) : Fails r path e

/-- A module is what the file at the path says. -/
structure Loaded (r : Resolver) (path : String) (m : ProjectModule) : Prop where
  path_eq : m.path = path
  origin : m.source.origin = path
  read : r.read path = .ok m.source.text
  parse : Syntax.parse m.source = .ok m.tree
  /-- The specifiers of the table of imports are those of the module that name files. -/
  asks : ∀ specifier, m.imports.contains specifier = true ↔ Asks m.tree specifier
  /-- The paths of the table are those that the specifiers mean. -/
  resolve : ∀ specifier target, m.imports.get? specifier = some target →
    r.resolve specifier path = .ok target

/-- Where loading starts: the file that the name of the entry means next to the entry, or the path of the entry
where there is none. -/
def start (r : Resolver) (entry : String) : String :=
  match r.resolve ("./" ++ (Path.fileName? entry).getD "") entry with
  | .ok path => path
  | .error _ => Path.normalize entry

/-! ## One module -/

theorem asks_iff {tree : Syntax.Module} {specifier : String} :
    Asks tree specifier ↔ specifier ∈ specifiers tree ∧ isRelative specifier = true := by
  rw [Asks, and_comm, specifiers, List.mem_filterMap]
  refine and_congr_left fun _ => ⟨?_, ?_⟩
  · rintro (⟨node, names, hmem⟩ | ⟨node, names, hmem⟩)
    · exact ⟨_, hmem, rfl⟩
    · exact ⟨_, hmem, rfl⟩
  · rintro ⟨s, hmem, hsource⟩
    split at hsource
    · cases hsource
      exact .inl ⟨_, _, hmem⟩
    · cases hsource
      exact .inr ⟨_, _, hmem⟩
    · cases hsource

variable {r : Resolver}

/-- What resolving the specifiers of a list in order comes to. -/
structure Resolved (r : Resolver) (importer : String) (asked : List String) (imports : Table String String)
    (found : List String) : Prop where
  contains : ∀ s, imports.contains s = true ↔ s ∈ asked ∧ isRelative s = true
  resolve : ∀ s path, imports.get? s = some path → r.resolve s importer = .ok path
  found : ∀ path, path ∈ found ↔ ∃ s, imports.get? s = some path

namespace Resolved

variable {importer specifier path : String} {asked found : List String} {imports : Table String String}

theorem nil : Resolved r importer [] ∅ [] where
  contains s := by simp
  resolve s path h := by cases h
  found path := by simpa using fun s h => nomatch h

/-- A package, or a specifier that is repeated. -/
theorem skip (h : Resolved r importer asked imports found)
    (hskip : isRelative specifier = true → imports.contains specifier = true) :
    Resolved r importer (asked ++ [specifier]) imports found where
  contains s := by
    rw [h.contains s, List.mem_append, List.mem_singleton]
    refine and_congr_left fun hrelative => ⟨.inl, ?_⟩
    rintro (hasked | rfl)
    · exact hasked
    · exact ((h.contains s).1 (hskip hrelative)).1
  resolve := h.resolve
  found := h.found

theorem insert (h : Resolved r importer asked imports found) (hrelative : isRelative specifier = true)
    (hnew : imports.contains specifier = false) (hresolve : r.resolve specifier importer = .ok path) :
    Resolved r importer (asked ++ [specifier]) (imports.insert specifier path) (path :: found) where
  contains s := by
    rw [Table.contains_insert, Bool.or_eq_true, h.contains s, List.mem_append, List.mem_singleton,
      decide_eq_true_eq]
    constructor
    · rintro (rfl | ⟨hasked, hs⟩)
      · exact ⟨.inr rfl, hrelative⟩
      · exact ⟨.inl hasked, hs⟩
    · rintro ⟨hasked | rfl, hs⟩
      · exact .inr ⟨hasked, hs⟩
      · exact .inl rfl
  resolve s q hget := by
    rw [Table.get?_insert] at hget
    split at hget
    · next heq =>
      cases hget
      exact heq ▸ hresolve
    · exact h.resolve s q hget
  found q := by
    rw [List.mem_cons, h.found q]
    constructor
    · rintro (rfl | ⟨s, hs⟩)
      · exact ⟨specifier, Table.get?_insert_self ..⟩
      · refine ⟨s, (Table.get?_insert_ne _ _ ?_).trans hs⟩
        rintro rfl
        rw [Table.get?_of_not_contains hnew] at hs
        cases hs
    · rintro ⟨s, hs⟩
      rw [Table.get?_insert] at hs
      split at hs
      · exact .inl (Option.some.inj hs).symm
      · exact .inr ⟨s, hs⟩

end Resolved

theorem resolved_resolveAll {importer : String} (more : List String) {asked : List String}
    {imports : Table String String} {found : List String} (h : Resolved r importer asked imports found) :
    match resolveAll r importer more imports found with
    | .ok (imports', found') => Resolved r importer (asked ++ more) imports' found'
    | .error e => ∃ specifier ∈ more, isRelative specifier = true ∧ r.resolve specifier importer = .error e := by
  induction more generalizing asked imports found with
  | nil =>
    rw [resolveAll, List.append_nil]
    exact h
  | cons specifier more ih =>
    -- the rest of the list decides, whatever becomes of the first specifier
    have hlater {asked : List String} {imports : Table String String} {found : List String}
        (h : Resolved r importer (asked ++ [specifier]) imports found) :
        match resolveAll r importer more imports found with
        | .ok (imports', found') => Resolved r importer (asked ++ specifier :: more) imports' found'
        | .error e => ∃ s ∈ specifier :: more, isRelative s = true ∧ r.resolve s importer = .error e := by
      have hrest := ih h
      rw [List.append_assoc] at hrest
      split at hrest
      · exact hrest
      · obtain ⟨s, hs, hfails⟩ := hrest
        exact ⟨s, List.mem_cons_of_mem _ hs, hfails⟩
    rw [resolveAll]
    by_cases hskip : (!isRelative specifier || imports.contains specifier) = true
    · rw [if_pos hskip]
      refine hlater (h.skip fun hrelative => ?_)
      simpa [hrelative] using hskip
    · rw [if_neg hskip]
      obtain ⟨hrelative, hnew⟩ : isRelative specifier = true ∧ imports.contains specifier = false := by
        simpa using hskip
      cases hresolve : r.resolve specifier importer with
      | error e => exact ⟨specifier, List.mem_cons_self, hrelative, hresolve⟩
      | ok path => exact hlater (h.insert hrelative hnew hresolve)

/-- A module that is loaded is what its file says, and what is found are the paths that it imports; where none is
loaded, the file cannot be read or parsed or one of its imports not be resolved. -/
theorem loaded_loadOne (r : Resolver) (path : String) :
    match loadOne r path with
    | .ok (m, found) =>
      Loaded r path m ∧ ∀ target, target ∈ found ↔ ∃ specifier, m.imports.get? specifier = some target
    | .error e => Fails r path e := by
  rw [loadOne]
  cases hread : r.read path with
  | error e => exact .read hread
  | ok text =>
    cases hparse : Syntax.parse ⟨path, text⟩ with
    | error e =>
      simp only [bind, Except.bind, hparse]
      exact .parse hread hparse
    | ok tree =>
      have hall := resolved_resolveAll (specifiers tree) (.nil : Resolved r path [] ∅ [])
      cases hresult : resolveAll r path (specifiers tree) ∅ [] with
      | error e =>
        rw [hresult] at hall
        simp only [bind, Except.bind, hparse, hresult]
        obtain ⟨specifier, hmem, hrelative, hresolve⟩ := hall
        exact .resolve hread hparse (asks_iff.2 ⟨hmem, hrelative⟩) hresolve
      | ok p =>
        rw [hresult] at hall
        simp only [bind, Except.bind, hparse, hresult]
        exact ⟨⟨rfl, rfl, hread, hparse, fun s => (hall.contains s).trans asks_iff.symm, hall.resolve⟩,
          hall.found⟩

/-- What a loaded module imports stands in its table. -/
theorem Loaded.imports_iff {path target : String} {m : ProjectModule} (h : Loaded r path m) :
    Imports r path target ↔ ∃ specifier, m.imports.get? specifier = some target := by
  have hsource : m.source = ⟨path, m.source.text⟩ := by rw [← h.origin]
  constructor
  · rintro ⟨text, tree, specifier, hread, hparse, hasks, hresolve⟩
    obtain rfl : m.source.text = text := Except.ok.inj (h.read.symm.trans hread)
    obtain rfl : m.tree = tree := by
      rw [← hsource, h.parse] at hparse
      exact Except.ok.inj hparse
    obtain ⟨target', hget⟩ := Table.contains_iff.1 ((h.asks specifier).2 hasks)
    obtain rfl : target' = target := Except.ok.inj ((h.resolve _ _ hget).symm.trans hresolve)
    exact ⟨specifier, hget⟩
  · rintro ⟨specifier, hget⟩
    exact ⟨_, m.tree, specifier, h.read, hsource ▸ h.parse,
      (h.asks specifier).1 (Table.contains_iff.2 ⟨_, hget⟩), h.resolve _ _ hget⟩

/-! ## Rounds -/

/-- The loop that loads a project.  Each round takes the pending path that was found last: one that is loaded is
dropped, and any other one is loaded, with what it imports pending from then on. -/
inductive Rounds (r : Resolver) :
    (pending : List String) → Table String ProjectModule → Outcome (Table String ProjectModule) → Prop
  | done (modules : Table String ProjectModule) : Rounds r [] modules (.ok modules)
  | drop {path : String} {pending : List String} {modules : Table String ProjectModule}
      {result : Outcome (Table String ProjectModule)} (hloaded : modules.contains path = true)
      (hrest : Rounds r pending modules result) : Rounds r (path :: pending) modules result
  | fail {path : String} {pending : List String} {modules : Table String ProjectModule} {e : Error}
      (hnew : modules.contains path = false) (hload : loadOne r path = .error e) :
      Rounds r (path :: pending) modules (.error e)
  | load {path : String} {pending found : List String} {modules : Table String ProjectModule} {m : ProjectModule}
      {result : Outcome (Table String ProjectModule)} (hnew : modules.contains path = false)
      (hload : loadOne r path = .ok (m, found))
      (hrest : Rounds r (found ++ pending) (modules.insert path m) result) :
      Rounds r (path :: pending) modules result

theorem Rounds.of_dropWhile {pending : List String} {modules : Table String ProjectModule}
    {result : Outcome (Table String ProjectModule)}
    (h : Rounds r (pending.dropWhile modules.contains) modules result) : Rounds r pending modules result := by
  induction pending with
  | nil => exact h
  | cons path pending ih =>
    rw [List.dropWhile_cons] at h
    split at h
    · next hloaded => exact .drop hloaded (ih h)
    · exact h

theorem loadAll_of_dropWhile_nil {fuel : Nat} {pending : List String} {modules : Table String ProjectModule}
    (h : pending.dropWhile modules.contains = []) : loadAll r fuel pending modules = .ok modules := by
  cases fuel with
  | zero => rfl
  | succ fuel => rw [loadAll, h]

theorem loadAll_of_dropWhile_cons {path : String} {fuel : Nat} {pending rest : List String}
    {modules : Table String ProjectModule} (h : pending.dropWhile modules.contains = path :: rest) :
    loadAll r (fuel + 1) pending modules =
      loadOne r path >>= fun p => loadAll r fuel (p.2 ++ rest) (modules.insert path p.1) := by
  rw [loadAll, h]

/-- Where all that can be pending is among finitely many paths, the rounds come to an end within as many, and
loading ends as they do. -/
theorem rounds_loadAll (paths : List String)
    (hresolve : ∀ specifier importer target, r.resolve specifier importer = .ok target → target ∈ paths)
    (fuel : Nat) {pending : List String} {modules : Table String ProjectModule} (hpending : pending ⊆ paths)
    (hkeys : modules.keys ⊆ paths) (hfuel : paths.length ≤ fuel + modules.size) :
    Rounds r pending modules (loadAll r fuel pending modules) := by
  induction fuel generalizing pending modules with
  | zero =>
    -- as many modules as paths: nothing new is pending
    have hsize : paths.length ≤ modules.keys.length := by
      rw [Table.length_keys]
      omega
    have hall : paths ⊆ modules.keys :=
      ((Table.keys_nodup modules).subperm hkeys |>.perm_of_length_le hsize).symm.subset
    have hnone : pending.dropWhile modules.contains = [] :=
      List.dropWhile_eq_nil_iff.2 fun path hpath => Table.mem_keys.1 (hall (hpending hpath))
    rw [loadAll_of_dropWhile_nil hnone]
    exact .of_dropWhile (hnone ▸ .done modules)
  | succ fuel ih =>
    cases hrest : pending.dropWhile modules.contains with
    | nil =>
      rw [loadAll_of_dropWhile_nil hrest]
      exact .of_dropWhile (hrest ▸ .done modules)
    | cons path rest =>
      have hnew : modules.contains path = false := by
        have := List.head?_dropWhile_not modules.contains pending
        rwa [hrest] at this
      have hsub : path :: rest ⊆ paths := hrest ▸ List.Subset.trans (List.dropWhile_sublist _).subset hpending
      obtain ⟨hpath, hrestsub⟩ := List.cons_subset.1 hsub
      rw [loadAll_of_dropWhile_cons hrest]
      refine .of_dropWhile (hrest ▸ ?_)
      have hload := loaded_loadOne r path
      cases hone : loadOne r path with
      | error e => exact .fail hnew hone
      | ok p =>
        obtain ⟨m, found⟩ := p
        rw [hone] at hload
        obtain ⟨hloaded, hfound⟩ := hload
        refine .load hnew hone (ih ?_ ?_ ?_)
        · refine List.append_subset.2 ⟨fun target htarget => ?_, hrestsub⟩
          obtain ⟨specifier, hget⟩ := (hfound target).1 htarget
          exact hresolve _ _ _ (hloaded.resolve _ _ hget)
        · intro key hkey
          rw [Table.mem_keys, Table.contains_insert, Bool.or_eq_true, decide_eq_true_eq] at hkey
          rcases hkey with rfl | hkey
          · exact hpath
          · exact hkeys (Table.mem_keys.2 hkey)
        · rw [Table.size_insert hnew]
          omega

/-! ## Progress -/

/-- The path is loaded or waits for it. -/
def Known (pending : List String) (modules : Table String ProjectModule) (path : String) : Prop :=
  modules.contains path = true ∨ path ∈ pending

/-- What holds after each round of loading from a path. -/
structure Progress (r : Resolver) (start : String) (pending : List String)
    (modules : Table String ProjectModule) : Prop where
  reached : ∀ path ∈ pending, Reaches r start path
  loaded : ∀ path m, modules.get? path = some m → Reaches r start path ∧ Loaded r path m
  start_known : Known pending modules start
  imports_known : ∀ path m, modules.get? path = some m → ∀ specifier target,
    m.imports.get? specifier = some target → Known pending modules target

section

variable {start path target : String} {pending found : List String} {modules : Table String ProjectModule}
  {m : ProjectModule}

theorem Known.drop (h : Known (path :: pending) modules target) (hloaded : modules.contains path = true) :
    Known pending modules target := by
  rcases h with h | h
  · exact .inl h
  · rcases List.mem_cons.1 h with rfl | h
    · exact .inl hloaded
    · exact .inr h

theorem Known.load (h : Known (path :: pending) modules target) :
    Known (found ++ pending) (modules.insert path m) target := by
  rw [Known, Table.contains_insert, Bool.or_eq_true, decide_eq_true_eq, List.mem_append]
  rcases h with h | h
  · exact .inl (.inr h)
  · rcases List.mem_cons.1 h with rfl | h
    · exact .inl (.inl rfl)
    · exact .inr (.inr h)

namespace Progress

theorem init (r : Resolver) (start : String) : Progress r start [start] ∅ where
  reached path hpath := List.mem_singleton.1 hpath ▸ .refl
  loaded path m h := by cases h
  start_known := .inr List.mem_cons_self
  imports_known path m h := by cases h

theorem drop (h : Progress r start (path :: pending) modules) (hloaded : modules.contains path = true) :
    Progress r start pending modules where
  reached p hp := h.reached p (List.mem_cons_of_mem _ hp)
  loaded := h.loaded
  start_known := h.start_known.drop hloaded
  imports_known p m hm specifier target hget := (h.imports_known p m hm specifier target hget).drop hloaded

theorem load (h : Progress r start (path :: pending) modules) (hload : loadOne r path = .ok (m, found)) :
    Progress r start (found ++ pending) (modules.insert path m) := by
  have hpath := h.reached path List.mem_cons_self
  obtain ⟨hloaded, hfound⟩ : Loaded r path m ∧
      ∀ target, target ∈ found ↔ ∃ specifier, m.imports.get? specifier = some target := by
    have := loaded_loadOne r path
    rwa [hload] at this
  constructor
  case reached =>
    intro p hp
    rcases List.mem_append.1 hp with hp | hp
    · exact hpath.tail (hloaded.imports_iff.2 ((hfound p).1 hp))
    · exact h.reached p (List.mem_cons_of_mem _ hp)
  case loaded =>
    intro p m' hm'
    rw [Table.get?_insert] at hm'
    split at hm'
    · next heq =>
      cases hm'
      exact heq ▸ ⟨hpath, hloaded⟩
    · exact h.loaded p m' hm'
  case start_known => exact h.start_known.load
  case imports_known =>
    intro p m' hm' specifier target hget
    rw [Table.get?_insert] at hm'
    split at hm'
    · cases hm'
      exact .inr (List.mem_append_left _ ((hfound target).2 ⟨specifier, hget⟩))
    · exact (h.imports_known p m' hm' specifier target hget).load

/-- When nothing is pending, exactly what is reached is loaded. -/
theorem contains_iff (h : Progress r start [] modules) (path : String) :
    modules.contains path = true ↔ Reaches r start path := by
  constructor
  · intro hpath
    obtain ⟨m, hm⟩ := Table.contains_iff.1 hpath
    exact (h.loaded path m hm).1
  · intro hreaches
    induction hreaches with
    | refl => exact h.start_known.resolve_right List.not_mem_nil
    | tail _ himports ih =>
      obtain ⟨m, hm⟩ := Table.contains_iff.1 ih
      obtain ⟨specifier, hget⟩ := (h.loaded _ m hm).2.imports_iff.1 himports
      exact (h.imports_known _ m hm specifier _ hget).resolve_right List.not_mem_nil

end Progress

/-- What the rounds may come to: nothing is left to load, or a file that is reached cannot be a module. -/
def Ends (r : Resolver) (start : String) : Outcome (Table String ProjectModule) → Prop
  | .ok modules => Progress r start [] modules
  | .error e => ∃ path, Reaches r start path ∧ Fails r path e

theorem Rounds.ends {result : Outcome (Table String ProjectModule)} (h : Rounds r pending modules result)
    (hprogress : Progress r start pending modules) : Ends r start result := by
  induction h with
  | done modules => exact hprogress
  | drop hloaded _ ih => exact ih (hprogress.drop hloaded)
  | @fail path pending modules e hnew hload =>
    have hfails := loaded_loadOne r path
    rw [hload] at hfails
    exact ⟨path, hprogress.reached path List.mem_cons_self, hfails⟩
  | load hnew hload _ ih => exact ih (hprogress.load hload)

end

/-! ## Files in memory -/

theorem mem_keys_of_resolve {files : Files} {specifier importer target : String}
    (h : files.resolver.resolve specifier importer = .ok target) : target ∈ files.keys := by
  obtain ⟨candidate, -, hcandidate⟩ := Resolver.find?_of_resolve h
  simp only [Files.resolver] at hcandidate
  split at hcandidate
  · next hcontains =>
    cases hcandidate
    exact Table.mem_keys.2 hcontains
  · cases hcandidate

theorem load_eq (r : Resolver) (entry : String) :
    load r entry = (loadAll r (r.fileCount + 1) [start r entry] ∅).map (⟨start r entry, ·⟩) := by
  rw [load, start]
  cases r.resolve ("./" ++ (Path.fileName? entry).getD "") entry with
  | ok path =>
    dsimp only
    cases loadAll r (r.fileCount + 1) [path] ∅ <;> rfl
  | error e =>
    dsimp only
    cases loadAll r (r.fileCount + 1) [Path.normalize entry] ∅ <;> rfl

/-- Loading from files in memory comes to an end, and is exact.  A project that is loaded has the modules that the
start reaches and no others; each is what its file says, its table of imports has exactly the specifiers of files
for keys, and each value of the table is the path of a module.  And no project is loaded only where a file that
the start reaches cannot be read or parsed, or one of its specifiers not be resolved. -/
theorem load_exact (files : Files) (entry : String) :
    ∃ result, Rounds files.resolver [start files.resolver entry] ∅ result ∧
      match result with
      | .ok modules =>
        load files.resolver entry = .ok ⟨start files.resolver entry, modules⟩ ∧
        (∀ path, modules.contains path = true ↔ Reaches files.resolver (start files.resolver entry) path) ∧
        ∀ path m, modules.get? path = some m → Loaded files.resolver path m ∧
          ∀ specifier target, m.imports.get? specifier = some target → modules.contains target = true
      | .error e =>
        load files.resolver entry = .error e ∧
        ∃ path, Reaches files.resolver (start files.resolver entry) path ∧ Fails files.resolver path e := by
  have hrounds : Rounds files.resolver [start files.resolver entry] ∅
      (loadAll files.resolver (files.resolver.fileCount + 1) [start files.resolver entry] ∅) := by
    refine rounds_loadAll (start files.resolver entry :: files.keys)
      (fun _ _ _ h => List.mem_cons_of_mem _ (mem_keys_of_resolve h)) _ ?_ (List.nil_subset _) ?_
    · exact List.cons_subset.2 ⟨List.mem_cons_self, List.nil_subset _⟩
    · rw [List.length_cons, Table.length_keys]
      exact Nat.le_add_right _ _
  have hends := hrounds.ends (.init files.resolver _)
  refine ⟨_, hrounds, ?_⟩
  rw [load_eq]
  cases hresult : loadAll files.resolver (files.resolver.fileCount + 1) [start files.resolver entry] ∅ with
  | error e =>
    rw [hresult] at hends
    exact ⟨rfl, hends⟩
  | ok modules =>
    rw [hresult] at hends
    have hprogress : Progress files.resolver _ [] modules := hends
    refine ⟨rfl, hprogress.contains_iff, fun path m hm => ⟨(hprogress.loaded path m hm).2, ?_⟩⟩
    intro specifier target hget
    exact (hprogress.imports_known path m hm specifier target hget).resolve_right List.not_mem_nil

end Project

end Whittle
