import Mathlib.Tactic.Common
import Whittle.Command.Actions
import Whittle.Proofs.Project.Order

/-!
# Where outputs go

A module below the directory of the entry is written at the same place below the output directory, as a script.
Two such modules are written to one file only if one of them is a script already and the other is not, and nothing
else tells their paths apart.  A module outside of the directory of the entry keeps nothing but its bare name, so
nothing of the kind holds for it.

Main statement: `Command.writes_apart`.
-/

namespace Whittle

namespace Path

/-! ## Names of scripts -/

/-- How the name of a file changes when it is written as a script. -/
inductive ScriptName : String → String → Prop
  | script {stem : String} (hstem : stem ≠ "" ∧ stem ≠ ".") : ScriptName (stem ++ ".ts") (stem ++ ".js")
  /-- What is left of the name has the look of the directory above. -/
  | above : ScriptName "..ts" ".."
  | other {name : String} (hname : ∀ stem, name = stem ++ ".ts" → stem = "") : ScriptName name name

/-- The last name of a path stands at the end of its text. -/
theorem text_concat (names : List String) :
    ∃ front : List Char, (front = [] ∨ ∃ before, front = before ++ ['/']) ∧
      ∀ isAbsolute name, (text ⟨isAbsolute, names ++ [name]⟩).toList =
        (if isAbsolute then ['/'] else []) ++ front ++ name.toList := by
  induction names with
  | nil => exact ⟨[], .inl rfl, fun isAbsolute name => by simp [toList_text]⟩
  | cons first names ih =>
    obtain ⟨front, hfront, htext⟩ := ih
    refine ⟨first.toList ++ '/' :: front, .inr ?_, fun isAbsolute name => ?_⟩
    · rcases hfront with rfl | ⟨before, rfl⟩
      · exact ⟨first.toList, rfl⟩
      · exact ⟨first.toList ++ '/' :: before, by simp⟩
    · have hrest := htext false name
      obtain ⟨second, rest, hnames⟩ : ∃ second rest, names ++ [name] = second :: rest :=
        List.exists_cons_of_ne_nil (by simp)
      rw [toList_text] at hrest ⊢
      simp only [List.cons_append, hnames, List.map_cons, List.intercalate_cons_cons] at hrest ⊢
      simpa using hrest

theorem toScript_of_toList {path name : String} {front : List Char} (hpath : path.toList = front ++ name.toList)
    (hfront : front = [] ∨ ∃ before, front = before ++ ['/']) (hname : IsName name) :
    ∃ name', ScriptName name name' ∧ (toScript path).toList = front ++ name'.toList := by
  have hreverse : path.toList.reverse = name.toList.reverse ++ front.reverse := by simp [hpath]
  have hbefore : front.reverse = [] ∨ ∃ before, front.reverse = '/' :: before := by
    rcases hfront with rfl | ⟨before, rfl⟩
    · exact .inl rfl
    · exact .inr ⟨before.reverse, by simp⟩
  have hslash : '/' ∉ name.toList.reverse := by simpa using hname.2
  rw [toScript]
  split
  · next c rest hmatch =>
    rw [hreverse] at hmatch
    -- the three letters are those of the name, for a separator stands in front of it
    obtain ⟨tail, htail, hrest⟩ : ∃ tail, name.toList.reverse = 's' :: 't' :: '.' :: tail ∧
        tail ++ front.reverse = c :: rest := by
      rcases hletters : name.toList.reverse with _ | ⟨_, _ | ⟨_, _ | ⟨_, tail⟩⟩⟩ <;> rw [hletters] at hmatch
      · exact absurd hletters (by simpa using hname.1)
      · rcases hbefore with hnone | ⟨before, hbefore⟩
        · simp [hnone] at hmatch
        · simp [hbefore] at hmatch
      · rcases hbefore with hnone | ⟨before, hbefore⟩
        · simp [hnone] at hmatch
        · simp [hbefore] at hmatch
      · simp only [List.cons_append, List.cons.injEq] at hmatch
        obtain ⟨rfl, rfl, rfl, hrest⟩ := hmatch
        exact ⟨tail, rfl, hrest⟩
    have hname' : name.toList = tail.reverse ++ ".ts".toList := by
      rw [← List.reverse_reverse name.toList, htail]
      simp
    rw [htail] at hslash
    cases tail with
    | nil =>
      obtain rfl : c = '/' := by
        rcases hbefore with hnone | ⟨before, hbefore⟩
        · simp [hnone] at hrest
        · simp only [hbefore, List.nil_append, List.cons.injEq] at hrest
          exact hrest.1.symm
      refine ⟨name, .other fun stem hstem => ?_, hpath⟩
      rw [hstem, String.toList_append] at hname'
      simpa using hname'
    | cons c' init =>
      simp only [List.cons_append, List.cons.injEq] at hrest
      obtain ⟨rfl, rfl⟩ := hrest
      have hc : c' ≠ '/' := by
        rintro rfl
        exact hslash (by simp)
      rw [if_neg (by simpa using hc)]
      split
      · next habove =>
        rw [Bool.and_eq_true, beq_iff_eq, beq_iff_eq] at habove
        obtain ⟨rfl, hhead⟩ := habove
        -- in front of the dot stands nothing of the name
        have hinit : init = [] := by
          cases init with
          | nil => rfl
          | cons d init =>
            obtain rfl : d = '/' := hhead
            exact absurd (by simp) hslash
        subst hinit
        obtain rfl : name = "..ts" := String.toList_inj.1 hname'
        exact ⟨"..", .above, by simp⟩
      · next habove =>
        have hstem : name = String.ofList (init.reverse ++ [c']) ++ ".ts" := String.toList_inj.1 (by simp [hname'])
        refine ⟨String.ofList (init.reverse ++ [c']) ++ ".js", hstem ▸ .script ⟨by simp, fun hdot => ?_⟩, by simp⟩
        refine habove ?_
        have hlist : init.reverse ++ [c'] = ['.'] := by simpa using congrArg String.toList hdot
        obtain ⟨rfl, rfl⟩ : init = [] ∧ c' = '.' := by
          cases init with
          | nil => simpa using hlist
          | cons d init => exact absurd (congrArg List.length hlist) (by simp)
        rcases hbefore with hnone | ⟨before, hbefore⟩
        · simp [hnone]
        · simp [hbefore]
  · next hno =>
    refine ⟨name, .other fun stem hstem => ?_, hpath⟩
    by_contra hne
    obtain ⟨c, rest, hc⟩ : ∃ c rest, stem.toList.reverse = c :: rest :=
      List.exists_cons_of_ne_nil (by simpa using hne)
    refine hno c (rest ++ front.reverse) ?_
    rw [hreverse, hstem, String.toList_append, List.reverse_append, hc]
    rfl

/-- A path is written as a script by its last name. -/
theorem toScript_text (names : List String) {name : String} (hname : IsName name) :
    ∃ name', ScriptName name name' ∧ toScript (text ⟨false, names ++ [name]⟩) = text ⟨false, names ++ [name']⟩ := by
  obtain ⟨front, hfront, htext⟩ := text_concat names
  obtain ⟨name', hscript, hlist⟩ := toScript_of_toList (htext false name) hfront hname
  exact ⟨name', hscript, String.toList_inj.1 (hlist.trans (htext false name').symm)⟩

namespace ScriptName

variable {name other written : String}

theorem isName (h : ScriptName name written) (hname : IsName name) (hhere : name ≠ ".") :
    IsName written ∧ written ≠ "." := by
  cases h with
  | @script stem hstem =>
    have hslash : '/' ∉ stem.toList := fun hmem => hname.2 (by simp [hmem])
    exact ⟨⟨by simp, by simp [hslash]⟩, fun hdot => by simpa using congrArg (·.toList.length) hdot⟩
  | above => exact ⟨⟨by decide, by decide⟩, by decide⟩
  | other => exact ⟨hname, hhere⟩

theorem script_ne_above (stem : String) : stem ++ ".js" ≠ ".." := by
  intro h
  simpa using congrArg (·.toList.getLast?) h

/-- Two names become one only if they differ in their endings and one is that of a script already. -/
theorem eq_or_twins (h : ScriptName name written) (h' : ScriptName other written) (hname : name ≠ "..")
    (hother : other ≠ "..") : name = other ∨ ∃ stem, (name = stem ++ ".ts" ∧ other = stem ++ ".js") ∨
      (name = stem ++ ".js" ∧ other = stem ++ ".ts") := by
  generalize hwritten : written = written' at h'
  cases h with
  | @script stem _ =>
    cases h' with
    | @script stem' _ => exact .inl (by rw [(String.append_left_inj _).1 hwritten])
    | above => exact absurd hwritten (script_ne_above stem)
    | other => exact .inr ⟨stem, .inl ⟨rfl, hwritten.symm⟩⟩
  | above =>
    cases h' with
    | @script stem' _ => exact absurd hwritten.symm (script_ne_above stem')
    | above => exact .inl rfl
    | other => exact absurd hwritten.symm hother
  | other =>
    cases h' with
    | @script stem' _ => exact .inr ⟨stem', .inr ⟨hwritten, rfl⟩⟩
    | above => exact absurd hwritten hname
    | other => exact .inl hwritten

end ScriptName

theorem text_append_ending (isAbsolute : Bool) (names : List String) (stem ending : String) :
    text ⟨isAbsolute, names ++ [stem ++ ending]⟩ = text ⟨isAbsolute, names ++ [stem]⟩ ++ ending := by
  obtain ⟨front, -, htext⟩ := text_concat names
  apply String.toList_inj.1
  simp [htext]

/-! ## Places of outputs -/

/-- The path stands below a root under names that say where it is. -/
structure Below (root path : String) (names : List String) : Prop where
  eq : path = text ⟨(ofText root).isAbsolute, (ofText root).names ++ names⟩
  plain : ∀ name ∈ names, IsName name ∧ name ≠ "." ∧ name ≠ ".."

theorem below_of_below? {root path relative : String} (hpath : normalize path = path)
    (h : below? root path = some relative) : ∃ names, Below root path names ∧ relative = text ⟨false, names⟩ := by
  simp only [below?, Option.ite_none_right_eq_some, Bool.and_eq_true, beq_iff_eq,
    List.isPrefixOf_iff_prefix] at h
  obtain ⟨⟨habsolute, names, hnames⟩, hrelative⟩ := h
  refine ⟨names, ⟨?_, fun name hname => ?_⟩, ?_⟩
  · rw [habsolute, hnames]
    exact (key_of_normalize hpath).symm
  · have hmem : name ∈ (ofText path).names := hnames ▸ List.mem_append_right _ hname
    exact ⟨(settled_ofText path).isName name hmem, ne_of_mem_names hpath hmem⟩
  · rw [← hnames, List.drop_left] at hrelative
    exact (Option.some.inj hrelative).symm

/-- Names are written as those of a script by the last one. -/
inductive ScriptNames : List String → List String → Prop
  | nil : ScriptNames [] []
  | last {names : List String} {name written : String} (h : ScriptName name written) :
      ScriptNames (names ++ [name]) (names ++ [written])

theorem ofText_join_toScript (base : String) {names : List String}
    (hnames : ∀ name ∈ names, IsName name ∧ name ≠ "." ∧ name ≠ "..") :
    ∃ written, ScriptNames names written ∧ ofText (join base (toScript (text ⟨false, names⟩))) =
      ⟨(ofText base).isAbsolute, (ofText base).names ++ written⟩ := by
  rcases List.eq_nil_or_concat names with rfl | ⟨front, name, rfl⟩
  · exact ⟨[], .nil, ofText_join base fun name hname => nomatch hname⟩
  · rw [List.concat_eq_append] at hnames ⊢
    obtain ⟨hname, hhere, -⟩ := hnames name (by simp)
    obtain ⟨written, hscript, htext⟩ := toScript_text front hname
    refine ⟨front ++ [written], .last hscript, ?_⟩
    rw [htext]
    apply ofText_join
    intro other hother
    rcases List.mem_append.1 hother with hother | hother
    · obtain ⟨hname, hhere, -⟩ := hnames other (List.mem_append_left _ hother)
      exact ⟨hname, hhere⟩
    · exact List.mem_singleton.1 hother ▸ hscript.isName hname hhere

/-- The paths differ in nothing but that the first is that of a typed script and the other one that of a plain
one. -/
def Twins (path other : String) : Prop := ∃ stem, path = stem ++ ".ts" ∧ other = stem ++ ".js"

/-- Two paths below a root that are written to one place are twins. -/
theorem Below.eq_or_twins {root base path other : String} {names names' : List String}
    (h : Below root path names) (h' : Below root other names')
    (hplace : key (join base (toScript (text ⟨false, names⟩))) = key (join base (toScript (text ⟨false, names'⟩)))) :
    path = other ∨ Twins path other ∨ Twins other path := by
  obtain ⟨written, hwritten, hread⟩ := ofText_join_toScript base h.plain
  obtain ⟨written', hwritten', hread'⟩ := ofText_join_toScript base h'.plain
  have hsame := text_injective (settled_ofText _) (settled_ofText _) hplace
  rw [hread, hread'] at hsame
  obtain rfl : written = written' := List.append_cancel_left (congrArg Path.names hsame)
  generalize hagain : written = written' at hwritten'
  cases hwritten with
  | nil =>
    cases hwritten' with
    | nil => exact .inl (h.eq.trans h'.eq.symm)
    | last => simp at hagain
  | @last front name last hscript =>
    cases hwritten' with
    | nil => simp at hagain
    | @last front' name' last' hscript' =>
      obtain ⟨rfl, rfl⟩ := List.append_inj' hagain rfl |>.imp_right List.singleton_inj.1
      have hends (stem ending : String) : text ⟨(ofText root).isAbsolute, (ofText root).names ++
          (front ++ [stem ++ ending])⟩ =
            text ⟨(ofText root).isAbsolute, (ofText root).names ++ (front ++ [stem])⟩ ++ ending := by
        rw [← List.append_assoc, text_append_ending, List.append_assoc]
      have hname := (h.plain name (by simp)).2.2
      have hname' := (h'.plain name' (by simp)).2.2
      rcases hscript.eq_or_twins hscript' hname hname' with rfl | ⟨stem, ⟨rfl, rfl⟩ | ⟨rfl, rfl⟩⟩
      · exact .inl (h.eq.trans h'.eq.symm)
      · exact .inr (.inl ⟨_, h.eq.trans (hends _ _), h'.eq.trans (hends _ _)⟩)
      · exact .inr (.inr ⟨_, h'.eq.trans (hends _ _), h.eq.trans (hends _ _)⟩)

end Path

/-- What is compiled are the modules at the paths of a list, in its order. -/
theorem Project.paths_compileAll {p : Project} {o : Ir.Options} {target : Target} {paths : List String}
    {constants : Ir.Constants} {modules : List Compiled}
    (hpaths : ∀ path ∈ paths, p.modules.contains path = true)
    (h : p.compileAll o target paths constants = .ok modules) : modules.map (·.path) = paths := by
  induction paths generalizing constants modules with
  | nil =>
    obtain rfl := Except.ok.inj h
    rfl
  | cons path paths ih =>
    obtain ⟨hpath, hrest⟩ := List.forall_mem_cons.1 hpaths
    obtain ⟨m, hm⟩ := Table.contains_iff.1 hpath
    simp only [compileAll, hm, bind, Except.bind] at h
    split at h
    · cases h
    · split at h
      · cases h
      · split at h
        · cases h
        · next rest hcompile =>
          obtain rfl := Except.ok.inj h
          exact congrArg (path :: ·) (ih hrest hcompile)

/-- Outputs do not overwrite each other where all modules stand below the directory of the entry and no two of
them differ only in being typed and plain scripts: each module is written to a place of its own. -/
theorem Command.writes_apart {c : Command} {r : Resolver} {p : Project} {directory : String}
    {modules : List Compiled} (hr : r.Lawful) (h : Project.load r c.entry = .ok p)
    (hcompile : p.compile c.options c.target = .ok modules) (houtput : c.output = some directory)
    (hmany : 1 < modules.length)
    (hbelow : ∀ m ∈ modules, (Path.below? ((Path.parent? p.entry).getD "") m.path).isSome = true)
    (htwins : ∀ m ∈ modules, ∀ m' ∈ modules, ¬ Path.Twins m.path m'.path) :
    ∃ place : Compiled → String, c.actions p modules = modules.map (fun m => .write (place m) m.code) ∧
      (modules.map fun m => Path.key (place m)).Nodup := by
  obtain ⟨hprogress, -⟩ := Project.progress_of_load hr h
  have hcontains (path : String) (hpath : path ∈ p.postOrder) : p.modules.contains path = true :=
    (hprogress.contains_iff path).2 (hprogress.mem_postOrder_iff.1 hpath)
  have hpaths : modules.map (·.path) = p.postOrder := Project.paths_compileAll hcontains hcompile
  have hnormal (m : Compiled) (hm : m ∈ modules) : Path.normalize m.path = m.path :=
    Project.normalize_of_load hr h (hcontains _ (hpaths ▸ List.mem_map_of_mem hm))
  refine ⟨fun m => Path.join directory (outputName ((Path.parent? p.entry).getD "") m.path), ?_, ?_⟩
  · obtain ⟨first, second, rest, rfl⟩ : ∃ first second rest, modules = first :: second :: rest := by
      match modules, hmany with
      | first :: second :: rest, _ => exact ⟨first, second, rest, rfl⟩
    simp only [actions, houtput]
  · have hnodup : (modules.map (·.path)).Nodup := hpaths ▸ p.nodup_postOrder
    refine List.Nodup.map_on (fun m hm m' hm' hplace => ?_) (List.Nodup.of_map _ hnodup)
    obtain ⟨relative, hrelative⟩ := Option.isSome_iff_exists.1 (hbelow m hm)
    obtain ⟨relative', hrelative'⟩ := Option.isSome_iff_exists.1 (hbelow m' hm')
    obtain ⟨names, hnames, rfl⟩ := Path.below_of_below? (hnormal m hm) hrelative
    obtain ⟨names', hnames', rfl⟩ := Path.below_of_below? (hnormal m' hm') hrelative'
    simp only [outputName, hrelative, hrelative', Option.getD_some] at hplace
    rcases hnames.eq_or_twins hnames' hplace with heq | htwin | htwin
    · exact List.inj_on_of_nodup_map hnodup hm hm' heq
    · exact absurd htwin (htwins m hm m' hm')
    · exact absurd htwin (htwins m' hm' m hm)

/-- Two modules, one in a directory of its own. -/
def nestedFiles : Files := .ofList [("/src/main.ts", "import './lib/a'; f();"), ("/src/lib/a.ts", "g();")]

/-- The command that compiles them into a directory. -/
def nestedCommand : Command := ⟨"/src/main.ts", some "out", .code, .none⟩

theorem Command.writes_apart_nested : ∃ p modules, Project.load nestedFiles.resolver "/src/main.ts" = .ok p ∧
    p.compile .none .code = .ok modules ∧ modules.map (·.path) = ["/src/lib/a.ts", "/src/main.ts"] ∧
    ∃ place : Compiled → String,
      nestedCommand.actions p modules = modules.map (fun m => .write (place m) m.code) ∧
      (modules.map fun m => Path.key (place m)).Nodup := by
  have hrun : (do
      let p ← (Project.load nestedFiles.resolver "/src/main.ts").toOption
      let modules ← (p.compile .none .code).toOption
      return (p.entry, modules.map fun m : Compiled => m.path)) =
        some ("/src/main.ts", ["/src/lib/a.ts", "/src/main.ts"]) := by
    decide +kernel
  obtain ⟨p, hload, hrun⟩ := Option.bind_eq_some_iff.1 hrun
  obtain ⟨modules, hcompile, hrun⟩ := Option.bind_eq_some_iff.1 hrun
  obtain ⟨hentry, hpaths⟩ := Prod.mk.inj (Option.some.inj hrun)
  have hload := Syntax.Module.eq_ok_of_toOption hload
  have hcompile := Syntax.Module.eq_ok_of_toOption hcompile
  have hmem (m : Compiled) (hm : m ∈ modules) : m.path ∈ ["/src/lib/a.ts", "/src/main.ts"] :=
    hpaths ▸ List.mem_map_of_mem hm
  have hbelow (path : String) (hpath : path ∈ ["/src/lib/a.ts", "/src/main.ts"]) :
      (Path.below? ((Path.parent? "/src/main.ts").getD "") path).isSome = true := by
    revert path
    decide +kernel
  have hplain (path : String) (hpath : path ∈ ["/src/lib/a.ts", "/src/main.ts"]) (stem : String) :
      path ≠ stem ++ ".js" := by
    rintro rfl
    have hending : (stem ++ ".js").toList.reverse.take 2 = ['s', 'j'] := by simp
    simp only [List.mem_cons, List.not_mem_nil, or_false] at hpath
    rcases hpath with heq | heq
    · exact absurd (heq ▸ hending) (by decide)
    · exact absurd (heq ▸ hending) (by decide)
  refine ⟨p, modules, hload, hcompile, hpaths, ?_⟩
  refine Command.writes_apart (c := nestedCommand) (Files.lawful_resolver _) hload hcompile rfl ?_ ?_ ?_
  · rw [← List.length_map (f := fun m : Compiled => m.path), hpaths]
    decide
  · intro m hm
    rw [hentry]
    exact hbelow _ (hmem m hm)
  · rintro m - m' hm' ⟨stem, -, hjs⟩
    exact hplain _ (hmem m' hm') stem hjs

end Whittle
