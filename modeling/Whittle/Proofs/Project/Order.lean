import Mathlib.Tactic.Common
import Whittle.Proofs.DepthFirst
import Whittle.Proofs.Lowering.Tree
import Whittle.Proofs.Project.Publishing
import Whittle.Proofs.Project.Resolving

/-!
# The order of compiling

The modules of a project are compiled in the order in which a walk in depth from the entry finishes them.  A
module that does not lead back is so compiled before all that import it, and what it publishes is known from then
on: no other module writes under its path.

Main statement: `Project.producers_first`.
-/

namespace Whittle.Project

open Ir DepthFirst

variable {r : Resolver} {p : Project} {path target : String}

/-! ## The walk -/

theorem mem_importsOf_iff :
    target ∈ p.importsOf path ↔
      ∃ m specifier, p.modules.get? path = some m ∧ m.imports.get? specifier = some target := by
  rw [importsOf]
  cases hm : p.modules.get? path with
  | none => simp
  | some m => simp [Table.mem_values]

/-- From one state to another the modules of a stack are gone to or finished, one after the other. -/
inductive Visits (p : Project) : List (String × Bool) → KeySet String × List String →
    KeySet String × List String → Prop
  | nil (acc : KeySet String × List String) : Visits p [] acc acc
  | finish {path : String} {stack : List (String × Bool)} {seen : KeySet String} {done : List String}
      {acc : KeySet String × List String} (hrest : Visits p stack (seen, path :: done) acc) :
      Visits p ((path, true) :: stack) (seen, done) acc
  | go {path : String} {stack : List (String × Bool)} {acc acc' acc'' : KeySet String × List String}
      (hwalk : Walk p.importsOf [path] acc acc') (hrest : Visits p stack acc' acc'') :
      Visits p ((path, false) :: stack) acc acc''

variable {stack : List (String × Bool)} {acc acc' : KeySet String × List String}

theorem Visits.exists_walk {paths : List String} (h : Visits p (paths.map (·, false) ++ stack) acc acc') :
    ∃ middle, Walk p.importsOf paths acc middle ∧ Visits p stack middle acc' := by
  induction paths generalizing acc with
  | nil => exact ⟨acc, .nil acc, h⟩
  | cons path paths ih =>
    cases h with
    | go hwalk hrest =>
      obtain ⟨middle, hpaths, hstack⟩ := ih hrest
      exact ⟨middle, hwalk.append hpaths, hstack⟩

/-- No more rounds than this are needed: a module on the stack takes two, a marked one takes one, and each import
of a module that has not been seen may come to the stack. -/
def pending (p : Project) (stack : List (String × Bool)) (seen : KeySet String) : Nat :=
  (stack.map fun e => if e.2 then 1 else 2).sum +
    2 * Entries.totalOutside (·.imports.size) seen p.modules.entries

theorem length_importsOf (p : Project) (path : String) :
    (p.importsOf path).length = ((p.modules.get? path).map (·.imports.size)).getD 0 := by
  rw [importsOf]
  cases p.modules.get? path with
  | none => rfl
  | some m => simp [Table.values, Table.size]

/-- Going to a module costs a round. -/
theorem pending_open {seen : KeySet String} (hnew : seen.contains path = false) {targets : List String}
    (htargets : targets.length ≤ (p.importsOf path).length) :
    p.pending (targets.map (·, false) ++ (path, true) :: stack) (seen.add path) <
      p.pending ((path, false) :: stack) seen := by
  have hopen : Entries.totalOutside (·.imports.size) seen p.modules.entries = (p.importsOf path).length +
      Entries.totalOutside (·.imports.size) (seen.add path) p.modules.entries := by
    rw [length_importsOf]
    exact Table.totalOutside_add p.modules hnew
  have htwice : ((targets.map (·, false)).map fun e : String × Bool => if e.2 then 1 else 2).sum =
      2 * targets.length := by
    simp [Function.comp_def, Nat.mul_comm]
  simp only [pending, hopen, List.map_append, List.sum_append, htwice, List.map_cons, List.sum_cons, if_true,
    Bool.false_eq_true, if_false]
  omega

/-- Round by round the loop does what its stack asks for. -/
theorem visits_visit (fuel : Nat) (hfuel : p.pending stack acc.1 ≤ fuel) :
    Visits p stack acc (p.visit fuel stack acc) := by
  fun_induction visit p fuel stack acc with
  | case1 stack acc =>
    cases stack with
    | nil => exact .nil acc
    | cons e stack =>
      simp only [pending, List.map_cons, List.sum_cons] at hfuel
      split at hfuel <;> omega
  | case2 => exact .nil _
  | case3 fuel path stack seen done ih =>
    refine .finish (ih ?_)
    simp only [pending, List.map_cons, List.sum_cons, if_true] at hfuel ⊢
    omega
  | case4 fuel path stack seen done hseen ih =>
    refine .go (.skip hseen (.nil _)) (ih ?_)
    simp only [pending, List.map_cons, List.sum_cons, Bool.false_eq_true, if_false] at hfuel ⊢
    omega
  | case5 fuel path stack seen done hnew seen' targets ih =>
    have hnew' : seen.contains path = false := by simpa using hnew
    have hopen : p.pending (targets.map (·, false) ++ (path, true) :: stack) (seen.add path) <
        p.pending ((path, false) :: stack) seen := pending_open hnew' (List.length_filter_le _ _)
    obtain ⟨middle, htargets, hrest⟩ := (ih (Nat.le_of_lt_succ (hopen.trans_le hfuel))).exists_walk
    cases hrest with
    | finish hrest => exact .go (.visit hnew' (htargets.of_filter fun _ hb => hb) (.nil _)) hrest

/-- The order is that of a walk from the entry. -/
theorem walk_postOrder (p : Project) :
    ∃ seen, Walk p.importsOf [p.entry] (∅, []) (seen, p.postOrder.reverse) := by
  have hvisits : Visits p [(p.entry, false)] (∅, []) _ :=
    visits_visit (2 * p.modules.total (·.imports.size) + 2) (by
      rw [pending, Table.totalOutside_empty]
      simp [Nat.add_comm])
  refine ⟨(p.visit (2 * p.modules.total (·.imports.size) + 2) [(p.entry, false)] (∅, [])).1, ?_⟩
  rw [postOrder, List.reverse_reverse]
  generalize p.visit _ _ _ = acc' at hvisits ⊢
  cases hvisits with
  | go hwalk hrest =>
    cases hrest
    exact hwalk

theorem nodup_postOrder (p : Project) : p.postOrder.Nodup := by
  obtain ⟨seen, hwalk⟩ := p.walk_postOrder
  exact List.nodup_reverse.1 (hwalk.nodup List.nodup_nil fun _ h => nomatch h)

theorem getLast?_postOrder (p : Project) : p.postOrder.getLast? = some p.entry := by
  obtain ⟨seen, hwalk⟩ := p.walk_postOrder
  rw [← List.head?_reverse]
  generalize p.postOrder.reverse = done at hwalk
  cases hwalk with
  | skip hseen _ => cases hseen
  | visit _ _ hrest =>
    cases hrest
    rfl

theorem mem_postOrder_iff_leads : path ∈ p.postOrder ↔ Leads p.importsOf p.entry path := by
  obtain ⟨seen, hwalk⟩ := p.walk_postOrder
  rw [← List.mem_reverse, hwalk.mem_done_iff]
  constructor
  · rintro (hmem | ⟨hseen, hnew⟩)
    · cases hmem
    · obtain ⟨x, hx, hleads⟩ := hwalk.leads hseen hnew
      exact List.mem_singleton.1 hx ▸ hleads
  · intro hleads
    exact .inr ⟨hwalk.seen_of_leads List.mem_cons_self hleads, rfl⟩

theorem sublist_postOrder (hpath : path ∈ p.postOrder) (htarget : target ∈ p.importsOf path)
    (hback : ¬ Leads p.importsOf target path) : [target, path].Sublist p.postOrder := by
  obtain ⟨seen, hwalk⟩ := p.walk_postOrder
  have hordered := hwalk.inOrder (fun _ h => nomatch h) trivial
  exact List.reverse_sublist.1 (hordered.sublist (List.mem_reverse.2 hpath) htarget hback)

/-! ## Loaded projects -/

namespace Progress

variable (h : Progress r p.entry [] p.modules)
include h

theorem imports_of_mem (htarget : target ∈ p.importsOf path) : Imports r path target := by
  obtain ⟨m, specifier, hm, hget⟩ := mem_importsOf_iff.1 htarget
  exact (h.loaded path m hm).2.imports_iff.2 ⟨specifier, hget⟩

theorem mem_importsOf (hpath : p.modules.contains path = true) (himports : Imports r path target) :
    target ∈ p.importsOf path := by
  obtain ⟨m, hm⟩ := Table.contains_iff.1 hpath
  obtain ⟨specifier, hget⟩ := (h.loaded path m hm).2.imports_iff.1 himports
  exact mem_importsOf_iff.2 ⟨m, specifier, hm, hget⟩

theorem mem_postOrder_iff : path ∈ p.postOrder ↔ Reaches r p.entry path := by
  rw [mem_postOrder_iff_leads]
  refine ⟨fun hleads => Relation.ReflTransGen.mono (fun _ _ => h.imports_of_mem) _ _ hleads, fun hreaches => ?_⟩
  induction hreaches with
  | refl => exact .refl
  | tail hbefore himports ih =>
    exact ih.tail (h.mem_importsOf ((h.contains_iff _).2 hbefore) himports)

end Progress

/-! ## Compiling in order -/

/-- What is known when the modules at the paths of a list have been compiled one after the other. -/
def published (p : Project) (o : Options) : List String → Constants → Outcome Constants
  | [], constants => .ok constants
  | path :: paths, constants =>
    match p.modules.get? path with
    | none => p.published o paths constants
    | some m => do
      let w ← m.lower o constants
      p.published o paths w.constants

variable {o : Options} {constants constants' : Constants}

theorem published_append (p : Project) (o : Options) (before after : List String) (constants : Constants) :
    p.published o (before ++ after) constants = p.published o before constants >>= p.published o after := by
  induction before generalizing constants with
  | nil => rfl
  | cons path before ih =>
    rw [List.cons_append, published, published]
    cases p.modules.get? path with
    | none => exact ih constants
    | some m =>
      simp only [bind, Except.bind, ih]
      cases m.lower o constants <;> rfl

/-- Modules at other paths leave alone what is published under a path. -/
theorem get?_published (hpaths : ∀ other m, p.modules.get? other = some m → m.path = other)
    {paths : List String} (hne : ∀ other ∈ paths, Path.key path ≠ Path.key other)
    (h : p.published o paths constants = .ok constants') (name : String) :
    constants'.get? path name = constants.get? path name := by
  induction paths generalizing constants with
  | nil => rw [Except.ok.inj h]
  | cons other paths ih =>
    obtain ⟨hother, hrest⟩ := List.forall_mem_cons.1 hne
    rw [published] at h
    split at h
    · exact ih hrest h
    · next m hm =>
      cases hlower : m.lower o constants with
      | error e =>
        rw [hlower] at h
        cases h
      | ok w =>
        rw [hlower] at h
        rw [ih hrest h]
        exact (ProjectModule.publishes_lower hlower).2.get? (hpaths other m hm ▸ hother) name

/-- These constants are known when the module at a path has its turn: all modules before it in the order have been
compiled. -/
def KnownAt (p : Project) (o : Options) (path : String) (constants : Constants) : Prop :=
  ∃ before after, p.postOrder = before ++ path :: after ∧ p.published o before {} = .ok constants

theorem mem_of_pair_sublist {before after : List String} (hnodup : (before ++ path :: after).Nodup)
    (h : [target, path].Sublist (before ++ path :: after)) : target ∈ before := by
  obtain ⟨first, second, heq, hfirst, hsecond⟩ := List.sublist_append_iff.1 h
  cases first with
  | nil =>
    obtain rfl : [target, path] = second := heq
    have hafter : path ∈ after := List.singleton_sublist.1 hsecond.tail
    exact absurd hafter (List.nodup_cons.1 (List.nodup_append.1 hnodup).2.1).1
  | cons other first =>
    obtain rfl : target = other := (List.cons.inj heq).1
    exact hfirst.subset List.mem_cons_self

/-- What a module has published is known when a later one is compiled. -/
theorem KnownAt.of_sublist (hr : r.Lawful) {entry : String} (h : load r entry = .ok p)
    (horder : [target, path].Sublist p.postOrder) (hknown : p.KnownAt o path constants) :
    ∃ m known w, p.modules.get? target = some m ∧ p.KnownAt o target known ∧ m.lower o known = .ok w ∧
      ∀ name, constants.get? target name = w.constants.get? target name := by
  obtain ⟨hprogress, -⟩ := progress_of_load hr h
  have hcontains (other : String) (hother : other ∈ p.postOrder) : p.modules.contains other = true :=
    (hprogress.contains_iff other).2 (hprogress.mem_postOrder_iff.1 hother)
  obtain ⟨before, after, hsplit, hpublished⟩ := hknown
  have hnodup := p.nodup_postOrder
  rw [hsplit] at horder hnodup
  obtain ⟨earlier, between, rfl⟩ := List.append_of_mem (mem_of_pair_sublist hnodup horder)
  rw [published_append] at hpublished
  cases hearlier : p.published o earlier {} with
  | error e =>
    rw [hearlier] at hpublished
    cases hpublished
  | ok known =>
    obtain ⟨m, hm⟩ := Table.contains_iff.1 (hcontains target (by simp [hsplit]))
    rw [hearlier] at hpublished
    simp only [bind, Except.bind, published, hm] at hpublished
    cases hlower : m.lower o known with
    | error e =>
      rw [hlower] at hpublished
      cases hpublished
    | ok w =>
      rw [hlower] at hpublished
      refine ⟨m, known, w, hm, ⟨earlier, between ++ path :: after, ?_, hearlier⟩, hlower, ?_⟩
      · rw [hsplit, List.append_assoc, List.cons_append]
      · -- the modules in between have other keys
        refine get?_published (fun other m hm => (hprogress.loaded other m hm).2.path_eq) ?_ hpublished
        intro other hother hkey
        have hmem : other ∈ p.postOrder := by simp [hsplit, hother]
        rw [Path.key_of_normalize (normalize_of_load hr h (hcontains target (by simp [hsplit]))),
          Path.key_of_normalize (normalize_of_load hr h (hcontains other hmem))] at hkey
        have hbetween := (List.nodup_append.1 (List.nodup_append.1 hnodup).1).2.1
        exact (List.nodup_cons.1 hbetween).1 (hkey ▸ hother)

/-- Producers come first.  In a loaded project every module that the entry reaches has one place in the order, the
last one is the entry, and a module that is imported and does not lead back to the importing one is compiled
before it: all that it has published is known by then. -/
theorem producers_first (hr : r.Lawful) {entry : String} (h : load r entry = .ok p) :
    (∀ path, path ∈ p.postOrder ↔ Reaches r p.entry path) ∧ p.postOrder.Nodup ∧
      p.postOrder.getLast? = some p.entry ∧
      ∀ user producer, user ∈ p.postOrder → Imports r user producer →
        ¬ Relation.TransGen (Imports r) producer user →
        [producer, user].Sublist p.postOrder ∧
          ∀ o constants, p.KnownAt o user constants →
            ∃ m known w, p.modules.get? producer = some m ∧ p.KnownAt o producer known ∧
              m.lower o known = .ok w ∧
              ∀ name, constants.get? producer name = w.constants.get? producer name := by
  obtain ⟨hprogress, -⟩ := progress_of_load hr h
  refine ⟨fun _ => hprogress.mem_postOrder_iff, p.nodup_postOrder, p.getLast?_postOrder, ?_⟩
  intro user producer huser himports hback
  have hmem := hprogress.mem_importsOf ((hprogress.contains_iff _).2 (hprogress.mem_postOrder_iff.1 huser)) himports
  have hsub : [producer, user].Sublist p.postOrder := by
    refine sublist_postOrder huser hmem fun hleads => ?_
    rcases Relation.reflTransGen_iff_eq_or_transGen.1 hleads with rfl | hleads
    · exact hback (.single himports)
    · exact hback (Relation.TransGen.mono (fun _ _ => hprogress.imports_of_mem) _ _ hleads)
  exact ⟨hsub, fun o constants => KnownAt.of_sublist hr h hsub⟩

/-- Three modules, two of which import each other. -/
def threeFiles : Files := .ofList
  [("/m.js", "import './b.js'; import { n } from './a.js'; out(n);"),
    ("/b.js", "import './m.js'; import './a.js';"), ("/a.js", "export const n = 1;")]

theorem producers_first_threeFiles : ∃ p, load threeFiles.resolver "/m.js" = .ok p ∧
    p.postOrder = ["/a.js", "/b.js", "/m.js"] ∧ p.postOrder.Nodup ∧
    ["/a.js", "/m.js"].Sublist p.postOrder ∧ ∀ o constants, p.KnownAt o "/m.js" constants →
      ∃ m known w, p.modules.get? "/a.js" = some m ∧ p.KnownAt o "/a.js" known ∧ m.lower o known = .ok w ∧
        ∀ name, constants.get? "/a.js" name = w.constants.get? "/a.js" name := by
  have hload : (load threeFiles.resolver "/m.js").toOption.map
      (fun p => (p.postOrder, p.importsOf "/m.js", p.importsOf "/a.js")) =
        some (["/a.js", "/b.js", "/m.js"], ["/a.js", "/b.js"], []) := by
    decide +kernel
  obtain ⟨p, hp, hdata⟩ := Option.map_eq_some_iff.1 hload
  simp only [Prod.mk.injEq] at hdata
  obtain ⟨horder, hm, ha⟩ := hdata
  have hok := Syntax.Module.eq_ok_of_toOption hp
  have hr : threeFiles.resolver.Lawful := Files.lawful_resolver _
  obtain ⟨hprogress, -⟩ := progress_of_load hr hok
  obtain ⟨hreached, hnodup, -, hfirst⟩ := producers_first hr hok
  -- the module at the end of the imports imports nothing, so it leads nowhere
  have hback : ¬ Relation.TransGen (Imports threeFiles.resolver) "/a.js" "/m.js" := by
    intro hback
    obtain ⟨target, himports, -⟩ := Relation.TransGen.head'_iff.1 hback
    have hcontains := (hprogress.contains_iff "/a.js").2 ((hreached "/a.js").1 (by simp [horder]))
    have hmem := hprogress.mem_importsOf hcontains himports
    rw [ha] at hmem
    cases hmem
  obtain ⟨hsub, hknown⟩ := hfirst "/m.js" "/a.js" (by simp [horder])
    (hprogress.imports_of_mem (by simp [hm])) hback
  exact ⟨p, hok, horder, hnodup, hsub, hknown⟩

end Whittle.Project
