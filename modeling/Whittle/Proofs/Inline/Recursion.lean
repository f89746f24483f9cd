import Mathlib.Logic.Relation
import Mathlib.Tactic.Common
import Whittle.Optimize.Inline
import Whittle.Proofs.Table

/-!
# Recursion

Whether a function reaches itself is decided by a walk over the graph of direct calls.  The walk is
exact for the graph that it sees (`isRecursive_iff`).  What it found is remembered, so a later graph may
disagree with it; what is remembered of functions that do not reach themselves stays true as long as
later graphs lead nowhere new (`RecursionCache.Sound.mono`).
-/

namespace Whittle.Ir

open Relation

/-- One function calls another one directly. -/
def CallGraph.Calls (graph : CallGraph) (f g : FuncId) : Prop := (graph.getD f ∅).contains g = true

/-- No function that is remembered as not recursive reaches itself. -/
def RecursionCache.Sound (cache : RecursionCache) (graph : CallGraph) : Prop :=
  ∀ id, cache.get? id = some false → ¬ TransGen graph.Calls id id

variable {graph graph' : CallGraph} {cache cache' : RecursionCache} {goal id : FuncId} {fuel : Nat}
  {stack : List FuncId} {seen : KeySet FuncId}

/-! ## The walk -/

/-- What the walk finds, calls lead to. -/
theorem exists_of_reachesCall (h : reachesCall graph goal fuel stack seen = true) :
    ∃ f ∈ stack, ReflTransGen graph.Calls f goal := by
  fun_induction reachesCall graph goal fuel stack seen with
  | case1 => cases h
  | case2 => cases h
  | case3 fuel f stack seen heq => exact ⟨f, List.mem_cons_self, by rw [eq_of_beq heq]⟩
  | case4 fuel f stack seen hne hold ih =>
    obtain ⟨g, hg, hpath⟩ := ih h
    exact ⟨g, List.mem_cons_of_mem _ hg, hpath⟩
  | case5 fuel f stack seen hne hnew ih =>
    obtain ⟨g, hg, hpath⟩ := ih h
    rcases List.mem_append.1 hg with hg | hg
    · exact ⟨f, List.mem_cons_self, .head (Table.mem_keys.1 hg) hpath⟩
    · exact ⟨g, List.mem_cons_of_mem _ hg, hpath⟩

/-- With fuel for the stack and the calls of functions not yet expanded, a walk that does not find the
goal ends with a set of functions that no call leads out of, the goal not among them. -/
theorem exists_closed_of_reachesCall (h : reachesCall graph goal fuel stack seen = false)
    (hfuel : stack.length + Entries.totalOutside (·.size) seen graph.entries ≤ fuel)
    (hgoal : seen.contains goal = false)
    (hclosed : ∀ f g, seen.contains f = true → graph.Calls f g → seen.contains g = true ∨ g ∈ stack) :
    ∃ found : KeySet FuncId, found.contains goal = false ∧
      (∀ f, f ∈ stack ∨ seen.contains f = true → found.contains f = true) ∧
      ∀ f g, found.contains f = true → graph.Calls f g → found.contains g = true := by
  fun_induction reachesCall graph goal fuel stack seen with
  | case1 stack seen =>
    obtain rfl : stack = [] := List.length_eq_zero_iff.1 (by omega)
    exact ⟨seen, hgoal, by simp, by simpa using hclosed⟩
  | case2 fuel seen => exact ⟨seen, hgoal, by simp, by simpa using hclosed⟩
  | case3 => cases h
  | case4 fuel f stack seen hne hold ih =>
    obtain ⟨found, hout, hin, hcalls⟩ := ih h (by simp at hfuel; omega) hgoal fun a b ha hab => by
      rcases hclosed a b ha hab with hb | hb
      · exact .inl hb
      · obtain rfl | hb := List.mem_cons.1 hb
        · exact .inl hold
        · exact .inr hb
    refine ⟨found, hout, fun a ha => hin a ?_, hcalls⟩
    rw [List.mem_cons] at ha
    rcases ha with (rfl | ha) | ha
    · exact .inr hold
    · exact .inl ha
    · exact .inr ha
  | case5 fuel f stack seen hne hnew ih =>
    have hnew : seen.contains f = false := by simpa using hnew
    have hopen : Entries.totalOutside (·.size) seen graph.entries = (graph.getD f ∅).size +
        Entries.totalOutside (·.size) (KeySet.add seen f) graph.entries :=
      Table.totalOutside_add_getD graph hnew rfl
    have hne : goal ≠ f := fun heq => hne (by simp [heq])
    obtain ⟨found, hout, hin, hcalls⟩ := ih h (by simp at hfuel ⊢; omega) (by simp [hne, hgoal])
      fun a b ha hab => by
        rw [KeySet.contains_add, Bool.or_eq_true, decide_eq_true_eq] at ha ⊢
        rcases ha with rfl | ha
        · exact .inr (List.mem_append_left _ (Table.mem_keys.2 hab))
        · rcases hclosed a b ha hab with hb | hb
          · exact .inl (.inr hb)
          · obtain rfl | hb := List.mem_cons.1 hb
            · exact .inl (.inl rfl)
            · exact .inr (List.mem_append_right _ hb)
    refine ⟨found, hout, fun a ha => hin a ?_, hcalls⟩
    rw [List.mem_cons] at ha
    rw [KeySet.contains_add, Bool.or_eq_true, decide_eq_true_eq]
    rcases ha with (rfl | ha) | ha
    · exact .inr (.inl rfl)
    · exact .inl (List.mem_append_right _ ha)
    · exact .inr (.inr ha)

/-- Where nothing is remembered of a function, it counts as recursive exactly if calls lead from it to
itself. -/
theorem isRecursive_iff (hcache : cache.get? id = none) :
    (isRecursive graph cache id).1 = true ↔ TransGen graph.Calls id id := by
  rw [isRecursive, hcache, TransGen.head'_iff]
  dsimp only
  constructor
  · intro h
    obtain ⟨f, hf, hpath⟩ := exists_of_reachesCall h
    exact ⟨f, Table.mem_keys.1 hf, hpath⟩
  · rintro ⟨f, hcall, hpath⟩
    by_contra hnot
    rw [Bool.not_eq_true] at hnot
    obtain ⟨found, hout, hin, hcalls⟩ := exists_closed_of_reachesCall hnot
      (by rw [Table.totalOutside_empty]; omega) (Table.contains_empty id) (by simp)
    have hfound (g : FuncId) (hg : ReflTransGen graph.Calls f g) : found.contains g = true := by
      induction hg with
      | refl => exact hin f (.inl (Table.mem_keys.2 hcall))
      | tail _ hab ih => exact hcalls _ _ ih hab
    rw [hfound id hpath] at hout
    cases hout

/-! ## What is remembered -/

namespace RecursionCache.Sound

theorem empty (graph : CallGraph) : RecursionCache.Sound ∅ graph := nofun

/-- What is remembered stays true while calls lead nowhere new. -/
theorem mono (h : cache.Sound graph)
    (hgraph : ∀ f g, TransGen graph'.Calls f g → TransGen graph.Calls f g) : cache.Sound graph' :=
  fun id hid hcycle => h id hid (hgraph id id hcycle)

theorem isRecursive (h : cache.Sound graph) (id : FuncId) :
    (isRecursive graph cache id).2.Sound graph ∧
      ((Ir.isRecursive graph cache id).1 = false → ¬ TransGen graph.Calls id id) := by
  cases hcache : cache.get? id with
  | some known =>
    simp only [Ir.isRecursive, hcache]
    refine ⟨h, fun hknown => h id ?_⟩
    rw [hcache, hknown]
  | none =>
    have hiff : (Ir.isRecursive graph cache id).1 = true ↔ TransGen graph.Calls id id :=
      isRecursive_iff hcache
    have hnew : (Ir.isRecursive graph cache id).1 = false → ¬ TransGen graph.Calls id id := by
      intro hfalse hcycle
      rw [hiff.2 hcycle] at hfalse
      cases hfalse
    refine ⟨fun f hf => ?_, hnew⟩
    have hinsert : (Ir.isRecursive graph cache id).2 =
        cache.insert id (Ir.isRecursive graph cache id).1 := by
      rw [Ir.isRecursive, hcache]
    rw [hinsert, Table.get?_insert] at hf
    split at hf
    · next heq => exact heq ▸ hnew (Option.some.inj hf)
    · exact h f hf

/-- The search for a call to replace takes no function that reaches itself. -/
theorem findInlining {m : Module} {env : Environment} {calls : List (Function × CallSite)}
    {found : Option Inlining} (h : cache.Sound graph)
    (hfind : m.findInlining env graph calls cache = (found, cache')) :
    cache'.Sound graph ∧
      ∀ inl, found = some inl → ¬ TransGen graph.Calls inl.site.callee inl.site.callee := by
  induction calls generalizing cache with
  | nil =>
    rw [Module.findInlining, Prod.mk.injEq] at hfind
    obtain ⟨rfl, rfl⟩ := hfind
    exact ⟨h, by rintro inl ⟨⟩⟩
  | cons call calls ih =>
    obtain ⟨caller, site⟩ := call
    rw [Module.findInlining] at hfind
    split at hfind
    · exact ih h hfind
    · split at hfind
      · exact ih h hfind
      · obtain ⟨hsound, hfalse⟩ := h.isRecursive site.callee
        dsimp only at hfind
        split at hfind
        · exact ih hsound hfind
        · next hnot =>
          rw [Prod.mk.injEq] at hfind
          obtain ⟨rfl, rfl⟩ := hfind
          refine ⟨hsound, fun inl hinl => ?_⟩
          obtain rfl := Option.some.inj hinl
          exact hfalse (by simpa using hnot)

end RecursionCache.Sound

end Whittle.Ir
