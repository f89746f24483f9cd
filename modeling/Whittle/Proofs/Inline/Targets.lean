import Whittle.Proofs.Inline.Recursion
import Whittle.Proofs.Ir.Functions

/-!
# Calls whose callee is known

A call is direct if its callee is a load of the declaration of a function that nothing else writes
(`Function.DirectCall`).  Where every instruction of a function has a result of its own, the search for
direct calls finds these calls and no others, and the graph of calls is the graph of them.
-/

namespace Whittle.Ir

open Relation

/-- What a call calls. -/
def Op.callee? : Op → Option Place
  | .call callee _ => some callee
  | _ => none

theorem Op.callee?_eq_some {op : Op} {p : Place} :
    op.callee? = some p ↔ ∃ arguments, op = .call p arguments := by
  cases op <;> simp [callee?]

/-- The declaration that a load reads, under the load's result. -/
def Instr.loads? (i : Instr) : Option (CellId × DeclId) :=
  match i.op with
  | .loadLocal place => some (i.place.cell.id, place.declaration)
  | _ => none

theorem Instr.loads?_eq_some {i : Instr} {k : CellId} {d : DeclId} : i.loads? = some (k, d) ↔
    ∃ source, i.op = .loadLocal source ∧ i.place.cell.id = k ∧ source.declaration = d := by
  cases hop : i.op <;> simp [loads?, hop]

/-- A place holds the function of a declaration that nothing else writes: a load of the declaration
computes it. -/
def Function.Designates (f : Function) (env : Environment) (p : Place) (g : FuncId) : Prop :=
  ∃ load ∈ f.instructions, ∃ source, load.op = .loadLocal source ∧
    load.place.cell.id = p.cell.id ∧ env.functions.get? source.declaration = some g ∧
    (env.versionsOf source.declaration).length = 1

/-- A call in a block of a function, and the function that it is known to call. -/
structure Function.DirectCall (f : Function) (env : Environment) (call : Instr) (g : FuncId) :
    Prop where
  block : ∃ b ∈ f.blocks.values, call ∈ b.instructions
  callee : ∃ p, call.op.callee? = some p ∧ f.Designates env p g

/-- Some direct call leads from one function of a module to another one. -/
def Module.Calls (m : Module) (env : Environment) (f g : FuncId) : Prop :=
  ∃ caller, m.functions.get? f = some caller ∧ ∃ call, caller.DirectCall env call g

/-- What an entry of a table with different keys is. -/
theorem CellMap.get?_ofList_iff {ν : Type} {l : List (CellId × ν)} (hl : (l.map (·.1)).Nodup)
    {k : CellId} {v : ν} : (Std.TreeMap.ofList l : CellMap ν).get? k = some v ↔ (k, v) ∈ l := by
  have hget {v : ν} (hmem : (k, v) ∈ l) : (Std.TreeMap.ofList l : CellMap ν).get? k = some v := by
    rw [Std.TreeMap.get?_eq_getElem?]
    refine Std.TreeMap.getElem?_ofList_of_mem Std.ReflOrd.compare_self ?_ hmem
    exact (List.pairwise_map.1 hl).imp fun hne heq => hne (Std.LawfulEqOrd.eq_of_compare heq)
  refine ⟨fun h => ?_, hget⟩
  have hcontains : (Std.TreeMap.ofList l : CellMap ν).contains k = true := by
    rw [Std.TreeMap.contains_eq_isSome_getElem?, ← Std.TreeMap.get?_eq_getElem?, h]
    rfl
  rw [Std.TreeMap.contains_ofList] at hcontains
  obtain ⟨⟨k', v'⟩, hmem, rfl⟩ := List.mem_map.1 (List.contains_iff_mem.1 hcontains)
  rw [hget hmem] at h
  exact Option.some.inj h ▸ hmem

namespace Function

variable {f : Function} {env : Environment} {site : CallSite}

/-- Different loads stand under different results. -/
theorem nodup_loads (hresults : (f.instructions.map (·.place.cell.id)).Nodup) :
    ((f.instructions.filterMap Instr.loads?).map (·.1)).Nodup := by
  refine hresults.sublist ?_
  generalize f.instructions = is
  induction is with
  | nil => exact .slnil
  | cons i is ih =>
    cases he : i.loads? with
    | none =>
      rw [List.filterMap_cons_none he]
      exact ih.cons _
    | some e =>
      obtain ⟨-, -, hid, -⟩ := Instr.loads?_eq_some.1 he
      rw [List.filterMap_cons_some he, List.map_cons, List.map_cons, ← hid]
      exact ih.cons_cons _

/-- The search for direct calls finds direct calls and no others. -/
theorem mem_directCalls (hresults : (f.instructions.map (·.place.cell.id)).Nodup) :
    site ∈ f.directCalls env ↔ ∃ b call, f.blocks.get? site.block = some b ∧
      b.instructions[site.index]? = some call ∧
      ∃ p, call.op.callee? = some p ∧ f.Designates env p site.callee := by
  rw [directCalls]
  simp only [List.mem_flatMap, List.mem_filterMap, Prod.exists, List.mem_zipIdx_iff_getElem?]
  constructor
  · rintro ⟨id, b, hb, call, index, hcall, hsite⟩
    split at hsite
    · next p arguments hop =>
      obtain ⟨d, hd, hsite⟩ := Option.bind_eq_some_iff.1 hsite
      obtain ⟨g, hg, hsite⟩ := Option.bind_eq_some_iff.1 hsite
      split at hsite
      · next hlength =>
        obtain rfl := Option.some.inj hsite
        refine ⟨b, call, Table.mem_entries.1 hb, hcall, p, Op.callee?_eq_some.2 ⟨arguments, hop⟩, ?_⟩
        obtain ⟨load, hload, hloads⟩ :=
          List.mem_filterMap.1 ((CellMap.get?_ofList_iff (nodup_loads hresults)).1 hd)
        obtain ⟨source, hsource, hid, rfl⟩ := Instr.loads?_eq_some.1 hloads
        exact ⟨load, hload, source, hsource, hid, hg, eq_of_beq hlength⟩
      · cases hsite
    · cases hsite
  · rintro ⟨b, call, hb, hcall, p, hop, load, hload, source, hsource, hid, hg, hlength⟩
    obtain ⟨arguments, hop⟩ := Op.callee?_eq_some.1 hop
    refine ⟨site.block, b, Table.mem_entries.2 hb, call, site.index, hcall, ?_⟩
    have hget := (CellMap.get?_ofList_iff (nodup_loads hresults)).2
      (List.mem_filterMap.2 ⟨load, hload, Instr.loads?_eq_some.2 ⟨source, hsource, hid, rfl⟩⟩)
    simp only [hop]
    refine Option.bind_eq_some_iff.2 ⟨source.declaration, hget, ?_⟩
    exact Option.bind_eq_some_iff.2 ⟨site.callee, hg, if_pos (beq_iff_eq.2 hlength)⟩

/-- In terms of instructions. -/
theorem exists_site (hresults : (f.instructions.map (·.place.cell.id)).Nodup) {g : FuncId} :
    (∃ site ∈ f.directCalls env, site.callee = g) ↔ ∃ call, f.DirectCall env call g := by
  constructor
  · rintro ⟨site, hsite, rfl⟩
    obtain ⟨b, call, hb, hcall, hcallee⟩ := (mem_directCalls hresults).1 hsite
    exact ⟨call, ⟨b, Table.mem_values.2 ⟨_, hb⟩, List.mem_of_getElem? hcall⟩, hcallee⟩
  · rintro ⟨call, ⟨b, hb, hcall⟩, hcallee⟩
    obtain ⟨id, hb⟩ := Table.mem_values.1 hb
    obtain ⟨index, hindex⟩ := List.getElem?_of_mem hcall
    exact ⟨⟨id, index, g⟩, (mem_directCalls hresults).2 ⟨b, call, hb, hindex, hcallee⟩, rfl⟩

end Function

theorem Module.instructions_sublist {m : Module} {id : FuncId} {f : Function}
    (hf : m.functions.get? id = some f) : f.instructions.Sublist m.instructions :=
  List.sublist_flatten_of_mem (List.mem_map.2 ⟨f, Table.mem_values.2 ⟨id, hf⟩, rfl⟩)

/-- The graph of calls is the graph of the direct calls. -/
theorem Module.calls_callGraph {m : Module} {env : Environment}
    (hresults : (m.instructions.map (·.place.cell.id)).Nodup) {f g : FuncId} :
    (m.callGraph env).Calls f g ↔ m.Calls env f g := by
  rw [CallGraph.Calls, callGraph, Table.getD, Table.get?_map, Calls]
  cases hf : m.functions.get? f with
  | none => simp
  | some caller =>
    simp only [Option.map_some, Option.getD_some, KeySet.contains_ofList, decide_eq_true_eq,
      List.mem_map, Option.some.injEq, exists_eq_left']
    exact caller.exists_site (hresults.sublist ((instructions_sublist hf).map _))

end Whittle.Ir
