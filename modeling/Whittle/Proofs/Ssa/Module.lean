import Mathlib.Tactic.Common
import Whittle.Proofs.Lowering.Tree
import Whittle.Proofs.Ssa.Values

/-!
# Variables of a module

The functions of a module go through their joins one after the other, and each adds records to the
environment that the next one finds.  What it adds concerns its own blocks only: a variable that
another function has to itself keeps the records that lowering gave it until that function's turn
comes (`Awaits`).  So what holds of one function holds of all of them.

Main statement: `throughSsa_lower`, taking a lowered module through its joins succeeds, and in every
function of the result a load that names the version that reaches it yields what was written last.
-/

namespace Whittle.Lowering

open Ir Ir.Flow

variable {lowered env : Environment} {home : Table BlockId FuncId} {id : FuncId} {f : Function}

theorem Closed.successor (h : Closed lowered home id f) {b t : BlockId}
    (ht : t ∈ (edgesOf f.blocks).getD b []) :
    t ≠ b ∧ t ≠ f.entry ∧ home.get? t = some id := by
  cases hget : f.blocks.get? b with
  | none => simp [edgesOf, Table.getD, Table.get?_map, hget] at ht
  | some block =>
    refine h.charted.edges b block hget t ?_
    simpa [edgesOf, Table.getD, Table.get?_map, hget] using ht

/-- A phi stands in a block of its function. -/
theorem Closed.home_of_phi (h : Closed lowered home id f) {phi : Phi}
    (hphi : phi ∈ (f.buildSsa env).1.phis) : home.get? phi.block = some id := by
  obtain ⟨p, -, hedge⟩ := Function.exists_edge_of_phi h.flow h.entry hphi
  exact (h.successor hedge).2.2

end Whittle.Lowering

namespace Whittle.Ir

open Whittle.Ir.Flow Lowering

variable {lowered env env' : Environment} {home : Table BlockId FuncId}
  {waiting : List (FuncId × Function)} {id : FuncId} {f g : Function} {d : DeclId}

/-! ## Between two functions -/

/-- What the functions that wait for their turn find of what lowering recorded. -/
structure Awaits (lowered : Environment) (home : Table BlockId FuncId)
    (waiting : List (FuncId × Function)) (env : Environment) : Prop where
  wellKept : env.WellKept
  size : lowered.declarations.size ≤ env.declarations.size
  /-- Phis are recorded in blocks of functions that had their turn. -/
  written : ∀ d, ∀ r ∈ env.versionsOf d, r.IsWritten ∨
    ∃ id, home.get? r.block = some id ∧ id ∉ waiting.map (·.1)
  /-- The variables that a waiting function has to itself have the versions that lowering gave them. -/
  versions : ∀ e ∈ waiting, ∀ d, lowered.IsLocal e.1 d → env.versionsOf d = lowered.versionsOf d

theorem awaits_start (h : lowered.Recorded home) (waiting : List (FuncId × Function)) :
    Awaits lowered home waiting lowered :=
  ⟨h.wellKept, Nat.le_refl _, fun d r hr => .inl (h.written d r hr), fun _ _ _ _ => rfl⟩

theorem Awaits.unjoined (h : Awaits lowered home ((id, f) :: waiting) env)
    (hclosed : Closed lowered home id f) : f.Unjoined env where
  flow := hclosed.flow
  entry := by
    refine List.eq_nil_iff_forall_not_mem.2 fun p hp => ?_
    obtain ⟨-, hedge⟩ := (Function.mem_predecessorsOf hclosed.flow).1 hp
    exact (hclosed.successor hedge).2.1 rfl
  loopless b hb := (hclosed.successor hb).1 rfl
  records := h.wellKept
  written d r hr hb := by
    rcases h.written d r hr with hwritten | ⟨id', hid', hnot⟩
    · exact hwritten
    · rw [hclosed.charted.own _ hb, Option.some.injEq] at hid'
      exact absurd (hid' ▸ List.mem_cons_self) hnot

theorem Awaits.tracked (h : Awaits lowered home ((id, f) :: waiting) env)
    (hrecords : lowered.Recorded home) (hclosed : Closed lowered home id f)
    (hd : lowered.IsLocal id d) : f.Tracked env d := by
  have hversions := h.versions _ List.mem_cons_self d hd
  refine ⟨?_, fun r hr => ?_, fun b i hi p hp _ => ?_, fun b p hp => ?_⟩
  · exact Nat.lt_of_lt_of_le (Environment.index_lt_of_ownerOf hd.owner) h.size
  · rw [hversions] at hr
    exact hrecords.written d r hr
  · exact (hclosed.tells.known b i hi p hp).2
  · rw [hversions]
    exact hclosed.tells.left d hd b (by simp) p hp

/-- A function that had its turn leaves the others' variables alone. -/
theorem Awaits.next (h : Awaits lowered home ((id, f) :: waiting) env)
    (hrecords : lowered.Recorded home) (hclosed : Closed lowered home id f)
    (hfresh : id ∉ waiting.map (·.1)) (henv : f.Keeps env env') :
    Awaits lowered home waiting env' := by
  have hversions (d : DeclId) : env'.versionsOf d =
      env.versionsOf d ++ Function.recordsOf (f.buildSsa env).1.phis d := by
    rw [← Function.versionsOf_buildSsa, Environment.versionsOf, henv.versions, Environment.versionsOf]
  refine ⟨henv.wellKept, ?_, fun d r hr => ?_, fun e he d hd => ?_⟩
  · have hsize := henv.size
    rw [(Function.wellKept_buildSsa h.wellKept f).2] at hsize
    exact h.size.trans hsize
  · rw [hversions] at hr
    rcases List.mem_append.1 hr with hr | hr
    · rcases h.written d r hr with hwritten | ⟨id', hid', hnot⟩
      · exact .inl hwritten
      · exact .inr ⟨id', hid', fun hmem => hnot (List.mem_cons_of_mem _ hmem)⟩
    · obtain ⟨phi, hphi, -, rfl⟩ := Function.mem_recordsOf.1 hr
      exact .inr ⟨id, hclosed.home_of_phi hphi, hfresh⟩
  · have hsame := h.versions e (List.mem_cons_of_mem _ he) d hd
    rw [hversions, hsame, List.append_right_eq_self]
    refine List.eq_nil_iff_forall_not_mem.2 fun r hr => ?_
    -- a phi of the variable would need a write of it in a block of the function
    obtain ⟨phi, hphi, rfl, -⟩ := Function.mem_recordsOf.1 hr
    obtain ⟨sites, hsites, -⟩ := Function.map_block_recordsOf_buildSsa hphi
    obtain ⟨b, -, -, hb, -⟩ :=
      KeySet.two_le_size_iff.1 (Function.two_le_size_of_mem_meetings hsites)
    obtain ⟨hown, r', hr', rfl⟩ := (Function.mem_meetings hsites b).1 hb
    rw [hsame] at hr'
    obtain ⟨id', hid', howner⟩ := hrecords.home _ r' hr' hd.uncaptured
    rw [hclosed.charted.own _ hown, Option.some.injEq] at hid'
    rw [hd.owner, Option.some.injEq] at howner
    exact hfresh (List.mem_map.2 ⟨e, he, howner.trans hid'.symm⟩)

/-! ## All functions -/

/-- Functions go through their joins one after the other, and the given one, `f`, finds the
environment `turn` when its turn comes and becomes `g`. -/
inductive Passes (id : FuncId) (f : Function) (turn : Environment) (g : Function) :
    List (FuncId × Function) → Environment → Prop
  | now {more env'} : (f.buildSsa turn).1.eliminateSsa (f.buildSsa turn).2 = .ok (g, env') →
      Passes id f turn g ((id, f) :: more) turn
  | later {other f' g' more env env'} :
      (f'.buildSsa env).1.eliminateSsa (f'.buildSsa env).2 = .ok (g', env') →
      Passes id f turn g more env' → Passes id f turn g ((other, f') :: more) env

/-- Takes one function of a module through its joins. -/
def Module.pass (s : Module × Environment) (e : FuncId × Function) : Outcome (Module × Environment) :=
  (e.2.buildSsa s.2).1.eliminateSsa (e.2.buildSsa s.2).2 >>= fun out =>
    pure (s.1.setFunction e.1 out.1, out.2)

/-- One after the other, all functions go through their joins, each as it would alone. -/
theorem Awaits.foldlM_pass (h : Awaits lowered home waiting env) (hrecords : lowered.Recorded home)
    (hclosed : ∀ e ∈ waiting, Closed lowered home e.1 e.2) (hnodup : (waiting.map (·.1)).Nodup)
    (m : Module) :
    ∃ m' env', waiting.foldlM Module.pass (m, env) = .ok (m', env') ∧
      (∀ id, id ∉ waiting.map (·.1) → m'.functions.get? id = m.functions.get? id) ∧
      ∀ e ∈ waiting, ∃ turn g, Passes e.1 e.2 turn g waiting env ∧ m'.functions.get? e.1 = some g ∧
        e.2.Unjoined turn ∧ (∀ d, lowered.IsLocal e.1 d → e.2.Tracked turn d) ∧
        e.2.LaidOut turn (e.2.kept turn) g := by
  induction waiting generalizing env m with
  | nil => exact ⟨m, env, rfl, fun _ _ => rfl, fun e he => by cases he⟩
  | cons e waiting ih =>
    obtain ⟨id, f⟩ := e
    obtain ⟨hfresh, hnodup⟩ := List.nodup_cons.1 hnodup
    have hf := hclosed _ List.mem_cons_self
    have hunjoined := h.unjoined hf
    obtain ⟨g, env', hpass, hlaid, hkeeps⟩ := Function.laidOut_eliminateSsa hunjoined
    obtain ⟨m', env'', hfold, hothers, hall⟩ := ih (h.next hrecords hf hfresh hkeeps)
      (fun e he => hclosed e (List.mem_cons_of_mem _ he)) hnodup (m.setFunction id g)
    refine ⟨m', env'', ?_, fun id' hid' => ?_, fun e he => ?_⟩
    · rw [List.foldlM_cons, Module.pass, hpass]
      exact hfold
    · rw [List.map_cons, List.mem_cons, not_or] at hid'
      obtain ⟨hne, hid'⟩ := hid'
      rw [hothers id' hid', Module.setFunction, Table.get?_insert, if_neg hne]
    · rcases List.mem_cons.1 he with rfl | he
      · refine ⟨env, g, .now hpass, ?_, hunjoined, fun d hd => h.tracked hrecords hf hd, hlaid⟩
        rw [hothers id hfresh, Module.setFunction, Table.get?_insert, if_pos rfl]
      · obtain ⟨turn, g', hpasses, hrest⟩ := hall e he
        exact ⟨turn, g', .later hpass hpasses, hrest⟩

/-- The version that a place names is the one that reaches a point of a block on a walk. -/
def Function.Names (joined : Function) (records : Environment) (p : Place) (before : List BlockId)
    (b : BlockId) (done : List Instr) : Prop :=
  joined.reaching records p.declaration b (joined.leaving records p.declaration before) done =
    some p.cell

theorem Instr.result_load {α : Type} {i : Instr} {p : Place} (h : i.op = .loadLocal p)
    (eval : Instr → Memory α → α) (m : Memory α) : i.result eval m = m p.cell := by
  rw [result, h]
  rfl

theorem Op.eq_loadLocal {op : Op} {p : Place} (hmoved : op.moved? = some p)
    (htarget : op.target? = none) : op = .loadLocal p := by
  cases op <;> cases hmoved <;> first | rfl | cases htarget

end Whittle.Ir

namespace Whittle.Syntax.Module

open Ir Lowering

/-- A lowered module goes through its joins, and each of its functions is ready when its turn comes. -/
theorem exists_passes {path : String} {m : Syntax.Module} {ir : Ir.Module} {env : Environment}
    (h : m.lower path {} = .ok (ir, env)) :
    ∃ home ir' env', ir.throughSsa env = .ok (ir', env') ∧
      ∀ id f, ir.functions.get? id = some f →
        ∃ turn g, ir'.functions.get? id = some g ∧ Passes id f turn g ir.functions.entries env ∧
          Closed env home id f ∧ f.Unjoined turn ∧ f.LaidOut turn (f.kept turn) g := by
  obtain ⟨home, hrecords, hclosed⟩ := closed_lower h
  obtain ⟨ir', env', hfold, -, hall⟩ := (awaits_start hrecords ir.functions.entries).foldlM_pass
    hrecords (fun e he => hclosed e.1 e.2 (Table.mem_entries.1 he)) ir.functions.keys_nodup ir
  refine ⟨home, ir', env', hfold, fun id f hf => ?_⟩
  obtain ⟨turn, g, hpasses, hg, hunjoined, -, hlaid⟩ := hall (id, f) (Table.mem_entries.2 hf)
  exact ⟨turn, g, hg, hpasses, hclosed id f hf, hunjoined, hlaid⟩

/-- A lowered module goes through its joins.  On every walk through a function of the result, a load of
a variable that the function has to itself yields what was last written to the variable, if it names
the version that reaches it. -/
theorem throughSsa_lower {path : String} {m : Syntax.Module} {ir : Ir.Module} {env : Environment}
    (h : m.lower path {} = .ok (ir, env)) :
    ∃ ir' env', ir.throughSsa env = .ok (ir', env') ∧
      ∀ id g, ir'.functions.get? id = some g →
        ∃ f turn, Passes id f turn g ir.functions.entries env ∧
          ∀ {α : Type} (eval : List BlockId → Instr → Memory α → α) (start : Memory α)
            (b : BlockId) (before : List BlockId) (done : List Instr) (load : Instr)
            (rest : List Instr) (p : Place),
            Walk g.entry (edgesOf g.blocks) (b :: before) → g.code b = done ++ load :: rest →
            load.op = .loadLocal p → env.IsLocal id p.declaration →
            (f.buildSsa turn).1.Names (f.buildSsa turn).2 p before b done →
            load.result (eval (b :: before))
              (done.foldl (Run.step (eval (b :: before))) (g.runAlong eval start before)).memory =
            (done.foldl (Run.step (eval (b :: before))) (g.runAlong eval start before)).latest
              p.declaration := by
  obtain ⟨home, hrecords, hclosed⟩ := closed_lower h
  obtain ⟨ir', env', hfold, hothers, hall⟩ := (awaits_start hrecords ir.functions.entries).foldlM_pass
    hrecords (fun e he => hclosed e.1 e.2 (Table.mem_entries.1 he)) ir.functions.keys_nodup ir
  refine ⟨ir', env', hfold, fun id g hg => ?_⟩
  have hkey : id ∈ ir.functions.entries.map (·.1) := by
    by_contra hnot
    rw [hothers id hnot] at hg
    exact hnot (List.mem_map.2 ⟨(id, g), Table.mem_entries.2 hg, rfl⟩)
  obtain ⟨⟨_, f⟩, he, rfl⟩ := List.mem_map.1 hkey
  obtain ⟨turn, g', hpasses, hg', hunjoined, htracked, hlaid⟩ := hall _ he
  obtain rfl : g' = g := Option.some.inj (hg'.symm.trans hg)
  refine ⟨f, turn, hpasses, fun eval start b before done load rest p hwalk hcode hload hlocal hnames => ?_⟩
  rw [Instr.result_load hload]
  exact hlaid.memory_eq_latest hunjoined (htracked _ hlocal) eval start hwalk hcode hnames

/-- `let x = false; while (c) { x = true; } log(x);` -/
def overwriting : Syntax.Module :=
  let name (text : String) : Expr := .name .synthetic (.synthetic text)
  let x : Pattern := .name .synthetic (.synthetic "x")
  let value (b : Bool) : Expr := .literal .synthetic (.boolean b)
  ⟨⟨0, 0⟩,
    [.declaration .synthetic .letKind [.mk .synthetic x (some (value false))],
     .while .synthetic (name "c")
      (.block .synthetic [.expression .synthetic (.assign .synthetic .set x (value true))]),
     .expression .synthetic (.call .synthetic (name "log") [.one (name "x")])]⟩

/-- The only function of a module, the environment that it finds, and what becomes of it. -/
def onlyFunction? (m : Syntax.Module) : Option (Function × Environment × Function) := do
  let lowered ← (m.lower "m" {}).toOption
  let f ← lowered.1.functions.get? ⟨0⟩
  guard (lowered.1.functions.size = 1)
  let through ← (lowered.1.throughSsa lowered.2).toOption
  let g ← through.1.functions.get? ⟨0⟩
  pure (f, lowered.2, g)

theorem onlyFunction?_eq_some {m : Syntax.Module} {t : Function × Environment × Function}
    (h : m.onlyFunction? = some t) :
    ∃ ir ir' env', m.lower "m" {} = .ok (ir, t.2.1) ∧ ir.functions.entries = [(⟨0⟩, t.1)] ∧
      ir.throughSsa t.2.1 = .ok (ir', env') ∧ ir'.functions.get? ⟨0⟩ = some t.2.2 := by
  obtain ⟨⟨ir, env⟩, hlower, h⟩ := Option.bind_eq_some_iff.1 h
  obtain ⟨f, hf, h⟩ := Option.bind_eq_some_iff.1 h
  obtain ⟨u, hguard, h⟩ := Option.bind_eq_some_iff.1 h
  obtain ⟨⟨ir', env'⟩, hthrough, h⟩ := Option.bind_eq_some_iff.1 h
  obtain ⟨g, hg, h⟩ := Option.bind_eq_some_iff.1 h
  cases h
  refine ⟨ir, ir', env', eq_ok_of_toOption hlower, ?_, eq_ok_of_toOption hthrough, hg⟩
  have hsize : ir.functions.size = 1 := by
    by_contra hne
    simp [guard, hne] at hguard
  exact Table.entries_of_size_eq_one hsize hf

/-- After one round of the loop, the load of `x` behind it yields what was last written to `x`. -/
theorem throughSsa_lower_overwriting :
    ∃ ir env ir' env' g, overwriting.lower "m" {} = .ok (ir, env) ∧
      ir.throughSsa env = .ok (ir', env') ∧ ir'.functions.get? ⟨0⟩ = some g ∧
      ∃ done load rest p, g.code ⟨3⟩ = done ++ load :: rest ∧ load.op = .loadLocal p ∧
        ∀ {α : Type} (eval : List BlockId → Instr → Memory α → α) (start : Memory α),
          load.result (eval [⟨3⟩, ⟨1⟩, ⟨2⟩, ⟨1⟩, ⟨0⟩]) (done.foldl
            (Run.step (eval [⟨3⟩, ⟨1⟩, ⟨2⟩, ⟨1⟩, ⟨0⟩]))
            (g.runAlong eval start [⟨1⟩, ⟨2⟩, ⟨1⟩, ⟨0⟩])).memory =
          (done.foldl (Run.step (eval [⟨3⟩, ⟨1⟩, ⟨2⟩, ⟨1⟩, ⟨0⟩]))
            (g.runAlong eval start [⟨1⟩, ⟨2⟩, ⟨1⟩, ⟨0⟩])).latest p.declaration := by
  obtain ⟨⟨f, env, g⟩, hover, load, hload, p, hp, htarget, ⟨hentry, hstart, hround, hback, hexit⟩,
      hlocal, hnames⟩ : ∃ t ∈ overwriting.onlyFunction?, ∃ load ∈ (t.2.2.code ⟨3⟩)[1]?, ∃ p ∈ load.op.moved?,
        load.op.target? = none ∧
        (t.2.2.entry = ⟨0⟩ ∧ (⟨1⟩ : BlockId) ∈ (edgesOf t.2.2.blocks).getD ⟨0⟩ [] ∧
          ⟨2⟩ ∈ (edgesOf t.2.2.blocks).getD ⟨1⟩ [] ∧ ⟨1⟩ ∈ (edgesOf t.2.2.blocks).getD ⟨2⟩ [] ∧
          ⟨3⟩ ∈ (edgesOf t.2.2.blocks).getD ⟨1⟩ []) ∧
        (t.2.1.ownerOf p.declaration = some ⟨0⟩ ∧ t.2.1.isTemporary p.declaration = false ∧
          t.2.1.captured.contains p.declaration = false) ∧
        (t.1.buildSsa t.2.1).1.reaching (t.1.buildSsa t.2.1).2 p.declaration ⟨3⟩
          ((t.1.buildSsa t.2.1).1.leaving (t.1.buildSsa t.2.1).2 p.declaration
            [⟨1⟩, ⟨2⟩, ⟨1⟩, ⟨0⟩]) ((t.2.2.code ⟨3⟩).take 1) = some p.cell := by
    decide +kernel
  obtain ⟨ir, ir', env', hlower, hentries, hthrough, hg⟩ := onlyFunction?_eq_some hover
  obtain ⟨ir₂, env₂, hthrough₂, hall⟩ := throughSsa_lower hlower
  obtain ⟨rfl, rfl⟩ := Prod.mk.inj (Except.ok.inj (hthrough.symm.trans hthrough₂))
  obtain ⟨f', turn, hpasses, hloads⟩ := hall ⟨0⟩ g hg
  have hcode : g.code ⟨3⟩ = (g.code ⟨3⟩).take 1 ++ load :: (g.code ⟨3⟩).drop 2 := by
    obtain ⟨hlt, hget⟩ := List.getElem?_eq_some_iff.1 hload
    rw [← hget, List.getElem_cons_drop, List.take_append_drop]
  have hop := Op.eq_loadLocal hp htarget
  refine ⟨ir, env, ir', env', g, hlower, hthrough, hg, _, load, _, p, hcode, hop, ?_⟩
  intro α eval start
  rw [hentries] at hpasses
  cases hpasses with
  | later _ hrest => cases hrest
  | now _ =>
    refine hloads eval start ⟨3⟩ _ _ load _ p ?_ hcode hop ⟨hlocal.1, hlocal.2.1, hlocal.2.2⟩ hnames
    have hwalk : Walk g.entry (edgesOf g.blocks) [⟨0⟩] := hentry ▸ .start
    exact (((hwalk.step hstart).step hround).step hback).step hexit

end Whittle.Syntax.Module
