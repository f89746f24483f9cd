import Mathlib.Tactic.Common
import Whittle.Proofs.Lowering.Coherent
import Whittle.Proofs.Optimize.Inlining
import Whittle.Proofs.Optimize.Straight

/-!
# Bodies that write before they read

What the body of a function reads of the function's own cells was written before, in the header or in
the body, if the body is small enough to be copied.  Lowering writes in turn wherever control goes
straight, and a function that runs straight through comes out of its joins as it went in.  The versions
with which hoisted declarations start are exceptions: a copy of a read that comes before the first write
finds what the copy wrote when it ran last.

Main statement: `Module.reads_written_before`.
-/

namespace Whittle.Ir

variable {f g : Function} {m m' : Module} {env env' : Environment} {cells : List Cell} {id : FuncId}
  {body : List Block}

/-! ## Bodies and routes -/

/-- The blocks on the way to a return are those that a route passes, and others. -/
theorem Route.chainFrom {b : BlockId} {is : List Instr} {fuel : Nat} {chain : List Block}
    (h : Route f.entry f.blocks b is) (hchain : f.chainFrom fuel f.entry [] = some chain) :
    ∃ passed rest fuel' seen, chain = passed ++ rest ∧ passed.flatMap (·.instructions) = is ∧
      (∀ b ∈ passed, b.lastReads = []) ∧ f.chainFrom fuel' b seen = some rest := by
  induction h with
  | start => exact ⟨[], chain, fuel, [], rfl, rfl, by rintro b ⟨⟩, hchain⟩
  | @jump _ _ b _ _ hb hterminal ih =>
    obtain ⟨passed, rest, fuel', seen, rfl, rfl, hlast, hrest⟩ := ih
    cases fuel' with
    | zero => cases hrest
    | succ fuel' =>
      rw [Function.chainFrom] at hrest
      split at hrest
      · cases hrest
      · rw [hb, Option.bind_eq_bind, Option.bind_some, hterminal] at hrest
        obtain ⟨more, hmore, hrest⟩ := Option.bind_eq_some_iff.1 hrest
        obtain rfl := Option.some.inj hrest
        refine ⟨passed ++ [b], more, _, _, by simp, by simp, ?_, hmore⟩
        refine List.forall_mem_append.2 ⟨hlast, List.forall_mem_singleton.2 ?_⟩
        rw [Block.lastReads, hterminal]
        rfl

/-- A block that ends the way ends the body. -/
theorem Function.chainFrom_of_end {fuel : Nat} {first : BlockId} {seen : List BlockId}
    {chain : List Block} {b : Block} {t : Terminal} (h : f.chainFrom fuel first seen = some chain)
    (hb : f.blocks.get? first = some b) (ht : b.terminal = some t)
    (hjump : ∀ target, t ≠ .jump target) : chain = [b] := by
  cases fuel with
  | zero => cases h
  | succ fuel =>
    rw [chainFrom] at h
    split at h
    · cases h
    · rw [hb, Option.bind_eq_bind, Option.bind_some, ht] at h
      cases t with
      | jump target => exact absurd rfl (hjump target)
      | branch => cases h
      | ret => exact (Option.some.inj h).symm

/-- The body of a function that writes in turn does so. -/
theorem Function.RunsInTurn.straightBody? (h : f.RunsInTurn env) (hbody : f.straightBody? = some body) :
    InTurn env f.id (f.header.flatMap (·.writes)) (body.flatMap (·.instructions)) ∧
      ∀ b ∈ body, ∀ p ∈ b.lastReads, Initialized env f.id
        (f.header.flatMap (·.writes) ++ (body.flatMap (·.instructions)).flatMap (·.writes)) p := by
  obtain ⟨last, is, b, t, hroute, hb, ht, hjump, hturn, hreads⟩ := h
  obtain ⟨chain, hchain, hbody⟩ := Option.bind_eq_some_iff.1 hbody
  split at hbody
  · obtain rfl := Option.some.inj hbody
    obtain ⟨passed, rest, _, _, rfl, rfl, hpassed, hrest⟩ := hroute.chainFrom hchain
    obtain rfl := chainFrom_of_end hrest hb ht hjump
    rw [List.flatMap_append, List.flatMap_singleton]
    refine ⟨hturn, List.forall_mem_append.2 ⟨fun b' hb' p hp => ?_, List.forall_mem_singleton.2 ?_⟩⟩
    · rw [hpassed b' hb'] at hp
      cases hp
    · rw [Block.lastReads, ht]
      exact hreads
  · cases hbody

/-- Blocks one after the other read their temporaries behind the definitions. -/
theorem Ordered.flatMap {bs : List Block} {known : List CellId} (h : ∀ b ∈ bs, b.InOrder env) :
    Ordered env [] known (bs.flatMap (·.instructions)) := by
  induction bs generalizing known with
  | nil => rintro p ⟨⟩
  | cons b bs ih =>
    obtain ⟨hb, hbs⟩ := List.forall_mem_cons.1 h
    exact append_iff.2 ⟨hb.opened.mono (List.nil_subset _), ih hbs⟩

theorem Block.InOrder.available_last {b : Block} {p : Place} (h : b.InOrder env) (hb : b ∈ body)
    (hp : p ∈ b.lastReads) : Available env ((body.flatMap (·.instructions)).flatMap (·.writes)) p := by
  refine (Ordered.available_last h hp).mono fun c hc => ?_
  obtain ⟨i, hi, hc⟩ := List.mem_flatMap.1 (by simpa using hc)
  exact List.mem_flatMap.2 ⟨i, List.mem_flatMap.2 ⟨b, hb, hi⟩, hc⟩

/-! ## Joins -/

/-- Nothing is joined in a function that runs straight through, and nothing has to be copied. -/
theorem Function.Straight.throughSsa (h : g.Straight) (hflow : f.HasFlow)
    (hout : (f.buildSsa env).1.eliminateSsa (f.buildSsa env).2 = .ok (g, env')) :
    f.Straight ∧ g = { f with phis := [] } := by
  have hbefore : f.Straight :=
    ((f.sameFlow_buildSsa env).trans (sameFlow_eliminateSsa hout)).straight h
  obtain rfl := eliminateSsa_of_size_le_one (hbefore.operands_le_one hflow env) hout
  exact ⟨hbefore, rfl⟩

/-- Declared functions that run straight through read behind the definitions and write in turn. -/
structure Module.WritesInTurn (m : Module) (env : Environment) (cells : List Cell) : Prop where
  logs : env.Logs cells
  fits : m.AllUse env cells
  flow : ∀ id f, m.functions.get? id = some f → f.HasFlow
  turns : ∀ id f, m.functions.get? id = some f → f.kind = .declaration → f.Straight →
    f.InOrder env ∧ f.RunsInTurn env

/-- One function goes through its joins. -/
theorem Module.WritesInTurn.next (h : m.WritesInTurn env cells) (hf : m.functions.get? id = some f)
    (hout : (f.buildSsa env).1.eliminateSsa (f.buildSsa env).2 = .ok (g, env')) :
    ∃ cells', (m.setFunction id g).WritesInTurn env' cells' := by
  obtain ⟨cells₁, hbuild, hbuilt⟩ := (h.fits id f hf).buildSsa h.logs
  obtain ⟨cells', heliminate, hg⟩ := hbuilt.eliminateSsa hbuild.logs hout
  have hadvance := hbuild.trans heliminate
  have hold (id : FuncId) (f : Function) (hf : m.functions.get? id = some f)
      (hkind : f.kind = .declaration) (hstraight : f.Straight) : f.InOrder env' ∧ f.RunsInTurn env' :=
    (h.turns id f hf hkind hstraight).imp (hadvance.inOrder h.logs (h.fits id f hf))
      (·.advance hadvance h.logs (h.fits id f hf).uses)
  refine ⟨cells', hadvance.logs, (AllUse.advance h.fits hadvance).setFunction hg,
    hasFlow_setFunction h.flow ?_, fun id' f' hf' hkind hstraight => ?_⟩
  · exact (h.flow id f hf).same ((f.sameFlow_buildSsa env).trans (Function.sameFlow_eliminateSsa hout))
  · rw [get?_setFunction] at hf'
    split at hf'
    · obtain rfl := Option.some.inj hf'
      obtain ⟨hbefore, rfl⟩ := hstraight.throughSsa (h.flow id f hf) hout
      obtain ⟨horder, hruns⟩ := hold id f hf hkind hbefore
      exact ⟨⟨horder.header, horder.blocks⟩, hruns⟩
    · exact hold id' f' hf' hkind hstraight

theorem Module.WritesInTurn.throughSsa (h : m.WritesInTurn env cells)
    (hout : m.throughSsa env = .ok (m', env')) : ∃ cells', m'.WritesInTurn env' cells' := by
  refine Module.forFunctions_induction (P := fun m env => ∃ cells, m.WritesInTurn env cells) ?_ hout
    ⟨cells, h⟩
  rintro m env id f g env' ⟨cells, h⟩ hf hone
  exact h.next hf hone

theorem Module.writesInTurn_lower {path : String} {tree : Syntax.Module}
    (h : tree.lower path {} = .ok (m, env)) : ∃ cells, m.WritesInTurn env cells := by
  obtain ⟨cells, hlogs, hlowered⟩ := Syntax.Module.lowered_lower h
  obtain ⟨home, -, hclosed⟩ := Syntax.Module.closed_lower h
  exact ⟨cells, hlogs, fun id f hf => (hlowered id f hf).fits, fun id f hf => (hclosed id f hf).flow,
    fun id f hf hkind _ => ⟨(hlowered id f hf).order, Syntax.Module.runsInTurn_lower h hf hkind⟩⟩

/-! ## Reads of the function's own cells -/

/-- Temporaries are read behind their definitions, and variables in turn. -/
theorem mem_of_initialized {owner : FuncId} {header is : List CellId} {p : Place}
    (howner : env.ownerOf p.declaration = some owner) (h : Initialized env owner (header ++ is) p)
    (havailable : Available env is p) : p.cell.id ∈ header ++ is ∨ p.StartsHoisted env := by
  cases htemporary : env.isTemporary p.declaration with
  | true => exact .inl (List.mem_append_right _ (havailable htemporary))
  | false => exact h htemporary howner

/-- Whatever the body of a function that may be copied reads of the function's own cells is written
before, in the header or in the body; so is what its end reads.  Only the versions with which hoisted
declarations start may be read before anything writes them. -/
theorem Module.reads_written_before {path : String} {tree : Syntax.Module}
    (hlower : tree.lower path {} = .ok (m, env)) (hthrough : m.throughSsa env = .ok (m', env'))
    (hf : m'.functions.get? id = some f) (hbody : m'.smallBody? env' f = some body) :
    (∀ before i after, body.flatMap (·.instructions) = before ++ i :: after → ∀ p ∈ i.reads,
      env'.ownerOf p.declaration = some f.id →
        p.cell.id ∈ (f.header ++ before).flatMap (·.writes) ∨ p.StartsHoisted env') ∧
    ∀ b ∈ body, ∀ p ∈ b.lastReads, env'.ownerOf p.declaration = some f.id →
      p.cell.id ∈ (f.header ++ body.flatMap (·.instructions)).flatMap (·.writes) ∨
        p.StartsHoisted env' := by
  obtain ⟨cells, hlowered⟩ := writesInTurn_lower hlower
  obtain ⟨cells', h⟩ := hlowered.throughSsa hthrough
  obtain ⟨hstraight, -, hcopyable⟩ := smallBody?_eq_some hbody
  obtain ⟨horder, hruns⟩ := h.turns id f hf (kind_of_smallBody? hbody)
    (Function.straightBody?_eq_some hstraight).1
  obtain ⟨hturn, hlast⟩ := hruns.straightBody? hstraight
  have hmem := Function.mem_of_straightBody? hstraight
  have hblocks (b : Block) (hb : b ∈ body) : b.InOrder env' := by
    obtain ⟨number, hget⟩ := Table.mem_values.1 (hmem b hb)
    exact horder.blocks number b hget
  refine ⟨fun before i after heq p hp howner => ?_, fun b hb p hp howner => ?_⟩
  · have hkept : i.op.isKept = false := by
      obtain ⟨b, hb, hi⟩ := List.mem_flatMap.1 (heq ▸ List.mem_append_right _ List.mem_cons_self)
      have hi := hcopyable i (List.mem_append_right _ (List.mem_flatMap.2 ⟨b, hmem b hb, hi⟩))
      cases hop : i.op <;> first | rfl | simp [Instr.isCopyable, hop] at hi
    have hordered : Ordered env' [] [] (body.flatMap (·.instructions)) := .flatMap hblocks
    rw [heq] at hturn hordered
    rw [List.flatMap_append]
    refine mem_of_initialized howner (hturn.initialized hkept hp) ?_
    simpa using hordered.ready.reads p hp
  · rw [List.flatMap_append]
    exact mem_of_initialized howner (hlast b hb p hp) ((hblocks b hb).available_last hb hp)

/-- `function f() { log(x); var x = 1; } while (c()) { f(); }` -/
def readingEarly : Syntax.Module :=
  let ident (text : String) : Syntax.Ident := .synthetic text
  let name (text : String) : Syntax.Expr := .name .synthetic (ident text)
  let call (text : String) (arguments : List Syntax.Element) : Syntax.Stmt :=
    .expression .synthetic (.call .synthetic (name text) arguments)
  ⟨⟨0, 0⟩,
    [.function .synthetic (.mk .synthetic (some (ident "f")) []
      (.block [call "log" [.one (name "x")],
        .declaration .synthetic .varKind [.mk .synthetic (.name .synthetic (ident "x"))
          (some (.literal .synthetic (.number Number.one)))]]) false),
     .while .synthetic (.call .synthetic (name "c") []) (.block .synthetic [call "f" []])]⟩

/-- The second instruction of `f` reads `x` before anything writes it, which can only be because `x` is
hoisted. -/
theorem Module.reads_written_before_readingEarly :
    ∃ (ir m : Module) (start env : Environment) (f : Function) (body : List Block)
      (before after : List Instr) (i : Instr) (p : Place),
      readingEarly.lower "m" {} = .ok (ir, start) ∧ ir.throughSsa start = .ok (m, env) ∧
      m.functions.get? ⟨1⟩ = some f ∧ m.smallBody? env f = some body ∧
      body.flatMap (·.instructions) = before ++ i :: after ∧ p ∈ i.reads ∧
      env.ownerOf p.declaration = some f.id ∧
      p.cell.id ∉ (f.header ++ before).flatMap (·.writes) ∧ p.StartsHoisted env := by
  obtain ⟨⟨m, env⟩, hjoined, f, hf, body, hbody, i, hi, p, hp, howner, hunwritten⟩ :
      ∃ t ∈ joined? readingEarly, ∃ f ∈ t.1.functions.get? ⟨1⟩, ∃ body ∈ t.1.smallBody? t.2 f,
        ∃ i ∈ (body.flatMap (·.instructions))[1]?, ∃ p ∈ i.reads,
          t.2.ownerOf p.declaration = some f.id ∧
          p.cell.id ∉ (f.header ++ (body.flatMap (·.instructions)).take 1).flatMap (·.writes) := by
    decide +kernel
  obtain ⟨ir, start, hlower, hthrough⟩ := exists_of_joined? hjoined
  have hsplit : body.flatMap (·.instructions) = (body.flatMap (·.instructions)).take 1 ++
      i :: (body.flatMap (·.instructions)).drop 2 := by
    obtain ⟨hlt, rfl⟩ := List.getElem?_eq_some_iff.1 hi
    rw [← List.drop_eq_getElem_cons hlt, List.take_append_drop]
  obtain ⟨hreads, -⟩ := Module.reads_written_before hlower hthrough hf hbody
  refine ⟨ir, m, start, env, f, body, _, _, i, p, hlower, hthrough, hf, hbody, hsplit, hp, howner,
    hunwritten, ?_⟩
  exact (hreads _ i _ hsplit p hp howner).resolve_left hunwritten

end Whittle.Ir
