import Mathlib.Tactic.Common
import Whittle.Proofs.Emit.Functions
import Whittle.Proofs.Emit.Waiting
import Whittle.Proofs.Optimize.Results

/-!
# Receivers of method calls

The function that a method call calls comes from an access in front of it, in the same block.  The
access waits for the call, which then has it for its callee, unless something is written down between
them.  Then the access is given a constant, and the call calls the constant: what it calls is the same
function, with no receiver.

Main statement: `Module.Reached.receivers`.
-/

namespace Whittle

namespace Syntax.Mark

/-- Whether a mark declares the constant that an expression names, for an access. -/
def names (a : Access) (callee : Expr) : Mark → Bool
  | .declare .constKind (.name _ ident) (some e) => Emit.isName ident.name callee && e.access? == some a
  | _ => false

/-- Whether a mark is the call of an access, or of a constant for one that the code declares. -/
def calls (a : Access) (code : List Mark) : Mark → Bool
  | .call callee => callee.access? == some a || code.any (·.names a callee)
  | _ => false

/-- Whether a mark declares a constant for an access that the code does not declare. -/
def isStray (a : Access) (code : List Mark) : Mark → Bool
  | .declare .constKind (.name _ ident) (some e) =>
    e.access? == some a && !code.any (·.names a (Emit.nameExpr ident.name))
  | _ => false

variable {a : Access} {code : List Mark}

/-- What code declares, it declares. -/
theorem isStray_of_mem {mark : Mark} (h : mark ∈ code) : mark.isStray a code = false := by
  cases hstray : mark.isStray a code with
  | false => rfl
  | true =>
    unfold isStray at hstray
    split at hstray
    · next _ ident e =>
      obtain ⟨haccess, hnone⟩ := Bool.and_eq_true_iff.1 hstray
      have hany : code.any (·.names a (Emit.nameExpr ident.name)) = true :=
        List.any_eq_true.2 ⟨_, h, by simp [names, Emit.isName, Emit.nameExpr, Ident.synthetic, haccess]⟩
      rw [hany] at hnone
      cases hnone
    · cases hstray

end Syntax.Mark

namespace Ir

open Emit

/-- Whether a cell of a function holds an access. -/
def Function.loads (f : Function) (a : Syntax.Access) (c : CellId) : Bool :=
  f.instructions.any fun i => i.place.cell.id == c && i.op.access? == some a

/-- How many calls of an access an instruction stands for: a call whose callee holds one, and the
calls in kept source. -/
def Function.methodCalls (f : Function) (written : DeclId → Option String) (env : Environment)
    (a : Syntax.Access) (code : List Syntax.Mark) (i : Instr) : Nat :=
  match i.op with
  | .call callee _ => if f.loads a callee.cell.id = true then 1 else 0
  | .unsupported source bindings =>
    (keptMarks (keptRenaming written env i.place bindings) source).countP (·.calls a code)
  | _ => 0

end Ir

namespace Emit

open Ir Syntax

/-! ## Calls behind accesses -/

/-- The lists of instructions of a function. -/
def lists (f : Ir.Function) : List (List Instr) := f.header :: f.blocks.values.map (·.instructions)

theorem sublist_instructions {f : Ir.Function} {is : List Instr} (h : is ∈ lists f) :
    is.Sublist f.instructions := by
  rcases List.mem_cons.1 h with rfl | h
  · exact List.sublist_append_left _ _
  · obtain ⟨b, hb, rfl⟩ := List.mem_map.1 h
    obtain ⟨before, after, hsplit⟩ := List.append_of_mem hb
    rw [Ir.Function.instructions, hsplit, List.flatMap_append, List.flatMap_cons]
    exact ((List.sublist_append_left _ _).trans (List.sublist_append_right _ _)).trans
      (List.sublist_append_right _ _)

theorem MethodCall.load_mem {is : List Instr} (c : MethodCall is) : c.load ∈ is :=
  (List.Perm.of_eq c.split).symm.subset (List.mem_append_right _ List.mem_cons_self)

/-- Between an access and its call, other cells are defined. -/
theorem MethodCall.apart {is : List Instr} (c : MethodCall is)
    (hnodup : (is.map (·.place.cell.id)).Nodup) :
    ∀ i ∈ c.between, i.place.cell.id ≠ c.load.place.cell.id := by
  have hsplit := congrArg (List.map fun i : Instr => i.place.cell.id) c.split
  rw [hsplit, List.map_append, List.map_cons, List.map_append] at hnodup
  have hload := (List.nodup_cons.1 (List.nodup_append.1 hnodup).2.1).1
  intro i hi heq
  exact hload (List.mem_append_left _ (List.mem_map.2 ⟨i, hi, heq⟩))

section Reached

variable {m : Ir.Module} {env : Environment} {f : Ir.Function} {is : List Instr}

theorem exists_ordered (hf : f.InOrder env) (his : is ∈ lists f) : ∃ last, Ordered env last [] is := by
  rcases List.mem_cons.1 his with rfl | his
  · exact ⟨[], hf.header⟩
  · obtain ⟨b, hb, rfl⟩ := List.mem_map.1 his
    obtain ⟨id, hb⟩ := Table.mem_values.1 hb
    exact ⟨_, hf.blocks id b hb⟩

/-- An access computes its value into a temporary. -/
theorem isTemporary_access (hm : m.Reached env) {load : Instr} (hload : load ∈ m.instructions)
    (haccess : load.op.access?.isSome = true) : env.isTemporary load.place.declaration = true := by
  refine hm.inOrder.isTemporary_place hload ?_
  cases hop : load.op with
  | propertyLoad | computedLoad => rfl
  | _ =>
    rw [hop] at haccess
    cases haccess

/-- The access that a callee comes from stands in front of the call. -/
theorem exists_methodCall (hm : m.Reached env) (hf : f ∈ m.functions.values) (his : is ∈ lists f)
    {load call : Instr} (hload : load ∈ m.instructions) (haccess : load.op.access?.isSome = true)
    (hcall : call ∈ is) {callee : Place} {arguments : List Place} (hop : call.op = .call callee arguments)
    (hcell : callee.cell.id = load.place.cell.id) :
    ∃ c : MethodCall is, c.load = load ∧ c.call = call ∧ c.callee = callee ∧
      env.isTemporary callee.declaration = true := by
  obtain ⟨cells, hlogs, hall⟩ := hm.coherent
  obtain ⟨id, hfound⟩ := Table.mem_values.1 hf
  have hmodule (i : Instr) (hi : i ∈ is) : i ∈ m.instructions :=
    List.mem_flatMap.2 ⟨f, hf, (sublist_instructions his).subset hi⟩
  have hof (i : Instr) (hi : i ∈ is) (p : Place) (hp : p ∈ i.places) : p.IsOf cells :=
    (hall id f hfound).uses.places (Function.places_of_instr ((sublist_instructions his).subset hi) hp)
  have hcallee : callee ∈ call.reads := by simp [Instr.reads, hop, Op.reads]
  have hplace : load.place.IsOf cells :=
    hall.isOf_defined (List.mem_flatMap.2 ⟨load, hload, List.mem_cons_self⟩)
  have hsame : callee.cell = load.place.cell :=
    (hof call hcall callee (List.mem_append_left _ hcallee)).single hplace hcell
  have hloaded := isTemporary_access hm hload haccess
  have htemporary : env.isTemporary callee.declaration = true := by
    rwa [Place.declaration, hsame]
  -- the callee is defined in front of the call, and nothing but the access defines it
  obtain ⟨last, horder⟩ := exists_ordered (hm.inOrder id f hfound) his
  obtain ⟨front, after, hsplit⟩ := List.append_of_mem hcall
  obtain ⟨i, hi, p, hp, hdefined⟩ := Module.exists_defined_before horder hof hsplit hcallee htemporary
  have hi' : i ∈ is := by
    rw [hsplit]
    exact List.mem_append_left _ hi
  obtain ⟨before, others, hothers⟩ := List.append_of_mem hload
  have hperm : m.instructions.Perm (load :: (before ++ others)) := hothers ▸ List.perm_middle
  have hapart := hm.numberedOnce.apart hall hperm (p := load.place) List.mem_cons_self
    (hlogs.isNumbered hplace hloaded)
  obtain rfl : i = load := by
    refine (List.mem_cons.1 (hperm.subset (hmodule i hi'))).resolve_right fun hother => hapart ?_
    exact List.mem_flatMap.2 ⟨i, hother, List.mem_map.2 ⟨p, hp, by rw [hdefined, hcell]⟩⟩
  obtain ⟨before', between, rfl⟩ := List.append_of_mem hi
  rw [List.append_assoc, List.cons_append] at hsplit
  exact ⟨⟨before', i, between, call, after, callee, arguments, hsplit, haccess, hop, hcell⟩, rfl, rfl, rfl,
    htemporary⟩

end Reached

/-! ## Weighing method calls -/

namespace Ledger

variable {ctx : Context}

/-- The books that weigh calls of an access, and of constants for one that the code declares.  Any
other constant for one would weigh all that is asked for. -/
def receiving (a : Access) (code : List Mark) (cap : Nat) (written : DeclId → Option String)
    (hnested : ∀ id names f names', ctx.nested id names = .ok (f, names') →
      ∀ d, names'.get? ctx.env d = names.get? ctx.env d) : Ledger ctx where
  weight mark := if mark.calls a code = true then 1 else if mark.isStray a code = true then cap else 0
  written := written
  foreign _ _ _ := rfl
  nested := hnested
  callDue c := if ctx.function.loads a c = true then 1 else 0
  near := ∅
  access := a
  direct c e haccess := by
    have hcalls : (Mark.call e).calls a code = true := by simp [Mark.calls, haccess]
    rw [if_pos hcalls]
    split <;> omega
  cap := cap
  constant c e name haccess := by
    cases hnamed : code.any (·.names a (nameExpr name)) with
    | true =>
      have hcalls : (Mark.call (nameExpr name)).calls a code = true := by simp [Mark.calls, hnamed]
      rw [if_pos hcalls]
      left
      split <;> omega
    | false =>
      have hstray : (Mark.declare .constKind (namePattern name) (some e)).isStray a code = true := by
        simp [Mark.isStray, namePattern, Ident.synthetic, haccess, hnamed]
      right
      rw [if_neg (by simp [Mark.calls]), if_pos hstray]
  exact := False
  exact_call h := h.elim
  exact_declare h := h.elim

section Receiving

variable {a : Access} {code : List Mark} {cap : Nat} {written : DeclId → Option String}
  {hnested : ∀ id names f names', ctx.nested id names = .ok (f, names') →
    ∀ d, names'.get? ctx.env d = names.get? ctx.env d}

/-- In the code itself, only calls weigh anything. -/
theorem weigh_receiving :
    weigh (receiving a code cap written hnested).weight code = code.countP (·.calls a code) := by
  rw [← weigh_eq_countP, weigh, weigh]
  refine congrArg List.sum (List.map_congr_left fun mark hmark => ?_)
  simp [receiving, Mark.isStray_of_mem hmark]

theorem firm_receiving : (receiving a code cap written hnested).firm =
    fun mark => if mark.calls a code = true then 1 else 0 := by
  funext mark
  cases mark with
  | call callee => simp [firm, receiving, Mark.isStray]
  | _ => rfl

theorem due_receiving (i : Instr) : (receiving a code cap written hnested).due i =
    ctx.function.methodCalls written ctx.env a code i := by
  obtain ⟨id, place, origin, op⟩ := i
  cases op with
  | unsupported source bindings => exact (congrArg (weigh · _) firm_receiving).trans (weigh_eq_countP _ _)
  | _ => rfl

theorem local_receiving {is : List Instr} (his : is ∈ lists ctx.function)
    (hm : ctx.module.Reached ctx.env) (hf : ctx.function ∈ ctx.module.functions.values) :
    (receiving a code cap written hnested).Local is := by
  intro i hi callee arguments hop
  cases hloads : ctx.function.loads a callee.cell.id with
  | false => exact .inr fun e => by simp [receiving, hloads]
  | true =>
    obtain ⟨load, hload, hfound⟩ := List.any_eq_true.1 hloads
    obtain ⟨hcell, haccess⟩ := Bool.and_eq_true_iff.1 hfound
    rw [beq_iff_eq] at hcell haccess
    obtain ⟨c, rfl, -, -, htemporary⟩ := exists_methodCall hm hf his
      (List.mem_flatMap.2 ⟨ctx.function, hf, hload⟩) (by simp [haccess]) hi hop hcell.symm
    exact .inl ⟨⟨c.load, c.load_mem, hcell, haccess⟩, htemporary⟩

theorem follower_receiving (hm : ctx.module.Reached ctx.env)
    (hf : ctx.function ∈ ctx.module.functions.values) :
    (receiving a code cap written hnested).Follower where
  far := rfl
  header := local_receiving List.mem_cons_self hm hf
  blocks _ _ hb := local_receiving (List.mem_cons_of_mem _
    (List.mem_map_of_mem (Table.mem_values.2 ⟨_, hb⟩))) hm hf

end Receiving

end Ledger

/-! ## Functions -/

/-- What becomes of the method calls of a function that is emitted as the given code. -/
structure KeepsReceivers (ctx : Context) (names : Names) (params : List Pattern) (body : List Stmt) :
    Prop where
  /-- A call whose callee comes from an access keeps its receiver, unless the access has to be written
  down before the call. -/
  receiver : ∀ is ∈ lists ctx.function, ∀ call ∈ is, ∀ callee arguments, call.op = .call callee arguments →
    ∀ load ∈ ctx.module.instructions, load.op.access?.isSome = true →
      callee.cell.id = load.place.cell.id →
      ∃ c : MethodCall is, c.load = load ∧ c.call = call ∧ ∀ E : c.Emission ctx, E.KeepsReceiver
  /-- No call is lost: the code calls accesses, or constants for them that it declares, at least as often
  as the header and the blocks that were emitted do. -/
  calls : ∃ (hoisted : KeySet DeclId) (start : Names) (st : State),
    emitFunction hoisted ctx { names := start, declared := hoisted } = .ok ((params, body), st) ∧
    ∀ a, ((emittedInstrs ctx.function st.emitted).map (ctx.function.methodCalls (names.get? ctx.env) ctx.env a
      (codeMarks params body st))).sum ≤
        (codeMarks params body st).countP (·.calls a (codeMarks params body st))

/-- Whatever is read somewhere is counted. -/
theorem readCounts_ne_zero {m : Ir.Module} {i : Instr} (hi : i ∈ m.instructions) {p : Place}
    (hp : p ∈ i.reads) : m.readCounts.getD p.cell.id 0 ≠ 0 := by
  obtain ⟨f, hf, hi⟩ := List.mem_flatMap.1 hi
  have hread : p ∈ m.reads :=
    List.mem_flatMap.2 ⟨f, hf, List.mem_append_left _ (List.mem_flatMap.2 ⟨i, hi, hp⟩)⟩
  rw [Ir.Module.getD_readCounts]
  have hmem : p.cell.id ∈ m.readCells := List.mem_map_of_mem hread
  exact (List.count_pos_iff.2 hmem).ne'

end Emit

namespace Ir.Module

open Emit Syntax

variable {m : Ir.Module} {env : Environment}

theorem Reached.definesOnce (hm : m.Reached env) : m.DefinesOnce := by
  intro f hf
  obtain ⟨before, after, hsplit⟩ := List.append_of_mem hf
  have hnodup := hm.results_nodup
  rw [instructions, hsplit, List.flatMap_append, List.flatMap_cons] at hnodup
  refine hnodup.sublist (List.Sublist.map _ ?_)
  exact (List.sublist_append_left _ _).trans (List.sublist_append_right _ _)

/-- Method calls keep their receivers as long as nothing has to be written down between what they call
and the call.  Whatever operations have led to a module, a call whose callee comes from an access calls
the expression of that access; only where the access is read several times, or a statement is generated
between it and the call, the call calls a constant for it, which has no receiver.  And none of these
calls is lost when a function is emitted. -/
theorem Reached.receivers (hm : m.Reached env) {f : Ir.Function} (hf : f ∈ m.functions.values) {fuel : Nat}
    {names names' : Names} {params : List Pattern} {body : List Stmt}
    (h : emitWith m env m.readCounts (emitNested m env m.readCounts fuel) f names =
      .ok ((params, body), names')) :
    KeepsReceivers ⟨m, env, m.readCounts, f, emitNested m env m.readCounts fuel⟩ names params body := by
  let ctx : Context := ⟨m, env, m.readCounts, f, emitNested m env m.readCounts fuel⟩
  have honce := hm.definesOnce
  constructor
  case receiver =>
    intro is his call hcall callee arguments hop load hload haccess hcell
    obtain ⟨c, rfl, rfl, rfl, htemporary⟩ := exists_methodCall hm hf his hload haccess hcall hop hcell
    refine ⟨c, rfl, rfl, c.keepsReceiver htemporary ?_ ?_⟩
    · rw [← hcell]
      refine readCounts_ne_zero (List.mem_flatMap.2 ⟨f, hf, (sublist_instructions his).subset hcall⟩) ?_
      simp [Instr.reads, hop, Op.reads]
    · exact c.apart ((honce f hf).sublist ((sublist_instructions his).map _))
  case calls =>
    have hnested : ∀ id names f names', ctx.nested id names = .ok (f, names') →
        ∀ d, names'.get? ctx.env d = names.get? ctx.env d :=
      fun _ _ _ _ hnested d => honce.get?_emitNested hnested d
    let L : Ledger ctx := .counting .call (names.get? env) (fun _ _ _ h => by cases h) hnested
    obtain ⟨-, hoisted, start, st, hrun, hstart⟩ := Ledger.emitHoisting_run (L := L) (honce f hf)
      (fun _ => rfl) Ledger.follower_counting h
    refine ⟨hoisted, start, st, hrun, fun a => ?_⟩
    let code := codeMarks params body st
    let written := names.get? env
    let asked : Instr → Nat := f.methodCalls written env a code
    let R : Ledger ctx := .receiving a code (f.instructions.map asked).sum written hnested
    have hdue : R.due = asked := funext Ledger.due_receiving
    obtain ⟨-, hpaid⟩ := Ledger.emitFunction_meets (L := R) (honce f hf) hstart
      (Ledger.follower_receiving hm hf) hrun
    have henough := hpaid.enough
    rw [hdue] at henough
    exact (henough (Nat.le_refl _)).trans_eq Ledger.weigh_receiving

/-- `o.m((b(), c()));` -/
def writingDown : ProjectModule where
  path := "m"
  source := .inMemory "o.m((b(), c()));"
  tree :=
    let call (callee : Expr) (arguments : List Element) : Expr := .call .synthetic callee arguments
    let called (name : String) : Expr := call (nameExpr name) []
    ⟨⟨0, 0⟩, [exprStmt (call (.member .synthetic (nameExpr "o") "m")
      [.one (.sequence .synthetic [called "b", called "c"])])]⟩
  imports := ∅

/-- Whether the callee of an instruction comes from an access. -/
def callsAccess (m : Ir.Module) (i : Instr) : Bool :=
  match i.op with
  | .call callee _ => m.instructions.any fun load =>
    load.place.cell.id == callee.cell.id && load.op.access?.isSome
  | _ => false

/-- The call of the module calls a constant, and it is there. -/
theorem Reached.receivers_writingDown :
    ∃ (w : Workbench) (f : Ir.Function) (params : List Pattern) (body : List Stmt),
      writingDown.lower .none {} = .ok w ∧ f ∈ w.module.functions.values ∧
      (∃ i ∈ f.instructions, w.module.callsAccess i = true) ∧
      (Stmt.marksAll body).countP (·.calls (.named "m") (Stmt.marksAll body)) = 1 ∧
      KeepsReceivers ⟨w.module, w.env, w.module.readCounts, f,
        emitNested w.module w.env w.module.readCounts 1⟩ (Names.assign w.module w.env) params body := by
  obtain ⟨w, hlower, f, hf, hcall, ⟨⟨params, body⟩, names'⟩, hcode, hcount⟩ :
      ∃ w ∈ (writingDown.lower .none {}).toOption, ∃ f ∈ w.module.functions.values,
        (∃ i ∈ f.instructions, w.module.callsAccess i = true) ∧
        ∃ code ∈ (emitWith w.module w.env w.module.readCounts
            (emitNested w.module w.env w.module.readCounts 1) f (Names.assign w.module w.env)).toOption,
          (Stmt.marksAll code.1.2).countP (·.calls (.named "m") (Stmt.marksAll code.1.2)) = 1 := by
    decide +kernel
  have hlower := Syntax.Module.eq_ok_of_toOption hlower
  exact ⟨w, f, params, body, hlower, hf, hcall, hcount,
    Reached.receivers (reached_of_compiled hlower) hf (Syntax.Module.eq_ok_of_toOption hcode)⟩

/-- A call that loses its receiver: without any pass, its callee comes from an access, and no call of
the generated code has an access for its callee. -/
theorem receiver_lost_writingDown :
    ∃ (w : Workbench) (tree : Syntax.Module), writingDown.lower .none {} = .ok w ∧
      w.module.toSyntax w.env = .ok tree ∧ (∃ i ∈ w.module.instructions, w.module.callsAccess i = true) ∧
      ∀ callee, .call callee ∈ Stmt.marksAll tree.body → callee.access? = none := by
  obtain ⟨w, hlower, tree, htree, hcall, hnone⟩ :
      ∃ w ∈ (writingDown.lower .none {}).toOption, ∃ tree ∈ (w.module.toSyntax w.env).toOption,
        (∃ i ∈ w.module.instructions, w.module.callsAccess i = true) ∧
        (Stmt.marksAll tree.body).all (fun
          | .call callee => callee.access?.isNone
          | _ => true) = true := by
    decide +kernel
  refine ⟨w, tree, Syntax.Module.eq_ok_of_toOption hlower, Syntax.Module.eq_ok_of_toOption htree, hcall,
    fun callee hcallee => ?_⟩
  exact Option.isNone_iff_eq_none.1 (List.all_eq_true.1 hnone _ hcallee)

end Ir.Module

end Whittle
