import Mathlib.Tactic.Common
import Whittle.Proofs.Lowering.Graph
import Whittle.Proofs.Lowering.Single

/-!
# The walk over the tree

One induction over the tree shows that lowering takes no other steps than those of `Step`: expressions
stay in their block, statements leave what is planned as it was.
-/

namespace Whittle.Lowering

open Ir Syntax

/-- An assignment that may not happen stays as it is written. -/
theorem Keeps.unlessLogical (use : Use) (n : Node) {op : AssignOp} (e : Expr) {act : Lower Place}
    (h : Keeps act) :
    Keeps (if op.isLogical then keepExpr e >>= use.finish n else act) := by
  split
  · exact (keeps_keepExpr e).bind fun _ => keeps_finish use n _
  · exact h

theorem keeps_destructured (n : Node) (op : AssignOp) {target : Pattern} {value : Expr}
    (hvalue : Keeps (lowerExpr .value value)) (hpattern : Keeps (lowerPattern .assignment target)) :
    Keeps (do
      if op == .set && target.isPlain && (← allLocal target) then
        let place ← lowerExpr .value value
        let pattern ← lowerPattern .assignment target
        emit (.destructure pattern place .reassign) n.id
      else keepExpr (.assign n op target value)) := by
  refine (isQuiet_allLocal target).keeps.bind fun _ => ?_
  split
  · exact hvalue.bind fun _ => hpattern.bind fun _ => keeps_emit _ rfl
  · exact keeps_keepExpr _

theorem keeps_classDeclaration (isArm : Bool) (n : Node) (cls : Syntax.Class) :
    Keeps (lowerStmt isArm (.classDeclaration n cls)) := by
  rw [lowerStmt]
  cases cls.name with
  | some ident =>
    simpa only [map_eq_pure_bind, bind_assoc, pure_bind] using
      keeps_keepClass ident.name (.classDeclaration n cls)
  | none => exact keeps_keepStmt _

theorem keeps_exportNames (isArm : Bool) (n : Node) (specifiers : List Syntax.ExportSpecifier)
    (source : Option String) : Keeps (lowerStmt isArm (.exportNames n specifiers source)) := by
  rw [lowerStmt]
  refine isQuiet_get.keeps.bind fun s => ?_
  split
  · exact keeps_exportAll _ _
  · exact keeps_keepStmt _

/-- What a list of statements declares comes before the statements. -/
theorem Moves.declaring (bindings : List LexicalBinding) {hoist : List (DeclId × Place) → Lower Unit}
    {act : Lower Unit} (hhoist : ∀ functions, BuildsAll functions (hoist functions)) (hact : Moves act) :
    Moves (do
      let functions ← declareLexical bindings
      hoist functions
      act) := by
  simpa only [bind_assoc] using (keeps_declareLexical bindings hhoist).moves.bind fun _ => hact

theorem Keeps.declaring (bindings : List LexicalBinding) {act : Lower Unit} (hact : Keeps act) :
    Keeps (do
      let _ ← declareLexical bindings
      act) := by
  simpa only [bind_assoc, pure_bind] using
    (keeps_declareLexical bindings fun functions => buildsAll_pure functions).bind fun _ => hact

theorem Moves.starting {act : Lower Unit} (hact : Moves act) : Moves (do
    let start ← newBlock
    endBlock (.jump start) start
    act) := by
  simpa only [bind_assoc] using moves_start.bind fun _ => hact

mutual

theorem keeps_lowerExpr (use : Use) : (e : Expr) → Keeps (lowerExpr use e)
  | .name n ident => (keeps_loadName ident).bind fun _ => keeps_finish use n _
  | .literal n _ => (keeps_emit _ rfl).bind fun _ => keeps_finish use n _
  | .array n elements =>
    (keeps_lowerElements elements).bind fun _ => (keeps_emit _ rfl).bind fun _ => keeps_finish use n _
  | .object n properties =>
    (keeps_lowerProperties properties).bind fun _ => (keeps_emit _ rfl).bind fun _ =>
      keeps_finish use n _
  | .function n f =>
    (keepsHoisted_lowerFunc _ f).keeps.bind fun _ => (keeps_emit _ rfl).bind fun _ =>
      keeps_finish use n _
  | .unary n op argument => by
    rw [lowerExpr]
    split
    · exact (keeps_keepExpr _).bind fun _ => keeps_finish use n _
    · exact (keeps_lowerExpr .value argument).bind fun _ => (keeps_emit _ rfl).bind fun _ =>
        keeps_finish use n _
  | .update n op before argument => keeps_lowerUpdated use n op before argument
  | .binary n _ left right =>
    (keeps_lowerExpr .value left).bind fun _ => (keeps_lowerExpr .value right).bind fun _ =>
      (keeps_emit _ rfl).bind fun _ => keeps_finish use n _
  | .logical n op left right => by
    rw [lowerExpr]
    split
    · exact (keeps_lowerExpr .value left).bind fun _ => (keeps_lowerExpr .value right).bind fun _ =>
        (keeps_emit _ rfl).bind fun _ => keeps_finish use n _
    · exact (keeps_keepExpr _).bind fun _ => keeps_finish use n _
  | .assign n op target value =>
    keeps_lowerAssigned use n op (keeps_lowerExpr .value value) target
      (keeps_lowerPattern .assignment target)
  | .conditional n test consequent alternate => by
    rw [lowerExpr]
    split
    · exact (keeps_lowerExpr .value test).bind fun _ => (keeps_lowerExpr .value consequent).bind fun _ =>
        (keeps_lowerExpr .value alternate).bind fun _ => (keeps_emit _ rfl).bind fun _ =>
          keeps_finish use n _
    · exact (keeps_keepExpr _).bind fun _ => keeps_finish use n _
  | .call n callee arguments =>
    (keeps_lowerExpr .value callee).bind fun _ => (keeps_lowerElements arguments).bind fun _ =>
      (keeps_emit _ rfl).bind fun _ => keeps_finish use n _
  | .construct n callee arguments =>
    (keeps_lowerExpr .value callee).bind fun _ => (keeps_lowerElements arguments).bind fun _ =>
      (keeps_emit _ rfl).bind fun _ => keeps_finish use n _
  | .member n base _ =>
    (keeps_lowerExpr .value base).bind fun _ => (keeps_emit _ rfl).bind fun _ => keeps_finish use n _
  | .index n base property =>
    (keeps_lowerExpr .value base).bind fun _ => (keeps_lowerExpr .value property).bind fun _ =>
      (keeps_emit _ rfl).bind fun _ => keeps_finish use n _
  | .sequence _ expressions => keeps_lowerSequence use expressions
  | .this n => (keeps_keepExpr _).bind fun _ => keeps_finish use n _

theorem keeps_lowerUpdated (use : Use) (n : Node) (op : UpdateOp) (before : Bool) :
    (argument : Expr) → Keeps (lowerExpr use (.update n op before argument))
  | .name _ ident => keeps_stepped n op before (keeps_loadName ident) fun _ => keeps_storeName ident _ _
  | .member _ base _ =>
    (keeps_lowerExpr .value base).bind fun _ =>
      keeps_stepped n op before (keeps_emit _ rfl) fun _ => keeps_emit _ rfl
  | .index _ base _ => (keeps_lowerExpr .value base).bind fun _ => keeps_keepExpr _
  | .literal .. | .array .. | .object .. | .function .. | .unary .. | .update .. | .binary ..
  | .logical .. | .assign .. | .conditional .. | .call .. | .construct .. | .sequence .. | .this .. =>
    (isQuiet_throw _).keeps

theorem keeps_lowerAssigned (use : Use) (n : Node) (op : AssignOp) {value : Expr}
    (hvalue : Keeps (lowerExpr .value value)) : (target : Pattern) →
    Keeps (lowerPattern .assignment target) → Keeps (lowerExpr use (.assign n op target value))
  | .name _ ident, _ =>
    .unlessLogical use n _ ((keeps_combined n op (keeps_loadName ident) hvalue).bind fun _ =>
      keeps_storeName _ _ _)
  | .expression m e, hpattern => keeps_lowerAssignedExpr use n op hvalue m e hpattern
  | .array .., hpattern | .object .., hpattern | .withDefault .., hpattern | .rest .., hpattern =>
    .unlessLogical use n _ (keeps_destructured n op hvalue hpattern)

theorem keeps_lowerAssignedExpr (use : Use) (n : Node) (op : AssignOp) {value : Expr}
    (hvalue : Keeps (lowerExpr .value value)) (m : Node) : (e : Expr) →
    Keeps (lowerPattern .assignment (.expression m e)) →
    Keeps (lowerExpr use (.assign n op (.expression m e) value))
  | .member _ base _, _ =>
    .unlessLogical use n _ ((keeps_lowerExpr .value base).bind fun _ =>
      (keeps_combined n op (keeps_emit _ rfl) hvalue).bind fun _ => keeps_emit _ rfl)
  | .index _ base property, _ =>
    .unlessLogical use n _ ((keeps_lowerExpr .value base).bind fun _ =>
      (keeps_lowerExpr .value property).bind fun _ =>
        (keeps_combined n op (keeps_emit _ rfl) hvalue).bind fun _ => keeps_emit _ rfl)
  | .name .., hpattern | .literal .., hpattern | .array .., hpattern | .object .., hpattern
  | .function .., hpattern | .unary .., hpattern | .update .., hpattern | .binary .., hpattern
  | .logical .., hpattern | .assign .., hpattern | .conditional .., hpattern | .call .., hpattern
  | .construct .., hpattern | .sequence .., hpattern | .this .., hpattern =>
    .unlessLogical use n _ (keeps_destructured n op hvalue hpattern)

theorem keeps_lowerSequence (use : Use) : (es : List Expr) → Keeps (lowerSequence use es)
  | [] => keeps_finishEmpty use
  | [e] => keeps_lowerExpr use e
  | e :: e' :: es =>
    (keeps_lowerExpr .effect e).bind fun _ => keeps_lowerSequence use (e' :: es)

theorem keeps_lowerElements : (es : List Element) → Keeps (lowerElements es)
  | [] => keeps_pure _
  | .one e :: es =>
    (keeps_lowerExpr .value e).bind fun _ => (keeps_lowerElements es).bind fun _ => keeps_pure _
  | .spread e :: es =>
    (keeps_lowerExpr .value e).bind fun _ => (keeps_emit _ rfl).bind fun _ =>
      (keeps_lowerElements es).bind fun _ => keeps_pure _

theorem keeps_lowerKey : (key : PropertyKey) → Keeps (lowerKey key)
  | .name _ => keeps_pure _
  | .string _ => keeps_pure _
  | .number _ => keeps_pure _
  | .computed e => (keeps_lowerExpr .value e).bind fun _ => keeps_pure _

theorem keeps_lowerProperties : (ps : List Syntax.Property) → Keeps (lowerProperties ps)
  | [] => keeps_pure _
  | .keyValue key value _ :: ps =>
    (keeps_lowerKey key).bind fun _ => (keeps_lowerExpr .value value).bind fun _ =>
      (keeps_lowerProperties ps).bind fun _ => keeps_pure _
  | .method key f :: ps =>
    (keeps_lowerKey key).bind fun _ => (keepsHoisted_lowerFunc .method f).keeps.bind fun _ =>
      (keeps_lowerProperties ps).bind fun _ => keeps_pure _
  | .spread value :: ps =>
    (keeps_lowerExpr .value value).bind fun _ => (keeps_lowerProperties ps).bind fun _ => keeps_pure _

theorem keeps_lowerPattern (use : PatternUse) : (p : Pattern) → Keeps (lowerPattern use p)
  | .name _ ident => (readies_target use ident.name).put rfl _
  | .array _ elements => (keeps_lowerHoles use elements).bind fun _ => keeps_emit _ rfl
  | .object _ properties => (keeps_lowerPatternProperties use properties).bind fun _ => keeps_emit _ rfl
  | .withDefault _ target value =>
    (keeps_lowerExpr .value value).bind fun _ => (keeps_lowerPattern use target).bind fun _ =>
      keeps_emit _ rfl
  | .rest _ argument => (keeps_lowerPattern use argument).bind fun _ => keeps_emit _ rfl
  | .expression _ _ => (isQuiet_throw _).keeps

theorem keeps_lowerHoles (use : PatternUse) : (ps : List (Option Pattern)) → Keeps (lowerHoles use ps)
  | [] => keeps_pure _
  | none :: ps => (keeps_lowerHoles use ps).bind fun _ => keeps_pure _
  | some p :: ps =>
    (keeps_lowerPattern use p).bind fun _ => (keeps_lowerHoles use ps).bind fun _ => keeps_pure _

theorem keeps_lowerPatternProperties (use : PatternUse) :
    (ps : List Syntax.PatternProperty) → Keeps (lowerPatternProperties use ps)
  | [] => keeps_pure _
  | .keyValue key value :: ps =>
    (keeps_lowerKey key).bind fun _ => (keeps_lowerPattern use value).bind fun _ =>
      (keeps_lowerPatternProperties use ps).bind fun _ => keeps_pure _
  | .rest argument :: ps =>
    (keeps_lowerPattern use argument).bind fun _ => (keeps_lowerPatternProperties use ps).bind fun _ =>
      keeps_pure _

theorem keeps_lowerParams : (ps : List Pattern) → Keeps (lowerParams ps)
  | [] => keeps_pure _
  | p :: ps =>
    (keeps_lowerPattern .parameter p).bind fun _ => (keeps_lowerParams ps).bind fun _ => keeps_pure _

theorem keepsHoisted_lowerFunc (kind : FunctionKind) : (f : Func) → KeepsHoisted (lowerFunc kind f)
  | .mk node name params body _ => by
    have hparams := keeps_lowerParams params
    have hbody := moves_lowerBody body
    rw [lowerFunc]
    refine keepsHoisted_inFunction _ _ _ ?_
    split
    · simpa only [bind_assoc, pure_bind] using fills_function (names_self _) hparams hbody
    · simpa only [pure_bind] using fills_function names_pure hparams hbody

theorem moves_lowerBody : (body : Body) → Moves (lowerBody body)
  | .block statements =>
    (keeps_declareHoisted _).moves.bind fun _ =>
      .declaring _ (fun functions => buildsAll_lowerHoisted functions statements)
        (moves_lowerAll statements)
  | .expression value => by
    refine (keeps_lowerExpr .value value).moves.bind fun place => ?_
    refine (IsQuiet.keeps fun s _ s' hrun => ?_).moves.bind fun _ => moves_return (some place)
    cases hrun
    exact { Quiet.refl s with function := ⟨_, rfl⟩ }

theorem builds_lowerHoistedOne (functions : List (DeclId × Place)) :
    (s : Stmt) → Builds functions (lowerHoistedOne functions s)
  | .function _ f => by
    have hfunc := keepsHoisted_lowerFunc .declaration f
    unfold lowerHoistedOne
    cases functions with
    | nil => exact builds_pure []
    | cons e functions =>
      dsimp only
      split
      · exact builds_function hfunc e.1 e.2 functions f.node.id
      · exact builds_pure _
  | .exportDeclaration _ inner => builds_lowerHoistedOne functions inner
  | .declaration .. | .classDeclaration .. | .return .. | .ifElse .. | .while .. | .doWhile ..
  | .for .. | .forEach .. | .block .. | .break .. | .continue .. | .throw .. | .expression ..
  | .importFrom .. | .exportNames .. | .exportDefault .. | .empty .. => builds_pure functions

theorem buildsAll_lowerHoisted (functions : List (DeclId × Place)) :
    (ss : List Stmt) → BuildsAll functions (lowerHoisted functions ss)
  | [] => buildsAll_pure functions
  | s :: ss => (builds_lowerHoistedOne functions s).all fun rest => buildsAll_lowerHoisted rest ss

theorem keeps_lowerDeclarators (kind : VarKind) (origin : Option Nat) :
    (ds : List Declarator) → Keeps (lowerDeclarators kind origin ds)
  | [] => keeps_pure _
  | .mk n target (some value) :: ds => by
    have hvalue := keeps_lowerExpr .value value
    have hpattern := keeps_lowerPattern .declaration target
    have hrest := keeps_lowerDeclarators kind origin ds
    cases target
    case name ident =>
      exact hvalue.bind fun _ => (keeps_bindVariable ident.name kind _ origin).bind fun _ => hrest
    all_goals exact hvalue.bind fun _ => hpattern.bind fun _ => (keeps_emit _ rfl).bind fun _ => hrest
  | .mk n target none :: ds => by
    have hrest := keeps_lowerDeclarators kind origin ds
    cases target
    case name ident =>
      unfold lowerDeclarators
      dsimp only
      split
      · exact (keeps_emit _ rfl).bind fun _ => (keeps_bindVariable _ _ _ _).bind fun _ => hrest
      · exact hrest
    all_goals exact (isQuiet_throw _).keeps.bind fun _ => hrest

theorem keeps_lowerHead : (head : Option ForHead) → Keeps (lowerHead head)
  | none => keeps_pure _
  | some (.declaration kind declarators) =>
    .declaring _ (keeps_lowerDeclarators kind none declarators)
  | some (.expression value) => (keeps_lowerExpr .effect value).bind fun _ => keeps_pure _

theorem keeps_lowerTest : (test : Option Expr) → Keeps (lowerTest test)
  | none => keeps_emit _ rfl
  | some e => keeps_lowerExpr .value e

theorem keeps_lowerUpdate : (update : Option Expr) → Keeps (lowerUpdate update)
  | none => keeps_pure _
  | some e => (keeps_lowerExpr .effect e).bind fun _ => keeps_pure _

theorem keeps_lowerResult : (value : Option Expr) → Keeps (lowerResult value)
  | none => keeps_pure _
  | some e => (keeps_lowerExpr .value e).bind fun _ => keeps_pure _

theorem moves_lowerStmt (isArm : Bool) : (s : Stmt) → Moves (lowerStmt isArm s)
  | .declaration n kind declarators => (keeps_lowerDeclarators kind n.id declarators).moves
  | .function _ _ => (keeps_pure _).moves
  | .return _ value => (keeps_lowerResult value).moves.bind fun place => moves_return place
  | .ifElse _ test consequent none =>
    .branch (keeps_lowerExpr .value test) (moves_lowerStmt true consequent) fun base first =>
      ⟨mergeVersions base.path.versions [first.path, base.path],
        first.path.isReachable || base.path.isReachable⟩
  | .ifElse _ test consequent (some alternate) => by
    have hbranch := Moves.branchElse (keeps_lowerExpr .value test) (moves_lowerStmt true consequent)
      (moves_lowerStmt true alternate) fun base first second =>
        ⟨mergeVersions base.path.versions [first.path, second.path],
          first.path.isReachable || second.path.isReachable⟩
    simpa only [lowerStmt, lowerElse, bind_assoc, pure_bind, Option.isSome_some, if_true] using hbranch
  | .while _ test body => .loopOver (keeps_lowerExpr .value test) (moves_lowerStmt true body)
  | .for _ head test update body =>
    .inScope (.starting ((keeps_lowerHead head).moves.bind fun _ =>
      .loopOver (keeps_lowerTest test) ((moves_lowerStmt true body).bind fun _ =>
        (keeps_lowerUpdate update).moves))) .block
  | .block _ statements => by
    have hscope := Moves.inScope (.declaring (statements.flatMap Stmt.lexical)
      (fun functions => buildsAll_lowerHoisted functions statements) (moves_lowerAll statements)) .block
    cases isArm with
    | true => exact hscope
    | false => exact .starting hscope
  | .break _ none => moves_leaveLoop
  | .break _ (some _) => (isQuiet_throw _).keeps.moves
  | .continue _ _ => (isQuiet_throw _).keeps.moves
  | .expression _ value => ((keeps_lowerExpr .effect value).bind fun _ => keeps_pure _).moves
  | .importFrom n specifiers _ =>
    ((keeps_importAll n.id specifiers).bind fun _ => (keeps_emit _ rfl).bind fun _ =>
      keeps_pure _).moves
  | .exportNames n specifiers source => (keeps_exportNames isArm n specifiers source).moves
  | .exportDeclaration n inner =>
    (moves_lowerStmt false inner).bind fun _ =>
      ((isQuiet_declaredAll _).keeps.bind fun _ => keeps_exportAll n.id _).moves
  | .exportDefault _ value =>
    ((keeps_lowerExpr .value value).bind fun _ => (keeps_emitExport _ _ rfl).bind fun _ =>
      keeps_pure _).moves
  | .classDeclaration n cls => (keeps_classDeclaration isArm n cls).moves
  | .empty _ => (keeps_pure _).moves
  | .doWhile .. | .forEach .. | .throw .. => (keeps_keepStmt _).moves

theorem moves_lowerAll : (ss : List Stmt) → Moves (lowerAll ss)
  | [] => (keeps_pure _).moves
  | s :: ss => (moves_lowerStmt false s).bind fun _ => moves_lowerAll ss

end

/-! ## Modules -/

/-- The state in which a module begins: one function and no records. -/
def State.start (globals : Table String ImportBinding) : State where
  env := ({} : Environment).newFunc.2.newBlock.2
  scopes := []
  outer := []
  functions := ∅
  exports := ∅
  frame := Frame.start (Function.start ⟨0⟩ none none .module none ⟨0⟩)
  globals := globals

/-- The configuration in which a module begins. -/
def Config.start (globals : Table String ImportBinding) : Config :=
  ⟨State.start globals, {}, [], (∅ : Table BlockId FuncId).insert ⟨0⟩ ⟨0⟩⟩

theorem sound_start (globals : Table String ImportBinding) : Sound (Config.start globals) where
  records := by
    refine ⟨⟨?_, ?_, ?_, ?_⟩, ?_, ?_⟩
    · rintro d r ⟨⟩
    · rintro d r ⟨⟩
    · intro d hd
      exact absurd rfl hd
    · rintro d d' r ⟨⟩
    · rintro d r ⟨⟩
    · rintro d r ⟨⟩
  handed b id hb := by
    change (Table.insert _ _ _).get? b = _ at hb
    rw [Table.get?_insert] at hb
    split at hb
    · rename_i heq
      rw [heq]
      exact Nat.lt_succ_self _
    · cases hb
  scopes := by
    rintro d ⟨scope, ⟨⟩, -⟩
  current := open_start _ _ _ _ (Nat.lt_succ_self _) (Table.get?_insert_self ..)
  saved o ho := by cases ho
  closed id f hf := by cases hf
  ids := List.nodup_singleton _
  apart _ _ := rfl

theorem single_start (globals : Table String ImportBinding) : Single (Config.start globals) where
  once id := Nat.zero_le 1
  lt id hid := by cases hid
  unclaimed u hu d hd := by
    rw [List.mem_singleton.1 hu] at hd
    cases hd
  apart := List.pairwise_singleton ..

end Whittle.Lowering

namespace Whittle.Syntax.Module

open Ir Lowering

/-- Lowering a module is a sequence of steps, and the function left open at the end is its entry. -/
theorem steps_lower {path : String} {m : Syntax.Module} {ir : Ir.Module} {env : Environment}
    (h : m.lower path {} = .ok (ir, env)) :
    ∃ (s : State) (home : Table BlockId FuncId),
      Steps (Config.start (importsOf m.body)) ⟨s, {}, [], home⟩ ∧ env = s.env ∧
      ir.functions = s.functions.insert s.frame.function.id
        (s.frame.close (.ret none)).recomputeFlow := by
  change (inScope .function (lowerBody (.block m.body)) (State.start (importsOf m.body)) >>=
    fun out => pure (_, out.2.env)) = _ at h
  cases hrun : inScope .function (lowerBody (.block m.body)) (State.start (importsOf m.body)) with
  | error e =>
    rw [hrun] at h
    cases h
  | ok out =>
    rw [hrun] at h
    cases h
    obtain ⟨hsame, hgoes⟩ := (moves_lowerBody (.block m.body)).inScope .function _ _ _ hrun rfl
    obtain ⟨home, hsteps⟩ := hgoes [] [] [] _ (sound_start _)
    have hid : out.2.frame.function.id = ⟨0⟩ := hsame.function
    exact ⟨out.2, home, hsteps, rfl, by rw [hid]⟩

/-- Lowering a module leaves functions that are done, each with blocks and records of its own. -/
theorem closed_lower {path : String} {m : Syntax.Module} {ir : Ir.Module} {env : Environment}
    (h : m.lower path {} = .ok (ir, env)) :
    ∃ home, env.Recorded home ∧ ∀ id f, ir.functions.get? id = some f → Closed env home id f := by
  obtain ⟨s, home, hsteps, rfl, hfunctions⟩ := steps_lower h
  have hsound := (sound_start _).steps hsteps
  refine ⟨home, hsound.records, fun id f hf => ?_⟩
  rw [hfunctions, Table.get?_insert] at hf
  split at hf
  · next heq =>
    cases hf
    rw [heq]
    exact hsound.current.close rfl
  · exact hsound.closed id f hf

/-- No cell is defined twice in a lowered module. -/
theorem writes_nodup_lower {path : String} {m : Syntax.Module} {ir : Ir.Module} {env : Environment}
    (h : m.lower path {} = .ok (ir, env)) : (ir.instructions.flatMap Instr.writes).Nodup := by
  obtain ⟨s, home, hsteps, -, hfunctions⟩ := steps_lower h
  have hsound := (sound_start _).steps hsteps
  have hsingle := (single_start _).steps (sound_start _) hsteps
  have hdone : ir.instructions.Perm (s.frame.instructions ++ s.done) := by
    have hperm := (Table.values_insert_perm s.functions s.frame.function.id
      (s.frame.close (.ret none)).recomputeFlow).flatMap_right Function.instructions
    rw [Table.erase_of_not_contains (hsound.apart _ List.mem_cons_self), ← hfunctions] at hperm
    exact hperm.trans ((s.frame.instructions_close hsound.current.block_new (.ret none)).append_right _)
  rw [List.nodup_iff_count_le_one]
  intro id
  have hcount := (hdone.flatMap_right Instr.writes).count_eq id
  have honce := hsingle.once id
  rw [List.flatMap_append, List.count_append] at hcount
  rw [Config.count_held, heldBy, List.count_append] at honce
  omega

theorem eq_ok_of_toOption {α : Type} {out : Outcome α} {a : α} (h : out.toOption = some a) :
    out = .ok a := by
  cases out with
  | error e => cases h
  | ok b =>
    cases h
    rfl

end Whittle.Syntax.Module
