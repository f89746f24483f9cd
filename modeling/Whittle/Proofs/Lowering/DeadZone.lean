import Mathlib.Tactic.Common
import Whittle.Proofs.Lowering.Blame

/-!
# Lowering blames only uses in a dead zone

The induction is on the tree.  What it says of an expression or of a statement is that lowering it `Blames` the
uses that `Early` finds there, and that a statement settles the names that it declares; functions, blocks and loops
open scopes and are put together from `BlamesWithin`.

Main statement: `Module.early_of_lower`.
-/

namespace Whittle.Lowering

open Ir Syntax

variable {kind : ScopeKind} {uses : String → Prop → Prop}

/-! ## The walk over the tree -/

theorem blames_combined (n : Node) (op : AssignOp) {current value : Lower Place}
    (hcurrent : Blames kind uses [] current) (hvalue : Blames kind uses [] value) :
    Blames kind uses [] (combined n op current value) := by
  unfold combined
  split
  · exact hcurrent.bind fun _ => hvalue.bind fun _ => .calm
  · exact hvalue

theorem blames_stepped (n : Node) (op : UpdateOp) (before : Bool) {load : Lower Place} {store : Place → Lower Place}
    (hload : Blames kind uses [] load) (hstore : ∀ value, Blames kind uses [] (store value)) :
    Blames kind uses [] (stepped n op before load store) :=
  hload.bind fun _ => Blames.calm.bind fun _ => Blames.calm.bind fun _ => (hstore _).bind fun _ => .calm

theorem blames_loopOver {test : Lower Place} {body : Lower Unit} (htest : Blames kind uses [] test)
    (hbody : Blames kind uses [] body) : Blames kind uses [] (loopOver test body) := by
  refine Blames.calm.bind fun testBlock => Blames.calm.bind fun bodyBlock => Blames.calm.bind fun exit =>
    Blames.calm.bind fun _ => Blames.calm.bind fun base => htest.bind fun t => Blames.calm.bind fun _ =>
    Blames.calm.bind fun _ => hbody.bind fun _ => Blames.calm.bind fun last => Blames.calm.bind fun _ =>
    Blames.calm.bind fun frame => ?_
  split
  · exact .calm
  · exact .calm

/-- The names that a pattern declares. -/
def PatternUse.declares (use : PatternUse) (idents : List Ident) : List String :=
  if use = .declaration then idents.map (·.name) else []

theorem PatternUse.declares_append (use : PatternUse) (idents idents' : List Ident) :
    use.declares (idents ++ idents') = use.declares idents ++ use.declares idents' := by
  unfold declares
  split
  · exact List.map_append
  · rfl

theorem PatternUse.declares_nil (use : PatternUse) : use.declares [] = [] := by
  unfold declares
  split <;> rfl

theorem blames_target (use : PatternUse) (ident : Ident) :
    Blames kind uses (use.declares [ident]) (use.target ident.name) := by
  cases use with
  | declaration => exact blames_binding ident.name
  | assignment => exact .calm (p := declared ident.name >>= newVersion)
  | parameter => exact blames_introduce ident.name .parameter

/-- An assignment that may not happen stays as it is written. -/
theorem Blames.unlessLogical (use : Use) (n : Node) {op : AssignOp} (e : Expr) {act : Lower Place}
    (h : Blames kind uses [] act) :
    Blames kind uses [] (if op.isLogical then keepExpr e >>= use.finish n else act) := by
  split
  · exact .calm
  · exact h

theorem blames_destructured (n : Node) (op : AssignOp) {target : Pattern} {value : Expr}
    (hvalue : Blames kind uses [] (lowerExpr .value value))
    (hpattern : Blames kind uses [] (lowerPattern .assignment target)) :
    Blames kind uses [] (do
      if op == .set && target.isPlain && (← allLocal target) then
        let place ← lowerExpr .value value
        let pattern ← lowerPattern .assignment target
        emit (.destructure pattern place .reassign) n.id
      else keepExpr (.assign n op target value)) := by
  refine Blames.calm.bind fun _ => ?_
  split
  · exact hvalue.bind fun _ => hpattern.bind fun _ => .calm
  · exact .calm

theorem blames_exportNames (isArm : Bool) (n : Node) (specifiers : List Syntax.ExportSpecifier)
    (source : Option String) : Blames kind (fun x dead => (Stmt.exportNames n specifiers source).Early x dead) []
      (lowerStmt isArm (.exportNames n specifiers source)) := by
  rw [lowerStmt]
  intro s hs hkind
  refine .after (a := s) rfl ?_
  split
  · next hexported =>
    refine (ends_exportAll n.id hs (find?_of_exported? hexported)).imp (fun _ _ => id) fun x hx dead hdead => ?_
    obtain ⟨hdead, hmem⟩ := hx dead hdead
    exact ⟨rfl, hdead, List.mem_map.1 hmem⟩
  · exact Blames.calm s hs hkind

/-- What an exported declaration publishes it reads behind the declaration. -/
theorem blames_publishing (inner : Stmt) (origin : Option Nat) :
    Blames kind (fun x dead => dead ∧ x ∈ publishedNames inner) [] (do
      exportAll origin (← declaredAll (publishedNames inner))) := by
  intro s hs hkind
  refine ((ends_declaredAll (publishedNames inner) s).imp (fun _ _ => id) nofun).bind fun locals s' hlocals => ?_
  obtain ⟨rfl, hlocals⟩ := hlocals
  exact ends_exportAll origin hs hlocals

mutual

theorem blames_lowerExpr (use : Use) {kind : ScopeKind} : (e : Expr) →
    Blames kind (fun x dead => e.Early x dead) [] (lowerExpr use e)
  | .name _ ident => (blames_loadName ident).bind fun _ => .calm
  | .literal _ _ => Blames.calm.bind fun _ => .calm
  | .array _ elements => (blames_lowerElements elements).bind fun _ => .calm
  | .object _ properties => (blames_lowerProperties properties).bind fun _ => .calm
  | .function _ f => (blames_lowerFunc _ f).bind fun _ => .calm
  | .unary _ op argument => by
    rw [lowerExpr]
    split
    · exact .calm
    · exact (blames_lowerExpr .value argument).bind fun _ => .calm
  | .update n op before argument => blames_lowerUpdated use n op before argument
  | .binary _ _ left right =>
    ((blames_lowerExpr .value left).imp fun _ _ => .inl).bind fun _ =>
      ((blames_lowerExpr .value right).imp fun _ _ => .inr).bind fun _ => .calm
  | .logical _ _ left right => by
    rw [lowerExpr]
    split
    · exact ((blames_lowerExpr .value left).imp fun _ _ => .inl).bind fun _ =>
        ((blames_lowerExpr .value right).imp fun _ _ => .inr).bind fun _ => .calm
    · exact .calm
  | .assign n op target value =>
    blames_lowerAssigned use n op (blames_lowerExpr .value value) target (blames_lowerPattern .assignment target)
  | .conditional _ test consequent alternate => by
    rw [lowerExpr]
    split
    · exact ((blames_lowerExpr .value test).imp fun _ _ => .inl).bind fun _ =>
        ((blames_lowerExpr .value consequent).imp fun _ _ h => .inr (.inl h)).bind fun _ =>
        ((blames_lowerExpr .value alternate).imp fun _ _ h => .inr (.inr h)).bind fun _ => .calm
    · exact .calm
  | .call _ callee arguments =>
    ((blames_lowerExpr .value callee).imp fun _ _ => .inl).bind fun _ =>
      ((blames_lowerElements arguments).imp fun _ _ => .inr).bind fun _ => .calm
  | .construct _ callee arguments =>
    ((blames_lowerExpr .value callee).imp fun _ _ => .inl).bind fun _ =>
      ((blames_lowerElements arguments).imp fun _ _ => .inr).bind fun _ => .calm
  | .member _ base _ => (blames_lowerExpr .value base).bind fun _ => .calm
  | .index _ base property =>
    ((blames_lowerExpr .value base).imp fun _ _ => .inl).bind fun _ =>
      ((blames_lowerExpr .value property).imp fun _ _ => .inr).bind fun _ => .calm
  | .sequence _ expressions => blames_lowerSequence use expressions
  | .this _ => Blames.calm.bind fun _ => .calm

theorem blames_lowerUpdated (use : Use) (n : Node) (op : UpdateOp) (before : Bool) {kind : ScopeKind} :
    (argument : Expr) → Blames kind (fun x dead => (Expr.update n op before argument).Early x dead) []
      (lowerExpr use (.update n op before argument))
  | .name _ ident =>
    blames_stepped n op before (blames_loadName ident) fun value => blames_storeName ident value n.id
  | .member _ base _ =>
    (blames_lowerExpr .value base).bind fun _ => blames_stepped n op before .calm fun _ => .calm
  | .index _ base _ => ((blames_lowerExpr .value base).imp fun _ _ => .inl).bind fun _ => .calm
  | .literal .. | .array .. | .object .. | .function .. | .unary .. | .update .. | .binary ..
  | .logical .. | .assign .. | .conditional .. | .call .. | .construct .. | .sequence .. | .this .. =>
    .calm (p := refuse "update of a non-reference expression")

theorem blames_lowerAssigned (use : Use) (n : Node) (op : AssignOp) {value : Expr} {kind : ScopeKind}
    (hvalue : Blames kind (fun x dead => value.Early x dead) [] (lowerExpr .value value)) : (target : Pattern) →
    Blames kind (fun x dead => target.Early x dead) [] (lowerPattern .assignment target) →
    Blames kind (fun x dead => (Expr.assign n op target value).Early x dead) []
      (lowerExpr use (.assign n op target value))
  | .name _ ident, _ =>
    .unlessLogical use n _ <|
      (blames_combined n op ((blames_loadName ident).imp fun _ _ h => .inl ⟨h.1, List.mem_singleton.2 h.2.symm⟩)
        (hvalue.imp fun _ _ h => .inr (.inr h))).bind fun _ =>
        (blames_storeName _ _ _).imp fun _ _ h => .inl ⟨h.1, List.mem_singleton.2 h.2.symm⟩
  | .expression m e, hpattern => blames_lowerAssignedExpr use n op hvalue m e hpattern
  | .array .., hpattern | .object .., hpattern | .withDefault .., hpattern | .rest .., hpattern =>
    .unlessLogical use n _ (blames_destructured n op (hvalue.imp fun _ _ h => .inr (.inr h))
      (hpattern.imp fun _ _ h => .inr (.inl h)))

theorem blames_lowerAssignedExpr (use : Use) (n : Node) (op : AssignOp) {value : Expr} {kind : ScopeKind}
    (hvalue : Blames kind (fun x dead => value.Early x dead) [] (lowerExpr .value value)) (m : Node) : (e : Expr) →
    Blames kind (fun x dead => (Pattern.expression m e).Early x dead) [] (lowerPattern .assignment (.expression m e)) →
    Blames kind (fun x dead => (Expr.assign n op (.expression m e) value).Early x dead) []
      (lowerExpr use (.assign n op (.expression m e) value))
  | .member _ base _, _ =>
    .unlessLogical use n _ <|
      ((blames_lowerExpr .value base).imp fun _ _ h => .inr (.inl h)).bind fun _ =>
        (blames_combined n op .calm (hvalue.imp fun _ _ h => .inr (.inr h))).bind fun _ => .calm
  | .index _ base property, _ =>
    .unlessLogical use n _ <|
      ((blames_lowerExpr .value base).imp fun _ _ h => .inr (.inl (.inl h))).bind fun _ =>
        ((blames_lowerExpr .value property).imp fun _ _ h => .inr (.inl (.inr h))).bind fun _ =>
        (blames_combined n op .calm (hvalue.imp fun _ _ h => .inr (.inr h))).bind fun _ => .calm
  | .name .., hpattern | .literal .., hpattern | .array .., hpattern | .object .., hpattern
  | .function .., hpattern | .unary .., hpattern | .update .., hpattern | .binary .., hpattern
  | .logical .., hpattern | .assign .., hpattern | .conditional .., hpattern | .call .., hpattern
  | .construct .., hpattern | .sequence .., hpattern | .this .., hpattern =>
    .unlessLogical use n _ (blames_destructured n op (hvalue.imp fun _ _ h => .inr (.inr h))
      (hpattern.imp fun _ _ h => .inr (.inl h)))

theorem blames_lowerSequence (use : Use) {kind : ScopeKind} : (es : List Expr) →
    Blames kind (fun x dead => Expr.EarlyAll x dead es) [] (lowerSequence use es)
  | [] => .calm (p := use.finishEmpty)
  | [e] => (blames_lowerExpr use e).imp fun _ _ => .inl
  | e :: e' :: es =>
    ((blames_lowerExpr .effect e).imp fun _ _ => .inl).bind fun _ =>
      (blames_lowerSequence use (e' :: es)).imp fun _ _ => .inr

theorem blames_lowerElements {kind : ScopeKind} : (es : List Element) →
    Blames kind (fun x dead => Element.EarlyAll x dead es) [] (lowerElements es)
  | [] => .calm (p := pure [])
  | .one e :: es =>
    ((blames_lowerExpr .value e).imp fun _ _ => .inl).bind fun _ =>
      ((blames_lowerElements es).imp fun _ _ => .inr).bind fun _ => .calm
  | .spread e :: es =>
    ((blames_lowerExpr .value e).imp fun _ _ => .inl).bind fun _ => Blames.calm.bind fun _ =>
      ((blames_lowerElements es).imp fun _ _ => .inr).bind fun _ => .calm

theorem blames_lowerKey {kind : ScopeKind} : (key : PropertyKey) →
    Blames kind (fun x dead => key.Early x dead) [] (lowerKey key)
  | .name text => .calm (p := pure (Key.name text))
  | .string text => .calm (p := pure (Key.string text))
  | .number value => .calm (p := pure (Key.number value))
  | .computed e => (blames_lowerExpr .value e).bind fun _ => .calm

theorem blames_lowerProperties {kind : ScopeKind} : (ps : List Syntax.Property) →
    Blames kind (fun x dead => Property.EarlyAll x dead ps) [] (lowerProperties ps)
  | [] => .calm (p := pure [])
  | .keyValue key value _ :: ps =>
    ((blames_lowerKey key).imp fun _ _ => .inl).bind fun _ =>
      ((blames_lowerExpr .value value).imp fun _ _ h => .inr (.inl h)).bind fun _ =>
      ((blames_lowerProperties ps).imp fun _ _ h => .inr (.inr h)).bind fun _ => .calm
  | .method key f :: ps =>
    ((blames_lowerKey key).imp fun _ _ => .inl).bind fun _ =>
      ((blames_lowerFunc .method f).imp fun _ _ h => .inr (.inl h)).bind fun _ =>
      ((blames_lowerProperties ps).imp fun _ _ h => .inr (.inr h)).bind fun _ => .calm
  | .spread value :: ps =>
    ((blames_lowerExpr .value value).imp fun _ _ => .inl).bind fun _ =>
      ((blames_lowerProperties ps).imp fun _ _ => .inr).bind fun _ => .calm

theorem blames_lowerPattern (use : PatternUse) {kind : ScopeKind} : (p : Pattern) →
    Blames kind (fun x dead => p.Early x dead) (use.declares p.bound) (lowerPattern use p)
  | .name _ ident => (blames_target use ident).settle fun _ => .calm
  | .array _ elements => (blames_lowerHoles use elements).settle fun _ => .calm
  | .object _ properties => (blames_lowerPatternProperties use properties).settle fun _ => .calm
  | .withDefault _ target value =>
    ((blames_lowerExpr .value value).imp fun _ _ => .inr).bind fun _ =>
      ((blames_lowerPattern use target).imp fun _ _ => .inl).settle fun _ => .calm
  | .rest _ argument => (blames_lowerPattern use argument).settle fun _ => .calm
  | .expression _ _ => by
    rw [Pattern.bound, PatternUse.declares_nil]
    exact .calm (p := refuse "member expression in a binding pattern")

theorem blames_lowerHoles (use : PatternUse) {kind : ScopeKind} : (ps : List (Option Pattern)) →
    Blames kind (fun x dead => Pattern.EarlyHoles x dead ps) (use.declares (Pattern.boundHoles ps))
      (lowerHoles use ps)
  | [] => by
    rw [Pattern.boundHoles, PatternUse.declares_nil]
    exact .calm (p := pure [])
  | none :: ps => (blames_lowerHoles use ps).settle fun _ => .calm
  | some p :: ps => by
    rw [Pattern.boundHoles, PatternUse.declares_append]
    exact ((blames_lowerPattern use p).imp fun _ _ => .inl).seq fun _ =>
      ((blames_lowerHoles use ps).imp fun _ _ => .inr).settle fun _ => .calm

theorem blames_lowerPatternProperties (use : PatternUse) {kind : ScopeKind} : (ps : List Syntax.PatternProperty) →
    Blames kind (fun x dead => PatternProperty.EarlyAll x dead ps) (use.declares (PatternProperty.boundAll ps))
      (lowerPatternProperties use ps)
  | [] => by
    rw [PatternProperty.boundAll, PatternUse.declares_nil]
    exact .calm (p := pure [])
  | .keyValue key value :: ps => by
    rw [PatternProperty.boundAll, PatternUse.declares_append]
    exact ((blames_lowerKey key).imp fun _ _ => .inl).bind fun _ =>
      ((blames_lowerPattern use value).imp fun _ _ h => .inr (.inl h)).seq fun _ =>
      ((blames_lowerPatternProperties use ps).imp fun _ _ h => .inr (.inr h)).settle fun _ => .calm
  | .rest argument :: ps => by
    rw [PatternProperty.boundAll, PatternUse.declares_append]
    exact ((blames_lowerPattern use argument).imp fun _ _ => .inl).seq fun _ =>
      ((blames_lowerPatternProperties use ps).imp fun _ _ => .inr).settle fun _ => .calm

theorem blames_lowerParams {kind : ScopeKind} : (ps : List Pattern) →
    Blames kind (fun x dead => Pattern.EarlyAll x dead ps) [] (lowerParams ps)
  | [] => .calm (p := pure [])
  | p :: ps =>
    ((blames_lowerPattern .parameter p).imp fun _ _ => .inl).bind fun _ =>
      ((blames_lowerParams ps).imp fun _ _ => .inr).bind fun _ => .calm

theorem blames_lowerFunc (kind : FunctionKind) {kind' : ScopeKind} : (f : Func) →
    Blames kind' (fun x _ => f.Early x) [] (lowerFunc kind f)
  | .mk node name params body _ => by
    have hnumber : IsCalm (onEnv (·.newFunc)) := isCalm_onEnv fun _ _ _ h => h
    have hopen : IsCalm (onFrame ({ · with inHeader := true })) := isCalm_onFrame fun _ => rfl
    have hclose (places : List Place) : IsCalm (onFrame fun frame =>
        { frame with inHeader := false, function := { frame.function with params := places } }) :=
      isCalm_onFrame fun _ => rfl
    have hfill : BlamesWithin .function (fun x dead => Pattern.EarlyAll x dead params ∨ body.Early x dead) (do
        onFrame ({ · with inHeader := true })
        let places ← lowerParams params
        onFrame fun frame =>
          { frame with inHeader := false, function := { frame.function with params := places } }
        lowerBody body) :=
      Blames.calm.within_bind fun _ => ((blames_lowerParams params).imp fun _ _ => .inl).within_bind fun _ =>
        Blames.calm.within_bind fun _ => (blamesWithin_lowerBody body).imp fun _ _ => .inr
    rw [lowerFunc]
    refine Blames.calm.bind fun id => BlamesWithin.inFunction
      (?_ : BlamesWithin .function (fun x dead => Pattern.EarlyAll x dead params ∨ body.Early x dead) _) _ _ _ _
    split
    · next ident =>
      have hself : Blames .function (fun x dead => Pattern.EarlyAll x dead params ∨ body.Early x dead) [] (do
          let d ← newDeclaration ident.name .constKind
          onScopes (Scopes.bind? ident.name d)
          let _ ← newVersion d) := blames_introduce ident.name .constKind
      simpa only [bind_assoc, pure_bind] using hself.within_bind fun _ => hfill
    · simpa only [pure_bind] using hfill

theorem blamesWithin_lowerBody : (body : Body) →
    BlamesWithin .function (fun x dead => body.Early x dead) (lowerBody body)
  | .block statements =>
    (blames_declareHoisted _).within_bind fun _ => .declaring fun functions =>
      ((blames_lowerHoisted functions statements).imp fun _ dead h => h dead).within_bind fun _ =>
        (blames_lowerAll statements).within
  | .expression value => by
    have hconcise : IsCalm (onFrame fun frame =>
        { frame with function := { frame.function with isConcise := true } }) :=
      isCalm_onFrame fun _ => rfl
    exact Blames.within ((blames_lowerExpr .value value).bind fun _ => Blames.calm.bind fun _ => .calm)

theorem blames_lowerHoistedOne (functions : List (DeclId × Place)) {kind : ScopeKind} : (s : Stmt) →
    Blames kind (fun x _ => ∀ dead, s.Early x dead) [] (lowerHoistedOne functions s)
  | .function n f => by
    have hfunc : Blames kind (fun x _ => ∀ dead, (Stmt.function n f).Early x dead) [] (lowerFunc .declaration f) :=
      (blames_lowerFunc .declaration f).imp fun _ _ h _ => h
    have hbound (d : DeclId) (id : FuncId) : IsCalm (modify fun s => { s with env := s.env.bindFunction d id }) :=
      isCalm_modify fun s => { Calm.refl s with }
    unfold lowerHoistedOne
    cases functions with
    | nil => exact .calm
    | cons e functions =>
      dsimp only
      split
      · exact hfunc.bind fun _ => .calm
      · exact .calm
  | .exportDeclaration _ inner => (blames_lowerHoistedOne functions inner).imp fun _ _ h dead => .inl (h dead)
  | .declaration .. | .classDeclaration .. | .return .. | .ifElse .. | .while .. | .doWhile ..
  | .for .. | .forEach .. | .block .. | .break .. | .continue .. | .throw .. | .expression ..
  | .importFrom .. | .exportNames .. | .exportDefault .. | .empty .. => .calm (p := pure functions)

theorem blames_lowerHoisted (functions : List (DeclId × Place)) {kind : ScopeKind} : (ss : List Stmt) →
    Blames kind (fun x _ => ∀ dead, Stmt.EarlyAll x dead ss) [] (lowerHoisted functions ss)
  | [] => .calm (p := pure ())
  | s :: ss =>
    ((blames_lowerHoistedOne functions s).imp fun _ _ h dead => .inl (h dead)).bind fun rest =>
      (blames_lowerHoisted rest ss).imp fun _ _ h _ => .inr (h _)

theorem blames_lowerDeclarators (word : VarKind) (origin : Option Nat) {kind : ScopeKind} : (ds : List Declarator) →
    Blames kind (fun x dead => Declarator.EarlyAll x word dead ds) (word.guarded (Declarator.boundAll ds))
      (lowerDeclarators word origin ds)
  | [] => by
    rw [show Declarator.boundAll [] = [] from rfl, List.subset_nil.1 (VarKind.guarded_subset word [])]
    exact .calm (p := pure ())
  | .mk n target (some value) :: ds => by
    have hvalue : Blames kind (fun x dead => value.Early x dead) [] (lowerExpr .value value) :=
      blames_lowerExpr .value value
    have hpattern : Blames kind (fun x dead => target.Early x dead) (target.bound.map (·.name))
        (lowerPattern .declaration target) := blames_lowerPattern .declaration target
    have hrest : Blames kind (fun x dead => Declarator.EarlyAll x word dead ds)
        (word.guarded (Declarator.boundAll ds)) (lowerDeclarators word origin ds) :=
      blames_lowerDeclarators word origin ds
    rw [show Declarator.boundAll (.mk n target (some value) :: ds) = target.bound ++ Declarator.boundAll ds from rfl,
      VarKind.guarded_append]
    cases target
    case name ident =>
      exact (hvalue.imp fun _ _ h => .inr (.inl h)).bind fun place =>
        (((blames_bindVariable ident.name word place origin).settles (VarKind.guarded_subset _ _)).andThen
          fun _ => hrest).imp fun _ _ h => h.elim id fun h => .inr (.inr h)
    all_goals
      exact (hvalue.imp fun _ _ h => .inr (.inl h)).bind fun place =>
        ((hpattern.settles (VarKind.guarded_subset _ _)).andThen
          fun _ => Blames.calm.bind fun _ => hrest).imp fun _ _ h => h.imp_right .inr
  | .mk n target none :: ds => by
    have hrest : Blames kind (fun x dead => Declarator.EarlyAll x word dead ds)
        (word.guarded (Declarator.boundAll ds)) (lowerDeclarators word origin ds) :=
      blames_lowerDeclarators word origin ds
    rw [show Declarator.boundAll (.mk n target none :: ds) = target.bound ++ Declarator.boundAll ds from rfl,
      VarKind.guarded_append]
    cases target
    case name ident =>
      unfold lowerDeclarators
      dsimp only
      split
      · exact Blames.calm.bind fun place =>
          (((blames_bindVariable ident.name word place origin).settles (VarKind.guarded_subset _ _)).andThen
            fun _ => hrest).imp fun _ _ h => h.elim id fun h => .inr (.inr h)
      · next hword =>
        obtain rfl : word = .varKind := by simpa using hword
        exact fun s hs hkind => (hrest s hs hkind).imp (fun _ _ => id) fun x hx dead hdead =>
          .inr (.inr (hx _ fun hx => ⟨hdead hx, List.not_mem_nil⟩))
    all_goals exact ((blames_refuse _).andThen fun _ => hrest).imp fun _ _ h => h.elim id fun h => .inr (.inr h)

theorem blames_lowerHead {kind : ScopeKind} : (head : Option ForHead) →
    Blames kind (fun x dead => ForHead.EarlyOpt x dead head) (ForHead.scoped head) (lowerHead head)
  | none => .calm (p := pure ())
  | some (.declaration word declarators) => by
    intro s hs hkind
    have hguarded : LexicalBinding.guarded (Stmt.declaration Node.synthetic word declarators).lexical =
        word.guarded (Declarator.boundAll declarators) := Stmt.guarded_declaration Node.synthetic word declarators
    refine ((ends_declareLexical _ hs hkind).imp (fun _ _ => id) nofun).bind fun functions s' ⟨hgrows, hdead⟩ => ?_
    refine (blames_lowerDeclarators word none declarators s' hgrows.named (hgrows.kind.trans hkind)).imp
      (fun _ s'' ⟨hgrows', hdead'⟩ => ⟨hgrows.trans hgrows', fun x hx => ?_⟩) fun x hx dead hbefore => ?_
    · obtain ⟨hx, hnot⟩ := hdead' x hx
      exact ⟨((hdead x hx).resolve_left (hguarded ▸ hnot)).1, hnot⟩
    · refine hx _ fun hx => (hdead x hx).symm.imp (fun hx => hbefore hx.1) fun hx => ?_
      exact hguarded ▸ hx
  | some (.expression value) => (blames_lowerExpr .effect value).bind fun _ => .calm

theorem blames_lowerTest {kind : ScopeKind} : (test : Option Expr) →
    Blames kind (fun x dead => Expr.EarlyOpt x dead test) [] (lowerTest test)
  | none => .calm (p := emit _ _)
  | some e => blames_lowerExpr .value e

theorem blames_lowerUpdate {kind : ScopeKind} : (update : Option Expr) →
    Blames kind (fun x dead => Expr.EarlyOpt x dead update) [] (lowerUpdate update)
  | none => .calm (p := pure ())
  | some e => (blames_lowerExpr .effect e).bind fun _ => .calm

theorem blames_lowerResult {kind : ScopeKind} : (value : Option Expr) →
    Blames kind (fun x dead => Expr.EarlyOpt x dead value) [] (lowerResult value)
  | none => .calm (p := pure none)
  | some e => (blames_lowerExpr .value e).bind fun _ => .calm

theorem blames_lowerElse (base : Path) (block join : BlockId) {kind : ScopeKind} : (alternate : Option Stmt) →
    Blames kind (fun x dead => Stmt.EarlyOpt x dead alternate) [] (lowerElse base block join alternate)
  | none => .calm (p := pure base)
  | some s =>
    Blames.calm.bind fun _ => Blames.calm.bind fun _ =>
      ((blames_lowerStmt true s).settles (List.nil_subset _)).bind fun _ => .calm

theorem blames_lowerStmt (isArm : Bool) {kind : ScopeKind} : (s : Stmt) →
    Blames kind (fun x dead => s.Early x dead) s.guarded (lowerStmt isArm s)
  | .declaration n word declarators => by
    rw [Stmt.guarded_declaration]
    exact blames_lowerDeclarators word n.id declarators
  | .function _ f => by
    rw [Stmt.guarded_function]
    exact .calm (p := pure ())
  | .classDeclaration n cls => by
    rw [Stmt.guarded_classDeclaration, lowerStmt]
    cases cls.name with
    | some ident =>
      simpa only [map_eq_pure_bind, bind_assoc, pure_bind, Option.toList_some, List.map_cons, List.map_nil] using
        blames_keepClass ident.name (.classDeclaration n cls)
    | none => exact .calm (p := keepStmt (.classDeclaration n cls) none)
  | .return _ value => (blames_lowerResult value).bind fun _ => .calm
  | .ifElse n test consequent alternate => by
    have hrest (t : Place) (c join a : BlockId) :
        Blames kind (fun x dead => (Stmt.ifElse n test consequent alternate).Early x dead) [] (do
          endBlock (.branch t c a join) c
          let base := (← getFrame).path
          lowerStmt true consequent
          let first := (← getFrame).path
          let second ← lowerElse base a join alternate
          endBlock (.jump join) join
          resume ⟨mergeVersions base.versions [first, second], first.isReachable || second.isReachable⟩) :=
      Blames.calm.bind fun _ => Blames.calm.bind fun base =>
        (((blames_lowerStmt true consequent).settles (List.nil_subset _)).imp fun _ _ h => .inr (.inl h)).bind fun _ =>
        Blames.calm.bind fun first =>
        ((blames_lowerElse base.path a join alternate).imp fun _ _ h => .inr (.inr h)).bind fun second => .calm
    rw [lowerStmt]
    refine ((blames_lowerExpr .value test).imp fun _ _ => .inl).bind fun t =>
      Blames.calm.bind fun c => Blames.calm.bind fun join => ?_
    dsimp only
    split
    · exact Blames.calm.bind fun a => hrest t c join a
    · exact Blames.calm.bind fun a => hrest t c join a
  | .while _ test body =>
    blames_loopOver ((blames_lowerExpr .value test).imp fun _ _ => .inl)
      (((blames_lowerStmt true body).imp fun _ _ => .inr).settles (List.nil_subset _))
  | .for _ head test update body => by
    have hbody : Blames .block (fun x dead => body.Early x dead) [] (lowerStmt true body) :=
      (blames_lowerStmt true body).settles (List.nil_subset _)
    have hloop : Blames .block
        (fun x dead => Expr.EarlyOpt x dead test ∨ body.Early x dead ∨ Expr.EarlyOpt x dead update) []
        (loopOver (lowerTest test) do
          lowerStmt true body
          lowerUpdate update) :=
      blames_loopOver ((blames_lowerTest test).imp fun _ _ => .inl)
        ((hbody.imp fun _ _ h => .inr (.inl h)).bind fun _ =>
          (blames_lowerUpdate update).imp fun _ _ h => .inr (.inr h))
    have hhead := (blames_lowerHead head).andThen fun _ => hloop
    exact BlamesWithin.inScope (Blames.within (Blames.calm.bind fun _ => Blames.calm.bind fun _ => hhead))
  | .block n statements => by
    have hscope : Blames kind (fun x dead => (Stmt.block n statements).Early x dead) [] (inScope .block do
        let functions ← declareLexical (statements.flatMap Stmt.lexical)
        lowerHoisted functions statements
        lowerAll statements) :=
      BlamesWithin.inScope (.declaring fun functions =>
        ((blames_lowerHoisted functions statements).imp fun _ dead h => h dead).within_bind fun _ =>
          (blames_lowerAll statements).within)
    cases isArm with
    | true => exact hscope
    | false => exact Blames.calm.bind fun _ => Blames.calm.bind fun _ => hscope
  | .break _ none => .calm (p := leaveLoop)
  | .break _ (some _) => .calm (p := refuse "labeled break statement")
  | .continue _ _ => .calm (p := refuse "continue statement")
  | .expression _ value => (blames_lowerExpr .effect value).bind fun _ => .calm
  | .importFrom n specifiers _ => .calm (p := importAll n.id specifiers >>= fun _ => emit _ _ >>= fun _ => pure ())
  | .exportNames n specifiers source => blames_exportNames isArm n specifiers source
  | .exportDeclaration n inner => by
    have hpublished : Blames kind
        (fun x dead => inner.Early x dead ∨ (dead ∧ x ∉ inner.guarded) ∧ x ∈ publishedNames inner)
        (inner.guarded ++ []) (lowerStmt isArm (.exportDeclaration n inner)) :=
      (blames_lowerStmt false inner).andThen fun _ => blames_publishing inner n.id
    rw [List.append_nil] at hpublished
    exact hpublished.imp fun _ _ h => h.imp_right fun h => ⟨h.1.1, h.1.2, h.2⟩
  | .exportDefault _ value => (blames_lowerExpr .value value).bind fun _ => .calm
  | .empty _ => .calm (p := pure ())
  | .doWhile n body test => .calm (p := keepStmt (.doWhile n body test) none)
  | .forEach n head isOf subject body => .calm (p := keepStmt (.forEach n head isOf subject body) none)
  | .throw n value => .calm (p := keepStmt (.throw n value) none)

theorem blames_lowerAll {kind : ScopeKind} : (ss : List Stmt) →
    Blames kind (fun x dead => Stmt.EarlyAll x dead ss) [] (lowerAll ss)
  | [] => .calm (p := pure ())
  | s :: ss => ((blames_lowerStmt false s).andThen fun _ => blames_lowerAll ss).settles (List.nil_subset _)

end

end Whittle.Lowering

namespace Whittle.Syntax.Module

open Ir Lowering

/-- A variable that lowering finds used before its declaration is used in its dead zone: somewhere in the module, in
the function and the scope that declare it with `let`, `const` or as a class, and before the declarator or the class
ends, it is read, assigned or exported. -/
theorem early_of_lower {path : String} {m : Syntax.Module} {env : Environment} {x : String}
    (h : m.lower path env = .error (.useBeforeDeclaration x)) : m.Early x := by
  let start : State :=
    { env := env.newFunc.2.newBlock.2, scopes := [], outer := [], functions := ∅, exports := ∅
      frame := Frame.start (Function.start env.newFunc.1 none none .module none env.newFunc.2.newBlock.1)
      globals := importsOf m.body }
  have hrun : m.lower path env = inScope .function (lowerBody (.block m.body)) start >>= fun out => pure (_, _) := rfl
  rw [hrun] at h
  have hstart : start.Named :=
    ⟨fun _ hscope => absurd hscope List.not_mem_nil, fun _ hd => absurd hd Bool.false_ne_true⟩
  have hends := (blamesWithin_lowerBody (.block m.body)).ends_inScope hstart
  rw [Ends] at hends
  cases hscope : inScope .function (lowerBody (.block m.body)) start with
  | ok out =>
    rw [hscope] at h
    cases h
  | error e =>
    rw [hscope] at h hends
    refine hends x (Except.error.inj h) False fun hdead => ?_
    obtain ⟨d, hfind, -⟩ := hdead
    cases hfind

/-- `function f() { { log(x); } let x = 1; }` -/
def logging : Syntax.Module :=
  let name (text : String) : Expr := .name .synthetic (.synthetic text)
  ⟨⟨0, 0⟩,
    [.function .synthetic (.mk .synthetic (some (.synthetic "f")) []
      (.block [.block .synthetic [.expression .synthetic (.call .synthetic (name "log") [.one (name "x")])],
        .declaration .synthetic .letKind [.mk .synthetic (.name .synthetic (.synthetic "x"))
          (some (.literal .synthetic (.number Number.one)))]]) false)]⟩

theorem early_of_lower_logging :
    logging.lower "m" {} = .error (.useBeforeDeclaration "x") ∧ logging.Early "x" := by
  have herror : (match logging.lower "m" {} with
      | .error e => decide (e = .useBeforeDeclaration "x")
      | .ok _ => false) = true := by
    decide +kernel
  split at herror
  · next heq =>
    rw [of_decide_eq_true herror] at heq
    exact ⟨heq, early_of_lower heq⟩
  · cases herror

end Whittle.Syntax.Module
