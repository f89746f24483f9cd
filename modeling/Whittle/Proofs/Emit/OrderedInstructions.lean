import Mathlib.Tactic.Common
import Whittle.Proofs.Emit.Operands

/-!
# Instructions in order

Each instruction reads its operands in turn and then continues the trail with what they do and what it
does itself (`Watch.feeds_emitInstr`).  Where the operands that wait with effects are the last that came,
the trail goes on by the effects of the instruction alone (`Watch.emitInstrs_run`).
-/

namespace Whittle.Emit.Watch

open Ir Syntax Ledger

variable {ctx : Context} {W : Watch ctx} {st st' : State} {c : CellId} {waits : Bool}
  {spent gain : List Effect}

/-! ## Patterns -/

theorem quiet_array {elements : List (Option Pattern)} (h : W.of (Pattern.effectsHoles elements) = []) :
    W.Quiet (.array Node.synthetic elements) where
  alone := h
  assigned value := by simp [trace, assignExpr, Expr.effects, Pattern.effects, h]

theorem quiet_object {properties : List Syntax.PatternProperty}
    (h : W.of (PatternProperty.effectsAll properties) = []) :
    W.Quiet (.object Node.synthetic properties) where
  alone := h
  assigned value := by simp [trace, assignExpr, Expr.effects, Pattern.effects, h]

theorem quiet_rest {r : Pattern} (h : W.Quiet r) : W.Quiet (.rest Node.synthetic r) where
  alone := h.alone
  assigned value := by simp [trace, assignExpr, Expr.effects, Pattern.effects, h.alone]

namespace Looks

theorem takePattern (p : Place) : W.Looks (takePattern p) fun r => W.Quiet r.1 := by
  intro st r st' hst hrun
  obtain ⟨st₁, st₂, hget, hrun⟩ := step_bind_eq_ok hrun
  cases hget
  cases hfound : st.patterns.get? p.cell.id with
  | none =>
    rw [hfound] at hrun
    cases hrun
  | some r =>
    rw [hfound] at hrun
    cases hrun
    refine ⟨{ hst with patterns := fun c r' h => hst.patterns c r' ?_ }, rfl, rfl, rfl,
      hst.patterns _ _ hfound⟩
    rw [Std.TreeMap.getElem?_erase] at h
    split at h
    · cases h
    · exact h

theorem waitPattern (place : Place) {pattern : Pattern} (bound : List DeclId) (h : W.Quiet pattern) :
    W.Looks (waitPattern place pattern bound) Anything :=
  Looks.modify
    (fun st hst => { hst with
      patterns := fun c r hr => by
        rw [Std.TreeMap.getElem?_insert] at hr
        split at hr
        · cases hr
          exact h
        · exact hst.patterns c r hr })
    fun _ => ⟨rfl, rfl, rfl⟩

theorem takeHoles (ps : List (Option Place)) :
    W.Looks (takeHoles ps) fun r => W.of (Pattern.effectsHoles r.1) = [] := by
  induction ps with
  | nil => exact Looks.pure rfl
  | cons hole ps ih =>
    cases hole with
    | none => exact ih.bind fun r hr => Looks.pure hr
    | some p =>
      refine (Looks.takePattern p).bind fun pattern hpattern => ih.bind fun r hr => Looks.pure ?_
      rw [Pattern.effectsHoles, of_append, hpattern.alone, hr, List.append_nil]

/-- A key that is not computed. -/
theorem takeKey {key : Key} (h : key.reads.isEmpty = true) :
    W.Looks (takeKey key) fun r => W.of r.1.effects = [] := by
  cases key with
  | computed p => cases h
  | name | string | number => exact Looks.pure rfl

theorem takePatternProperties {ps : List Ir.PatternProperty}
    (h : ∀ p ∈ ps, (match p with | .keyValue key _ => key.reads.isEmpty | .rest _ => true) = true) :
    W.Looks (takePatternProperties ps) fun r => W.of (PatternProperty.effectsAll r.1) = [] := by
  induction ps with
  | nil => exact Looks.pure rfl
  | cons property ps ih =>
    obtain ⟨hproperty, hps⟩ := List.forall_mem_cons.1 h
    cases property with
    | keyValue key value =>
      refine (Looks.takeKey hproperty).bind fun key hkey => (Looks.takePattern value).bind
        fun pattern hpattern => (ih hps).bind fun r hr => Looks.pure ?_
      rw [PatternProperty.effectsAll, of_append, of_append, hkey, hpattern.alone, hr]
      rfl
    | rest p =>
      refine (Looks.takePattern p).bind fun pattern hpattern => (ih hps).bind fun r hr => Looks.pure ?_
      rw [PatternProperty.effectsAll, of_append, hpattern.alone, hr]
      rfl

theorem takeImports (ps : List Place) : W.Looks (takeImports ps) Anything := by
  induction ps with
  | nil => exact Looks.pure trivial
  | cons p ps ih =>
    refine Looks.get.bind fun st _ => ?_
    split
    · exact Looks.throw _
    · refine Looks.bind (Looks.modify (fun _ h => { h with }) fun _ => ⟨rfl, rfl, rfl⟩) fun _ _ => ?_
      exact ih.bind fun _ _ => Looks.pure trivial

theorem takeExports (ps : List Place) : W.Looks (takeExports ps) Anything := by
  induction ps with
  | nil => exact Looks.pure trivial
  | cons p ps ih =>
    refine Looks.get.bind fun st _ => ?_
    split
    · exact Looks.throw _
    · refine Looks.bind (Looks.modify (fun _ h => { h with }) fun _ => ⟨rfl, rfl, rfl⟩) fun _ _ => ?_
      exact ih.bind fun _ _ => Looks.pure trivial

theorem renamings (bindings : List (String × Place)) :
    W.Looks (renamings bindings) fun pairs =>
      pairs = bindings.map fun b => (b.1, (W.written b.2.declaration).getD "") := by
  induction bindings with
  | nil => exact Looks.pure rfl
  | cons b bindings ih =>
    refine (Looks.nameOf b.2.declaration).bind fun name hname => ih.bind fun pairs hpairs => ?_
    refine Looks.pure ?_
    rw [List.map_cons, hname, hpairs]
    rfl

end Looks

theorem looks_markAll (ds : List DeclId) (word : VarKind) :
    W.Looks (forIn ds PUnit.unit fun d _ => do
      markDeclared d word
      pure (ForInStep.yield PUnit.unit)) Anything := by
  induction ds with
  | nil => exact Looks.pure trivial
  | cons d ds ih =>
    rw [List.forIn_cons]
    simp only [bind_assoc, pure_bind]
    exact (Looks.markDeclared d word).bind fun _ _ => ih

theorem looks_pure {α : Type} (a : α) : W.Looks (pure a : Step α) (· = a) := Looks.pure rfl

/-! ## Writes -/

theorem feeds_emitStore {place : Place} (target value : Place) (kind : StoreKind) :
    W.Feeds place.cell.id (readOnce ctx.counts place.cell.id) (emitStore place target value kind)
      [value.cell.id] [] [] := by
  refine Feeds.take fun stored hstored => Feeds.look (Looks.nameOf target.declaration) fun name hname => ?_
  have hassign := (quiet_namePattern hname).assigned stored.expr
  split
  case isTrue hself =>
    refine Feeds.look (Looks.readName _) fun p hp => .of_adds (adds_define ?_) ?_
    · exact ⟨hp.2.silent, hp.2.repeatable, fun _ => hp.1, hp.2.store⟩
    · simp [hp.1, trace_of_isName hself]
  case isFalse =>
    have hdefine : W.Adds place.cell.id (readOnce ctx.counts place.cell.id)
        (define place
          { expr := assignExpr (namePattern name) stored.expr
            names := KeySet.add stored.names target.declaration
            hasEffects := true
            store := some ⟨target.declaration, kind, stored.expr, stored.hasEffects⟩ })
        (W.trace stored.expr) Anything :=
      (adds_define (honest_store hassign _)).gain_eq hassign
    refine Feeds.look (Looks.readCount place) fun count _ => ?_
    split
    · exact .of_adds ((adds_ensureDeclared _).seq fun _ _ => hdefine) (by simp)
    · exact .of_adds hdefine (by simp)

theorem feeds_emitDestructure {place : Place} (pattern value : Place) (kind : StoreKind) :
    W.Feeds place.cell.id (readOnce ctx.counts place.cell.id) (emitDestructure place pattern value kind)
      [value.cell.id] [] [] := by
  refine Feeds.take fun v hv => Feeds.look (Looks.takePattern pattern) fun target htarget =>
    Feeds.look Looks.read fun ctx' _ => Feeds.look Looks.get fun st _ => ?_
  have hassign : W.Adds place.cell.id (readOnce ctx.counts place.cell.id)
      (emitDestructure.assign place v target.1 target.2) (W.trace v.expr) Anything := by
    refine (adds_ensureAll _).seq fun _ _ => (adds_define ?_).gain_eq (htarget.assigned v.expr)
    exact .of_silent rfl rfl rfl nofun
  split
  · refine Feeds.look (Looks.readCount place) fun count _ => ?_
    split
    · refine Feeds.look (looks_markAll _ _) fun _ _ => .of_adds (adds_statement _ _) ?_
      rw [of_declareStmt _ htarget, Expr.effectsOpt]
      simp [trace]
    · exact .of_adds hassign (by simp)
  · exact .of_adds hassign (by simp)

/-- Code that is kept as it was written has its own effects, under the names that it is given. -/
theorem feeds_kept {place : Place} (source : Verbatim) (names : KeySet DeclId) (r : String → String) :
    W.Feeds place.cell.id (readOnce ctx.counts place.cell.id)
      (match source with
      | .statement s => statement (s.rename r) .anything
      | .expression e => define place { expr := e.rename r, names, hasEffects := true })
      [] [] (W.of (keptEffects r source)) := by
  cases source with
  | statement s => exact .of_adds (adds_statement _ _) rfl
  | expression e => exact .of_adds (adds_define (.of_silent rfl rfl rfl nofun)) rfl

theorem feeds_emitVerbatim {place : Place} (source : Verbatim) (bindings : List (String × Place)) :
    W.Feeds place.cell.id (readOnce ctx.counts place.cell.id) (emitVerbatim place source bindings) [] []
      (W.of (keptEffects (keptRenaming W.written ctx.env place bindings) source)) := by
  refine Feeds.look Looks.read fun ctx' hctx => ?_
  subst hctx
  refine Feeds.look (Looks.renamings bindings) fun pairs hpairs => ?_
  subst hpairs
  have hdeclare : W.Looks (modify fun st =>
      { st with declared := KeySet.add st.declared place.declaration } : Step Unit) Anything :=
    Looks.modify (fun _ h => { h with }) fun _ => ⟨rfl, rfl, rfl⟩
  dsimp only
  split
  case isTrue htemporary =>
    refine Feeds.look (looks_pure _) fun own hown => (feeds_kept source _ _).gain_eq ?_
    simp only [keptRenaming, hown, htemporary, if_true]
  case isFalse htemporary =>
    split
    case h_1 name hname =>
      refine Feeds.look (Looks.nameOf _) fun written hwritten => Feeds.look (looks_pure _) fun own hown =>
        Feeds.look hdeclare fun _ _ => Feeds.look (looks_pure _) fun own' hown' =>
          (feeds_kept source _ _).gain_eq ?_
      simp only [keptRenaming, hown', hown, htemporary, hname, hwritten]
      rfl
    case h_2 hname =>
      refine Feeds.look (looks_pure _) fun own hown => Feeds.look hdeclare fun _ _ =>
        Feeds.look (looks_pure _) fun own' hown' => (feeds_kept source _ _).gain_eq ?_
      simp only [keptRenaming, hown', hown, htemporary, hname]
      rfl

/-! ## Instructions -/

theorem effects_valueExpr (value : Value) : (valueExpr value).effects = [] := by
  cases value with
  | number n =>
    rw [valueExpr]
    split
    · rfl
    · rfl
  | _ => rfl

/-- An instruction reads its operands in turn and then continues the trail with what they do and what it
does itself. -/
theorem feeds_emitInstr {i : Instr} {operands : List Place} (h : i.op.operands? = some operands) :
    W.Feeds i.place.cell.id (readOnce ctx.counts i.place.cell.id) (emitInstr i)
      (operands.map (·.cell.id)) [] (W.of (effectsOf W.written ctx.env i)) := by
  obtain ⟨id, place, origin, op⟩ := i
  cases op with
  | spread | defaultPattern => cases h
  | loadLocal source =>
    cases h
    exact Feeds.take fun p hp => .of_adds (adds_define hp) (by simp [effectsOf, instrEffects])
  | storeLocal target value kind => cases h; exact feeds_emitStore target value kind
  | copy target value => cases h; exact feeds_emitStore target value .reassign
  | loadGlobal name =>
    cases h
    exact .of_adds (adds_define (.of_silent rfl rfl rfl fun _ => rfl)) rfl
  | storeGlobal name value =>
    cases h
    refine Feeds.take fun v _ => .of_adds (adds_define (honest_effectful _ _)) ?_
    simp [trace, effectful, Pending.reading, assignExpr, namePattern, Expr.effects, effectsOf, instrEffects,
      Ident.synthetic]
  | propertyLoad base property =>
    cases h
    refine Feeds.take fun b _ => .of_adds (adds_define (honest_effectful _ _)) ?_
    simp [trace, effectful, Pending.reading, Expr.effects, effectsOf, instrEffects]
  | propertyStore base property value =>
    cases h
    refine Feeds.take fun b _ => Feeds.take fun v _ => .of_adds (adds_define (honest_effectful _ _)) ?_
    simp [trace, effectful, Pending.reading, assignExpr, memberPattern, Expr.effects, effectsOf,
      instrEffects]
  | computedLoad base property =>
    cases h
    refine Feeds.take fun b _ => Feeds.take fun p _ => .of_adds (adds_define (honest_effectful _ _)) ?_
    simp [trace, effectful, Pending.reading, Expr.effects, effectsOf, instrEffects]
  | computedStore base property value =>
    cases h
    refine Feeds.take fun b _ => Feeds.take fun p _ => Feeds.take fun v _ =>
      .of_adds (adds_define (honest_effectful _ _)) ?_
    simp [trace, effectful, Pending.reading, assignExpr, memberPattern, Expr.effects, effectsOf,
      instrEffects]
  | literal value =>
    cases h
    have hnone : W.trace (valueExpr value) = [] := by rw [trace, effects_valueExpr, of_nil]
    exact .of_adds (adds_define (.of_trace_eq_nil hnone rfl)) hnone
  | binary op left right =>
    cases h
    refine Feeds.take fun l hl => Feeds.take fun r hr => .of_adds (adds_define ?_) ?_
    · have hoperands : W.Honest (pureValue (.binary .synthetic op l.expr r.expr) [l, r]) :=
        honest_pureValue (by simpa [trace, Expr.effects] using (Covers.nil.cons hr).cons hl)
      exact .of_silent rfl rfl rfl fun h => hoperands.silent (Bool.or_eq_false_iff.1 h).1
    · simp [trace, pureValue, Pending.reading, Expr.effects, effectsOf, instrEffects]
  | unary op argument =>
    cases h
    refine Feeds.take fun a ha => .of_adds (adds_define ?_) ?_
    · have hoperands : W.Honest (pureValue (.unary .synthetic op a.expr) [a]) :=
        honest_pureValue (by simpa [trace, Expr.effects] using Covers.nil.cons ha)
      exact .of_silent rfl rfl rfl fun h => hoperands.silent (Bool.or_eq_false_iff.1 h).1
    · simp [trace, pureValue, Pending.reading, Expr.effects, effectsOf, instrEffects]
  | logical op left right =>
    cases h
    refine Feeds.take fun l hl => Feeds.take fun r hr => .of_adds (adds_define (honest_pureValue ?_)) ?_
    · simpa [trace, Expr.effects] using (Covers.nil.cons hr).cons hl
    · simp [trace, pureValue, Pending.reading, Expr.effects, effectsOf, instrEffects]
  | conditional test consequent alternate =>
    cases h
    refine Feeds.take fun t ht => Feeds.take fun c hc => Feeds.take fun a ha =>
      .of_adds (adds_define (honest_pureValue ?_)) ?_
    · simpa [trace, Expr.effects] using ((Covers.nil.cons ha).cons hc).cons ht
    · simp [trace, pureValue, Pending.reading, Expr.effects, effectsOf, instrEffects]
  | call callee arguments | construct callee arguments =>
    cases h
    rw [Op.reads, List.map_cons, ← List.append_nil (arguments.map _)]
    refine Feeds.take fun c _ => Feeds.elements fun r _ => .of_adds (adds_define (honest_effectful _ _)) ?_
    simp [trace, effectful, Pending.reading, Expr.effects, effectsOf, instrEffects]
  | array elements =>
    cases h
    rw [Op.reads, ← List.append_nil (elements.map _)]
    refine Feeds.elements fun r hr => .of_adds (adds_define (honest_pureValue hr)) ?_
    simp [trace, pureValue, Pending.reading, Expr.effects, effectsOf, instrEffects]
  | object properties =>
    cases h
    rw [Op.reads, ← List.append_nil (List.map _ _)]
    refine Feeds.properties fun r hr => .of_adds (adds_define (honest_pureValue hr)) ?_
    simp [trace, pureValue, Pending.reading, Expr.effects, effectsOf, instrEffects]
  | functionExpression id =>
    cases h
    refine Feeds.look (Looks.nestedFunction id) fun f _ => .of_adds (adds_define ?_) rfl
    exact .of_silent rfl rfl rfl fun _ => rfl
  | binding name =>
    cases h
    exact Feeds.look (Looks.nameOf _) fun name hname =>
      .of_adds (Looks.waitPattern _ _ (quiet_namePattern hname)).adds rfl
  | arrayPattern elements =>
    cases h
    exact Feeds.look (Looks.takeHoles elements) fun r hr =>
      .of_adds (Looks.waitPattern _ _ (quiet_array hr)).adds rfl
  | objectPattern properties =>
    rw [Op.operands?] at h
    split at h
    case isFalse => cases h
    case isTrue hplain =>
      cases h
      exact Feeds.look (Looks.takePatternProperties (List.all_eq_true.1 hplain)) fun r hr =>
        .of_adds (Looks.waitPattern _ _ (quiet_object hr)).adds rfl
  | rest argument =>
    cases h
    exact Feeds.look (Looks.takePattern argument) fun r hr =>
      .of_adds (Looks.waitPattern _ _ (quiet_rest hr)).adds rfl
  | destructure pattern value kind => cases h; exact feeds_emitDestructure pattern value kind
  | functionDeclaration id =>
    cases h
    exact Feeds.look (Looks.nestedFunction id) fun f _ => Feeds.look (Looks.nameOf _) fun name _ =>
      Feeds.look (Looks.modify (fun _ h => { h with }) fun _ => ⟨rfl, rfl, rfl⟩) fun _ _ =>
        .of_adds (adds_statement _ _) rfl
  | importDeclaration source specifiers =>
    cases h
    exact Feeds.look (Looks.takeImports specifiers) fun _ _ => .of_adds (adds_statement _ _) rfl
  | importSpecifier kind bound =>
    cases h
    refine .of_adds (Looks.adds ?_) rfl
    exact Looks.modify (fun _ h => { h with }) fun _ => ⟨rfl, rfl, rfl⟩
  | exportSpecifier bound exported =>
    cases h
    refine Feeds.look (Looks.nameOf _) fun name _ => .of_adds (Looks.adds ?_) rfl
    exact Looks.modify (fun _ h => { h with }) fun _ => ⟨rfl, rfl, rfl⟩
  | exportNames specifiers =>
    cases h
    exact Feeds.look (Looks.takeExports specifiers) fun _ _ => .of_adds (adds_statement _ _) rfl
  | exportDefault value =>
    cases h
    refine Feeds.take fun v _ => .of_adds (adds_statement _ _) ?_
    simp [trace, Stmt.effects, effectsOf, instrEffects]
  | expressionStatement expression =>
    cases h
    exact Feeds.take fun v hv => .of_adds (adds_valueStmt hv) (by simp [effectsOf, instrEffects])
  | unsupported source bindings =>
    cases h
    exact feeds_emitVerbatim source bindings

/-! ## Instructions of a block -/

/-- What waits with effects is on the stack, in the order of the stack. -/
structure Stacked (W : Watch ctx) (stack : List CellId) (st : State) : Prop where
  sound : W.Sound st
  nodup : stack.Nodup
  load : (W.load st).cells.Sublist stack

/-- Only an operation with effects of its own has effects that are followed. -/
theorem isEffect_of_effects {i : Instr} (h : W.of (effectsOf W.written ctx.env i) ≠ []) :
    i.op.isEffect = true := by
  obtain ⟨id, place, origin, op⟩ := i
  cases op with
  | call | construct | propertyLoad | propertyStore | computedLoad | computedStore | storeGlobal
    | unsupported => rfl
  | _ => exact absurd rfl h

/-- An instruction that takes what waited last continues the trail by its own effects. -/
theorem Stacked.emitInstr {stack stack' : List CellId} {i : Instr} {u : Unit} (hst : W.Stacked stack st)
    (hi : i.stack? (readOnce ctx.counts) stack = some stack') (hrun : emitInstr i ctx st = .ok (u, st')) :
    W.Stacked stack' st' ∧ st'.emitted = st.emitted ∧
      W.trail st' = W.trail st ++ W.of (effectsOf W.written ctx.env i) := by
  obtain ⟨operands, hoperands, hi⟩ := Option.bind_eq_some_iff.1 hi
  obtain ⟨rest, htaken, hi⟩ := Option.bind_eq_some_iff.1 hi
  obtain ⟨honce, hrest, hload, heffects⟩ := Load.effects_of_taken? hst.nodup hst.load htaken
  split at hi
  case isTrue => cases hi
  case isFalse hfresh =>
    have hstack := taken?_eq_some htaken
    have hnew : i.place.cell.id ∉ stack := fun hmem => hfresh (List.contains_iff_mem.2 hmem)
    obtain ⟨st₁, htook, hafter⟩ := feeds_emitInstr hoperands st u st' hst.sound honce
      (fun hmem => hnew (hst.load.subset hmem)) hrun
    rw [List.nil_append] at hafter
    have hfirst : (W.load st₁).cells.Sublist rest := htook.load ▸ hload
    have htrail : W.trail st' = W.trail st ++ W.of (effectsOf W.written ctx.env i) := by
      rw [hafter.trail, trail, htook.written, htook.load, trail, heffects]
      simp only [List.append_assoc]
    split at hi
    case isTrue =>
      cases hi
      refine ⟨⟨hafter.sound, ?_, hafter.load.trans (hfirst.append ?_)⟩,
        hafter.emitted.trans htook.emitted, htrail⟩
      · have hbelow : i.place.cell.id ∉ rest := fun hmem =>
          hnew (hstack ▸ List.mem_append_left _ hmem)
        exact List.nodup_append.2 ⟨hrest, List.nodup_singleton _, fun c hc c' hc' heq =>
          hbelow (List.mem_singleton.1 hc' ▸ heq ▸ hc)⟩
      · split
        · exact List.Sublist.refl _
        · exact List.nil_sublist _
    case isFalse hwaits =>
      cases hi
      refine ⟨⟨hafter.sound, hrest, hafter.load.trans ?_⟩, hafter.emitted.trans htook.emitted, htrail⟩
      rw [if_neg, List.append_nil]
      · exact hfirst
      · rintro ⟨honce, hne⟩
        refine hwaits (Bool.and_eq_true_iff.2 ⟨honce, Bool.or_eq_true_iff.2 ?_⟩)
        by_cases hown : W.of (effectsOf W.written ctx.env i) = []
        · rw [hown, List.append_nil] at hne
          obtain ⟨effect, heffect⟩ := List.exists_mem_of_ne_nil _ hne
          obtain ⟨c, hc, hdue⟩ := List.mem_flatMap.1 heffect
          refine .inr (List.any_eq_true.2 ⟨c, hc, List.contains_iff_mem.2 (hst.load.subset ?_)⟩)
          by_contra hnone
          rw [Load.due_of_notMem hnone] at hdue
          cases hdue
        · exact .inl (isEffect_of_effects hown)

/-- Instructions that take what waited last continue the trail in their order. -/
theorem Stacked.emitInstrs {is : List Instr} {stack stack' : List CellId} {u : Unit}
    (hst : W.Stacked stack st) (his : is.foldlM (Instr.stack? (readOnce ctx.counts)) stack = some stack')
    (hrun : emitInstrs is ctx st = .ok (u, st')) :
    W.Stacked stack' st' ∧ st'.emitted = st.emitted ∧
      W.trail st' = W.trail st ++ W.of (is.flatMap (effectsOf W.written ctx.env)) := by
  induction is generalizing stack st with
  | nil =>
    cases his
    cases hrun
    exact ⟨hst, rfl, (List.append_nil _).symm⟩
  | cons i is ih =>
    rw [List.foldlM_cons] at his
    obtain ⟨stack₁, hfirst, hrest⟩ := Option.bind_eq_some_iff.1 his
    obtain ⟨u₁, st₁, hinstr, hrun⟩ := step_bind_eq_ok hrun
    obtain ⟨hst₁, hemitted₁, htrail₁⟩ := hst.emitInstr hfirst hinstr
    obtain ⟨hst', hemitted, htrail⟩ := ih hst₁ hrest hrun
    refine ⟨hst', hemitted.trans hemitted₁, ?_⟩
    rw [htrail, htrail₁, List.flatMap_cons, of_append, List.append_assoc]

/-- A value that is read at the end of a block comes behind all that waits. -/
theorem Stacked.takeLast {place : Place} {stack rest : List CellId} {p : Pending} {st₁ : State} {u : Unit}
    (hst : W.Stacked stack st) (htaken : taken? stack [place.cell.id] = some rest)
    (htake : take place ctx st = .ok (p, st₁)) (hsettle : settleEverything ctx st₁ = .ok (u, st')) :
    W.Sound st' ∧ W.load st' = [] ∧ st'.emitted = st.emitted ∧
      W.written? st' ++ W.trace p.expr = W.trail st := by
  obtain ⟨-, -, -, heffects⟩ := Load.effects_of_taken? hst.nodup hst.load htaken
  obtain ⟨htook, -, hdue⟩ := took_take hst.sound htake
  obtain ⟨hst', hemitted, hload, hwritten⟩ := settle_run (fun _ _ => rfl) htook.sound hsettle
  refine ⟨hst', hload, hemitted.trans htook.emitted, ?_⟩
  rw [hwritten, trail, trail, htook.written, htook.load, hdue, heffects, List.append_assoc]
  simp

end Whittle.Emit.Watch
