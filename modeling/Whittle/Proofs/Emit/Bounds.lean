import Mathlib.Tactic.Common
import Whittle.Proofs.Emit.Ledger

/-!
# What the emission of instructions leaves alone

Emitting an instruction lets a value wait for its cell, writes statements down and changes no more about
values, statements and blocks.  What these changes keep, the emission of instructions keeps (`Bound`).
-/

namespace Whittle

namespace Syntax

/-- Whether control goes on behind a statement, whatever happens in it. -/
def Stmt.isPlain : Stmt → Bool
  | .declaration .. | .function .. | .classDeclaration .. | .expression .. | .importFrom ..
  | .exportNames .. | .exportDeclaration .. | .exportDefault .. | .empty .. => true
  | .return .. | .ifElse .. | .while .. | .doWhile .. | .for .. | .forEach .. | .block .. | .break ..
  | .continue .. | .throw .. => false

end Syntax

namespace Emit

open Ir Syntax Ledger

/-- What the state says about blocks and where they stand. -/
def State.control (st : State) : KeySet BlockId × KeySet BlockId × List LoopContext × Region :=
  (st.emitted, st.reserved, st.loops, st.region)

/-- A relation between a state and later ones that lasts as long as values wait for certain cells and
certain statements are written down. -/
structure Bound (ctx : Context) where
  related : State → State → Prop
  /-- Values may wait for these cells. -/
  cells : CellId → Prop
  /-- These statements may be written down. -/
  statements : Stmt → Prop
  refl : ∀ st, related st st
  trans : ∀ {st st' st''}, related st st' → related st' st'' → related st st''
  frame : ∀ {st st' : State}, st'.out = st.out → st'.values ⊆ st.values → st'.control = st.control →
    related st st'
  wait : ∀ {c}, cells c → ∀ st p, related st (st.wait c p)
  statement : ∀ {s}, statements s → ∀ {writes st u st'},
    Emit.statement s writes ctx st = .ok (u, st') → related st st'
  plain : ∀ {s}, s.isPlain = true → statements s

namespace Bound

variable {ctx : Context} {B : Bound ctx} {st st' : State} {α β : Type}

/-- A step keeps the relation. -/
def Keeps (B : Bound ctx) (act : Step α) : Prop :=
  ∀ st a st', act ctx st = .ok (a, st') → B.related st st'

namespace Keeps

variable {act : Step α} {next : α → Step β}

theorem bind (h : B.Keeps act) (h' : ∀ a, B.Keeps (next a)) : B.Keeps (act >>= next) := by
  intro st b st'' hrun
  obtain ⟨a, st', hact, hnext⟩ := step_bind_eq_ok hrun
  exact B.trans (h st a st' hact) (h' a st' b st'' hnext)

theorem pure (a : α) : B.Keeps (Pure.pure a : Step α) := by
  intro st a st' hrun
  cases hrun
  exact B.refl _

theorem throw (e : Error) : B.Keeps (throw e : Step α) := by
  intro st a st' hrun
  cases hrun

theorem get : B.Keeps (get : Step State) := by
  intro st a st' hrun
  cases hrun
  exact B.refl _

theorem read : B.Keeps (read : Step Context) := by
  intro st a st' hrun
  cases hrun
  exact B.refl _

/-- A change that is not about values, statements and blocks. -/
theorem modify {change : State → State} (hsame : ∀ st, (change st).out = st.out ∧
    (change st).values = st.values ∧ (change st).control = st.control) :
    B.Keeps (modify change : Step Unit) := by
  intro st a st' hrun
  cases hrun
  obtain ⟨hout, hvalues, hcontrol⟩ := hsame st
  exact B.frame hout (hvalues ▸ List.Subset.refl _) hcontrol

end Keeps

theorem keeps_freshName : B.Keeps freshName := by
  intro st name st' hrun
  obtain ⟨rfl, rfl⟩ := Prod.mk.inj (Except.ok.inj ((freshName_run st).symm.trans hrun))
  exact B.frame rfl (List.Subset.refl _) rfl

theorem keeps_nameOf (d : DeclId) : B.Keeps (nameOf d) := by
  intro st name st' hrun
  obtain ⟨rfl, -⟩ := nameOf_run hrun
  exact B.refl _

theorem keeps_readCount (place : Place) : B.Keeps (readCount place) := .bind .read fun _ => .pure _

theorem keeps_wait {c : CellId} (hc : B.cells c) (p : Pending) : B.Keeps (Emit.wait c p) := by
  intro st u st' hrun
  obtain ⟨rfl, rfl⟩ := Prod.mk.inj (Except.ok.inj ((wait_run c p st).symm.trans hrun))
  exact B.wait hc st p

theorem keeps_statement {s : Stmt} (hs : s.isPlain = true) (writes : Writes) :
    B.Keeps (Emit.statement s writes) :=
  fun _ _ _ hrun => B.statement (B.plain hs) hrun

/-! ## Taking -/

theorem keeps_dropValue (c' : CellId) : B.Keeps (dropValue c') := by
  intro st u st' hrun
  cases hrun
  exact B.frame rfl (List.filter_subset_self _) rfl

theorem keeps_readName (d : DeclId) : B.Keeps (readName d) :=
  .bind (keeps_nameOf d) fun _ => .pure _

theorem keeps_take (place : Place) : B.Keeps (take place) := by
  refine .bind .get fun st => ?_
  split
  · split
    · exact .bind (keeps_dropValue _) fun _ => .pure _
    · exact .pure _
  · refine .bind .read fun ctx' => ?_
    split
    · exact .throw _
    · exact keeps_readName _

theorem keeps_takePattern (place : Place) : B.Keeps (takePattern place) := by
  refine .bind .get fun st => ?_
  split
  · exact .bind (.modify fun _ => ⟨rfl, rfl, rfl⟩) fun _ => .pure _
  · exact .throw _

theorem keeps_waitPattern (place : Place) (pattern : Pattern) (bound : List DeclId) :
    B.Keeps (waitPattern place pattern bound) :=
  .modify fun _ => ⟨rfl, rfl, rfl⟩

theorem keeps_takeElements (ps : List Place) : B.Keeps (takeElements ps) := by
  induction ps with
  | nil => exact .pure _
  | cons place ps ih =>
    refine .bind .get fun st => ?_
    split
    · exact .bind (.modify fun _ => ⟨rfl, rfl, rfl⟩) fun _ => ih.bind fun _ => .pure _
    · exact .bind (keeps_take place) fun _ => ih.bind fun _ => .pure _

theorem keeps_takeKey (key : Key) : B.Keeps (takeKey key) := by
  cases key with
  | computed place => exact .bind (keeps_take place) fun _ => .pure _
  | _ => exact .pure _

theorem keeps_nestedFunction (id : FuncId) : B.Keeps (nestedFunction id) := by
  refine .bind .read fun ctx' => .bind .get fun st => .bind ?_ fun r => ?_
  · intro st₁ r st₂ hrun
    cases hnested : ctx'.nested id st.names with
    | error e =>
      rw [hnested] at hrun
      cases hrun
    | ok r =>
      rw [hnested] at hrun
      cases hrun
      exact B.refl _
  · exact .bind (.modify fun _ => ⟨rfl, rfl, rfl⟩) fun _ => .pure _

theorem keeps_takeProperties (ps : List Ir.Property) : B.Keeps (takeProperties ps) := by
  induction ps with
  | nil => exact .pure _
  | cons property ps ih =>
    cases property with
    | keyValue key value shorthand =>
      exact .bind (keeps_takeKey key) fun _ => .bind (keeps_take value) fun _ =>
        ih.bind fun _ => .pure _
    | method key id =>
      exact .bind (keeps_takeKey key) fun _ => .bind (keeps_nestedFunction id) fun _ =>
        ih.bind fun _ => .pure _
    | spread value => exact .bind (keeps_take value) fun _ => ih.bind fun _ => .pure _

theorem keeps_takeHoles (ps : List (Option Place)) : B.Keeps (takeHoles ps) := by
  induction ps with
  | nil => exact .pure _
  | cons hole ps ih =>
    cases hole with
    | none => exact ih.bind fun _ => .pure _
    | some place => exact .bind (keeps_takePattern place) fun _ => ih.bind fun _ => .pure _

theorem keeps_takePatternProperties (ps : List Ir.PatternProperty) :
    B.Keeps (takePatternProperties ps) := by
  induction ps with
  | nil => exact .pure _
  | cons property ps ih =>
    cases property with
    | keyValue key value =>
      exact .bind (keeps_takeKey key) fun _ => .bind (keeps_takePattern value) fun _ =>
        ih.bind fun _ => .pure _
    | rest place => exact .bind (keeps_takePattern place) fun _ => ih.bind fun _ => .pure _

theorem keeps_takeImports (ps : List Place) : B.Keeps (takeImports ps) := by
  induction ps with
  | nil => exact .pure _
  | cons place ps ih =>
    refine .bind .get fun st => ?_
    split
    · exact .throw _
    · exact .bind (.modify fun _ => ⟨rfl, rfl, rfl⟩) fun _ => ih.bind fun _ => .pure _

theorem keeps_takeExports (ps : List Place) : B.Keeps (takeExports ps) := by
  induction ps with
  | nil => exact .pure _
  | cons place ps ih =>
    refine .bind .get fun st => ?_
    split
    · exact .throw _
    · exact .bind (.modify fun _ => ⟨rfl, rfl, rfl⟩) fun _ => ih.bind fun _ => .pure _

theorem keeps_renamings (bindings : List (String × Place)) :
    B.Keeps (renamings bindings) := by
  induction bindings with
  | nil => exact .pure _
  | cons binding bindings ih => exact .bind (keeps_nameOf _) fun _ => ih.bind fun _ => .pure _

/-! ## Writing -/

theorem keeps_declaringWord (d : DeclId) (kind : StoreKind) :
    B.Keeps (declaringWord d kind) := by
  refine .bind .read fun ctx' => .bind .get fun st => ?_
  split
  · exact .pure _
  · exact .pure _

theorem keeps_markDeclared (d : DeclId) (word : VarKind) : B.Keeps (markDeclared d word) :=
  .modify fun _ => ⟨rfl, rfl, rfl⟩

theorem keeps_ensureDeclared (d : DeclId) : B.Keeps (ensureDeclared d) := by
  refine .bind (keeps_declaringWord d .reassign) fun word => ?_
  cases word with
  | none => exact .pure _
  | some word =>
    exact .bind (keeps_nameOf d) fun _ => .bind (keeps_markDeclared d _) fun _ =>
      keeps_statement rfl _

theorem keeps_ensureAll (ds : List DeclId) : B.Keeps (ensureAll ds) := by
  induction ds with
  | nil => exact .pure _
  | cons d ds ih => exact .bind (keeps_ensureDeclared d) fun _ => ih

theorem keeps_storeStmt (s : Store) : B.Keeps (storeStmt s) := by
  refine .bind (keeps_nameOf _) fun name => .bind (keeps_declaringWord _ _) fun word => ?_
  cases word with
  | none => exact keeps_statement rfl _
  | some word => exact .bind (keeps_markDeclared _ word) fun _ => keeps_statement rfl _

theorem keeps_valueStmt (v : Pending) : B.Keeps (valueStmt v) := by
  rw [valueStmt]
  split
  · exact .pure _
  · split
    · exact keeps_storeStmt _
    · split
      · exact keeps_statement rfl _
      · exact .pure _

theorem keeps_materialize (v : Pending) : B.Keeps (materialize v) :=
  .bind keeps_freshName fun _ => .bind (keeps_statement rfl _) fun _ => .pure _

theorem keeps_define {place : Place} (hc : B.cells place.cell.id) (v : Pending) :
    B.Keeps (define place v) := by
  refine .bind (keeps_readCount place) fun count => ?_
  split
  · exact keeps_valueStmt v
  · exact keeps_wait hc v
  · split
    · exact keeps_wait hc v
    · exact .bind (keeps_materialize v) fun _ => keeps_wait hc _

/-! ## Instructions -/

theorem keeps_emitStore {place : Place} (hc : B.cells place.cell.id) (target value : Place)
    (kind : StoreKind) : B.Keeps (emitStore place target value kind) := by
  refine .bind (keeps_take value) fun stored => .bind (keeps_nameOf _) fun name => ?_
  split
  · exact .bind (keeps_readName _) fun _ => keeps_define hc _
  · refine .bind (keeps_readCount place) fun count => ?_
    split
    · exact .bind (keeps_ensureDeclared _) fun _ => keeps_define hc _
    · exact keeps_define hc _

theorem keeps_markAll (ds : List DeclId) (word : VarKind) :
    B.Keeps (forIn ds PUnit.unit fun d _ => do
      markDeclared d word
      pure (ForInStep.yield PUnit.unit)) := by
  induction ds with
  | nil => exact .pure _
  | cons d ds ih =>
    rw [List.forIn_cons]
    simp only [bind_assoc, pure_bind]
    exact .bind (keeps_markDeclared d word) fun _ => ih

theorem keeps_emitDestructure {place : Place} (hc : B.cells place.cell.id)
    (pattern value : Place) (kind : StoreKind) :
    B.Keeps (emitDestructure place pattern value kind) := by
  have hassign (v : Pending) (target : Pattern) (bound : List DeclId) :
      B.Keeps (emitDestructure.assign place v target bound) :=
    .bind (keeps_ensureAll bound) fun _ => keeps_define hc _
  refine .bind (keeps_take value) fun v => .bind (keeps_takePattern pattern) fun r =>
    .bind .read fun ctx' => .bind .get fun st => ?_
  dsimp only
  split
  · refine .bind (keeps_readCount place) fun count => ?_
    split
    · exact .bind (keeps_markAll _ _) fun _ => keeps_statement rfl _
    · exact hassign _ _ _
  · exact hassign _ _ _

/-- Code that is kept as it was written. -/
theorem keeps_kept {place : Place} (hc : B.cells place.cell.id) {source : Verbatim}
    (hkept : ∀ s, source = .statement s → ∀ r, B.statements (s.rename r)) (r : String → String)
    (names : KeySet DeclId) : B.Keeps
      (match source with
      | .statement s => Emit.statement (s.rename r) .anything
      | .expression e => define place { expr := e.rename r, names, hasEffects := true }) := by
  cases source with
  | statement s => exact fun _ _ _ hrun => B.statement (hkept s rfl r) hrun
  | expression e => exact keeps_define hc _

theorem keeps_emitVerbatim {place : Place} (hc : B.cells place.cell.id) {source : Verbatim}
    (hkept : ∀ s, source = .statement s → ∀ r, B.statements (s.rename r))
    (bindings : List (String × Place)) : B.Keeps (emitVerbatim place source bindings) := by
  refine .bind .read fun ctx' => .bind (keeps_renamings bindings) fun pairs => ?_
  dsimp only
  split
  · exact .bind (.pure _) fun _ => keeps_kept hc hkept _ _
  · split
    · exact .bind (keeps_nameOf _) fun _ => .bind (.pure _) fun _ =>
        .bind (.modify fun _ => ⟨rfl, rfl, rfl⟩) fun _ => .bind (.pure _) fun _ =>
          keeps_kept hc hkept _ _
    · exact .bind (.pure _) fun _ =>
        .bind (.modify fun _ => ⟨rfl, rfl, rfl⟩) fun _ => .bind (.pure _) fun _ =>
          keeps_kept hc hkept _ _

/-- The relation lasts where the values and the kept statements of an instruction are admitted. -/
structure Admits (B : Bound ctx) (i : Instr) : Prop where
  cell : B.cells i.place.cell.id
  kept : ∀ s bindings, i.op = .unsupported (.statement s) bindings → ∀ r, B.statements (s.rename r)

theorem keeps_emitInstr {i : Instr} (hi : B.Admits i) : B.Keeps (emitInstr i) := by
  obtain ⟨id, place, origin, op⟩ := i
  have hc : B.cells place.cell.id := hi.cell
  have hdefine (v : Pending) : B.Keeps (define place v) := keeps_define hc v
  cases op with
  | loadLocal source => exact .bind (keeps_take source) fun _ => hdefine _
  | storeLocal target value kind => exact keeps_emitStore hc target value kind
  | copy target value => exact keeps_emitStore hc target value .reassign
  | loadGlobal name => exact hdefine _
  | storeGlobal name value => exact .bind (keeps_take value) fun _ => hdefine _
  | propertyLoad base property => exact .bind (keeps_take base) fun _ => hdefine _
  | propertyStore base property value =>
    exact .bind (keeps_take base) fun _ => .bind (keeps_take value) fun _ => hdefine _
  | computedLoad base property =>
    exact .bind (keeps_take base) fun _ => .bind (keeps_take property) fun _ => hdefine _
  | computedStore base property value =>
    exact .bind (keeps_take base) fun _ => .bind (keeps_take property) fun _ =>
      .bind (keeps_take value) fun _ => hdefine _
  | literal value => exact hdefine _
  | binary op left right =>
    exact .bind (keeps_take left) fun _ => .bind (keeps_take right) fun _ => hdefine _
  | unary op argument => exact .bind (keeps_take argument) fun _ => hdefine _
  | logical op left right =>
    exact .bind (keeps_take left) fun _ => .bind (keeps_take right) fun _ => hdefine _
  | conditional test consequent alternate =>
    exact .bind (keeps_take test) fun _ => .bind (keeps_take consequent) fun _ =>
      .bind (keeps_take alternate) fun _ => hdefine _
  | call callee arguments =>
    exact .bind (keeps_take callee) fun _ => .bind (keeps_takeElements arguments) fun _ => hdefine _
  | construct callee arguments =>
    exact .bind (keeps_take callee) fun _ => .bind (keeps_takeElements arguments) fun _ => hdefine _
  | array elements => exact .bind (keeps_takeElements elements) fun _ => hdefine _
  | object properties => exact .bind (keeps_takeProperties properties) fun _ => hdefine _
  | functionExpression id => exact .bind (keeps_nestedFunction id) fun _ => hdefine _
  | binding _ => exact .bind (keeps_nameOf _) fun _ => keeps_waitPattern _ _ _
  | arrayPattern elements => exact .bind (keeps_takeHoles elements) fun _ => keeps_waitPattern _ _ _
  | objectPattern properties =>
    exact .bind (keeps_takePatternProperties properties) fun _ => keeps_waitPattern _ _ _
  | defaultPattern target value =>
    exact .bind (keeps_take value) fun _ => .bind (keeps_takePattern target) fun _ =>
      keeps_waitPattern _ _ _
  | rest argument => exact .bind (keeps_takePattern argument) fun _ => keeps_waitPattern _ _ _
  | spread argument =>
    exact .bind (keeps_take argument) fun _ => .modify fun _ => ⟨rfl, rfl, rfl⟩
  | destructure pattern value kind => exact keeps_emitDestructure hc pattern value kind
  | functionDeclaration id =>
    exact .bind (keeps_nestedFunction id) fun _ => .bind (keeps_nameOf _) fun _ =>
      .bind (.modify fun _ => ⟨rfl, rfl, rfl⟩) fun _ => keeps_statement rfl _
  | importDeclaration source specifiers =>
    exact .bind (keeps_takeImports specifiers) fun _ => keeps_statement rfl _
  | importSpecifier kind bound => exact .modify fun _ => ⟨rfl, rfl, rfl⟩
  | exportSpecifier bound exported =>
    exact .bind (keeps_nameOf _) fun _ => .modify fun _ => ⟨rfl, rfl, rfl⟩
  | exportNames specifiers =>
    exact .bind (keeps_takeExports specifiers) fun _ => keeps_statement rfl _
  | exportDefault value => exact .bind (keeps_take value) fun _ => keeps_statement rfl _
  | expressionStatement expression => exact .bind (keeps_take expression) fun _ => keeps_valueStmt _
  | unsupported source bindings => 
    exact keeps_emitVerbatim hc (fun s hs => hi.kept s bindings (hs ▸ rfl)) bindings

theorem keeps_emitInstrs {is : List Instr} (his : ∀ i ∈ is, B.Admits i) : B.Keeps (emitInstrs is) := by
  induction is with
  | nil => exact .pure _
  | cons i is ih =>
    obtain ⟨hi, his⟩ := List.forall_mem_cons.1 his
    exact .bind (keeps_emitInstr hi) fun _ => ih his

end Bound

end Emit

end Whittle
