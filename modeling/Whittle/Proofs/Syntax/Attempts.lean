import Mathlib.Tactic.Common
import Whittle.Syntax.Parse

/-!
# Attempts that fail

Whether parentheses hold parameters shows only at the arrow behind them.  An attempt to read parameters that fails
gives the cursor back, but for the flag that says whether `in` is an operator.  A parser leaves the flag as it was,
also when it ends with an error, except in one place: behind the head of a `for` statement `in` is an operator, even
if the statement stands in a function within another such head.

Main statements: `arrow?_eq_none` and `kept_of_no_arrow`.
-/

namespace Whittle.Syntax

/-! ## The flag -/

namespace Input

variable {input : Input} {c c' c'' : Cursor}

/-- The input has neither braces nor arrows. -/
class Unbraced (input : Input) : Prop where
  brace : ∀ t ∈ input.tokens, t.kind ≠ .openBrace
  arrow : ∀ t ∈ input.tokens, t.kind ≠ .arrow

/-- The head of a `for` statement begins at the position. -/
def ForHead (input : Input) (i : Nat) : Prop :=
  input.tokens[i]?.any (·.isKeyword "for") = true ∧ input.tokens[i + 1]?.any (·.kind == .openParen) = true

/-- From one cursor to the other no token is given back, and `in` stays what it is, unless it becomes an operator
and the head of a `for` statement begins further on. -/
structure Keeps (input : Input) (c c' : Cursor) : Prop where
  position : c.position ≤ c'.position
  noIn : c'.noIn = c.noIn ∨ c'.noIn = false ∧ ∃ i, c.position ≤ i ∧ input.ForHead i

theorem Keeps.refl (c : Cursor) : input.Keeps c c := ⟨Nat.le_refl _, .inl rfl⟩

theorem Keeps.trans (h : input.Keeps c c') (h' : input.Keeps c' c'') : input.Keeps c c'' := by
  refine ⟨Nat.le_trans h.position h'.position, ?_⟩
  rcases h'.noIn with heq | ⟨hfalse, i, hi, hhead⟩
  · rw [heq]
    exact h.noIn
  · exact .inr ⟨hfalse, i, Nat.le_trans h.position hi, hhead⟩

/-- Where `in` is an operator it stays one. -/
theorem Keeps.noIn_eq_false (h : input.Keeps c c') (hc : c.noIn = false) : c'.noIn = false :=
  h.noIn.elim (fun heq => heq.trans hc) (·.1)

end Input

namespace Parser

variable {α β : Type} {input : Input}

/-- Where the parser ends, with a value or with an error, the cursor is as wanted. -/
def EndsAt (input : Input) (p : Parser α) (c : Cursor) (Q : Cursor → Prop) : Prop :=
  match p input c with
  | .ok _ c' => Q c'
  | .error _ c' => Q c'

namespace EndsAt

variable {p : Parser α} {f : α → Parser β} {c c' : Cursor} {a : α} {Q : Cursor → Prop}

theorem of_ok (h : EndsAt input p c Q) (hrun : p input c = .ok a c') : Q c' := by
  rwa [EndsAt, hrun] at h

theorem of_error (h : EndsAt input p c Q) {e : Error} (hrun : p input c = .error e c') : Q c' := by
  rwa [EndsAt, hrun] at h

theorem bind (hp : EndsAt input p c Q) (hf : ∀ a c', p input c = .ok a c' → EndsAt input (f a) c' Q) :
    EndsAt input (p >>= f) c Q := by
  simp only [EndsAt, Bind.bind, ReaderT.bind, EStateM.bind]
  cases hrun : p input c with
  | ok a c' => exact hf a c' hrun
  | error e c' => exact hp.of_error hrun

theorem imp {Q' : Cursor → Prop} (h : EndsAt input p c Q) (hQ : ∀ c', Q c' → Q' c') : EndsAt input p c Q' := by
  rw [EndsAt]
  cases hrun : p input c with
  | ok a c' => exact hQ c' (h.of_ok hrun)
  | error e c' => exact hQ c' (h.of_error hrun)

end EndsAt

/-- Whether the parser ends with a value or with an error, `in` stays what it is, but for heads of `for` statements. -/
class KeepsIn (input : Input) (p : Parser α) : Prop where
  keeps : ∀ c, EndsAt input p c (input.Keeps c)

namespace KeepsIn

instance (a : α) : KeepsIn input (pure a) := ⟨fun c => .refl c⟩

instance (e : Error) : KeepsIn input (throw e : Parser α) := ⟨fun c => .refl c⟩

instance : KeepsIn input (read : Parser Input) := ⟨fun c => .refl c⟩

instance : KeepsIn input (get : Parser Cursor) := ⟨fun c => .refl c⟩

theorem modify {g : Cursor → Cursor} (hposition : ∀ c, c.position ≤ (g c).position)
    (hnoIn : ∀ c, (g c).noIn = c.noIn) : KeepsIn input (modify g : Parser PUnit) :=
  ⟨fun c => ⟨hposition c, .inl (hnoIn c)⟩⟩

theorem andThen {p : Parser α} {f : α → Parser β} (hp : KeepsIn input p) (hf : ∀ a, KeepsIn input (f a)) :
    KeepsIn input (p >>= f) :=
  ⟨fun c => (hp.keeps c).bind fun a c' hrun => ((hf a).keeps c').imp fun _ => ((hp.keeps c).of_ok hrun).trans⟩

instance {p : Parser α} {f : α → Parser β} [hp : KeepsIn input p] [hf : ∀ a, KeepsIn input (f a)] :
    KeepsIn input (p >>= f) := hp.andThen hf

instance {b : Prop} [Decidable b] {p q : Parser α} [hp : KeepsIn input p] [hq : KeepsIn input q] :
    KeepsIn input (if b then p else q) := by
  split
  · exact hp
  · exact hq

instance (n : Nat) : KeepsIn input (peekAt n) := by unfold peekAt; infer_instance

instance : KeepsIn input peek := by unfold peek; infer_instance

instance : KeepsIn input peekKind := by unfold peekKind; infer_instance

instance : KeepsIn input next := by
  refine andThen inferInstance fun t => ?_
  split
  · exact andThen (modify (fun c => Nat.le_succ _) fun c => rfl) inferInstance
  · infer_instance

instance : KeepsIn input skip := by unfold skip; infer_instance

instance : KeepsIn input start := by
  refine andThen inferInstance fun t => ?_
  split <;> infer_instance

instance (n : Nat) : KeepsIn input (spanFrom n) := by unfold spanFrom; infer_instance

instance (span : Span) : KeepsIn input (nodeAt span) := by
  refine andThen inferInstance fun c => ?_
  exact andThen (modify (fun c => Nat.le_refl _) fun c => rfl) inferInstance

instance (n : Nat) : KeepsIn input (nodeFrom n) := by unfold nodeFrom; infer_instance

instance (n : Nat) (message : String) : KeepsIn input (failAt n message : Parser α) := by
  unfold failAt
  infer_instance

instance (expecting : String) : KeepsIn input (unexpected expecting : Parser α) := by
  refine andThen inferInstance fun t => ?_
  split <;> infer_instance

instance : KeepsIn input (stalled : Parser α) := by unfold stalled; infer_instance

instance (test : Token → Bool) : KeepsIn input (nextIs test) := by unfold nextIs; infer_instance

instance (kind : TokenKind) : KeepsIn input (atKind kind) := by unfold atKind; infer_instance

instance (word : String) : KeepsIn input (atKeyword word) := by unfold atKeyword; infer_instance

instance (text : String) : KeepsIn input (atOperator text) := by unfold atOperator; infer_instance

instance (word : String) : KeepsIn input (atContextual word) := by unfold atContextual; infer_instance

instance : KeepsIn input atEquals := by unfold atEquals; infer_instance

instance : KeepsIn input atVariables := by unfold atVariables; infer_instance

instance (kind : TokenKind) : KeepsIn input (eat kind) := by unfold eat; infer_instance

instance (kind : TokenKind) (expecting : String) : KeepsIn input (expect kind expecting) := by
  refine andThen inferInstance fun t => ?_
  split <;> infer_instance

instance (word : String) : KeepsIn input (expectKeyword word) := by unfold expectKeyword; infer_instance

instance (word : String) : KeepsIn input (expectContextual word) := by unfold expectContextual; infer_instance

instance : KeepsIn input atStatementEnd := by
  refine andThen inferInstance fun t => ?_
  split <;> infer_instance

instance : KeepsIn input endStatement := by
  refine andThen inferInstance fun b => ?_
  split
  · infer_instance
  · refine andThen inferInstance fun t => ?_
    split <;> infer_instance

instance : KeepsIn input ident := by unfold ident identOf; infer_instance

instance : KeepsIn input word := by
  refine andThen inferInstance fun t => ?_
  unfold identOf
  split <;> infer_instance

instance : KeepsIn input string := by unfold string; infer_instance

instance (t : Token) : KeepsIn input (numberOf t) := by
  rw [numberOf]
  split <;> infer_instance

instance : KeepsIn input moduleName := by unfold moduleName; infer_instance

instance : KeepsIn input rounds := by unfold rounds; infer_instance

instance (p : Parser α) [hp : KeepsIn input p] : KeepsIn input (allowingIn p) := by
  refine ⟨fun c => ?_⟩
  have hends := hp.keeps { c with noIn := false }
  rw [EndsAt, allowingIn]
  cases hrun : p input { c with noIn := false } with
  | ok a c' => exact ⟨(hends.of_ok hrun).position, .inl rfl⟩
  | error e c' => exact ⟨(hends.of_error hrun).position, .inl rfl⟩

instance {round : Parser (Round α)} [hround : KeepsIn input round] (fuel : Nat) :
    KeepsIn input (collect round fuel) := by
  induction fuel with
  | zero => unfold collect; infer_instance
  | succ fuel ih =>
    refine andThen hround fun r => ?_
    split <;> infer_instance

instance {item : Parser α} [KeepsIn input item] (close : TokenKind) :
    KeepsIn input (separated close item) := by
  unfold separated
  infer_instance

/-! Types -/

instance (depth fuel : Nat) : KeepsIn input (untilClosed depth fuel) := by
  induction fuel generalizing depth with
  | zero => unfold untilClosed; infer_instance
  | succ fuel ih =>
    refine andThen inferInstance fun t => ?_
    split <;> infer_instance

instance : KeepsIn input balanced := by unfold balanced; infer_instance

instance : KeepsIn input typeParameters := by unfold typeParameters; infer_instance

instance (fuel : Nat) : KeepsIn input (typePath fuel) := by
  induction fuel with
  | zero => unfold typePath; infer_instance
  | succ fuel ih => unfold typePath; infer_instance

instance (fuel : Nat) : KeepsIn input (typeSuffix fuel) := by
  induction fuel with
  | zero => unfold typeSuffix; infer_instance
  | succ fuel ih => unfold typeSuffix; infer_instance

end KeepsIn

/-! ## Running parsers -/

/-- From the first cursor the parser reads the value and comes to the second one. -/
def Runs (input : Input) (p : Parser α) (c : Cursor) (a : α) (c' : Cursor) : Prop := p input c = .ok a c'

namespace Runs

variable {p : Parser α} {f : α → Parser β} {c c' c'' : Cursor} {a : α} {b : β}

theorem pure (a : α) (c : Cursor) : Runs input (pure a) c a c := rfl

theorem bind_eq (hp : Runs input p c a c') (f : α → Parser β) : (p >>= f) input c = f a input c' := by
  rw [Runs] at hp
  simp only [Bind.bind, ReaderT.bind, EStateM.bind, hp]

theorem bind (hp : Runs input p c a c') (hf : Runs input (f a) c' b c'') : Runs input (p >>= f) c b c'' :=
  (hp.bind_eq f).trans hf

theorem peekAt (n : Nat) (c : Cursor) : Runs input (peekAt n) c input.tokens[c.position + n]? c := rfl

theorem peekKind (c : Cursor) : Runs input peekKind c (input.tokens[c.position]?.map (·.kind)) c := rfl

theorem skip {token : Token} (htoken : input.tokens[c.position]? = some token) :
    Runs input skip c () { c with position := c.position + 1, lastEnd := token.span.stop } := by
  refine Runs.bind (a := some token) ?_ (.pure () _)
  refine Runs.bind (htoken ▸ Runs.peekAt 0 c) ?_
  exact Runs.bind rfl (.pure _ _)

theorem exists_start (input : Input) (c : Cursor) : ∃ n, Runs input start c n c := by
  simp only [Runs, start, peek, (peekAt 0 c).bind_eq]
  cases input.tokens[c.position + 0]? with
  | none => exact ⟨_, rfl⟩
  | some token => exact ⟨_, rfl⟩

end Runs

/-! ## What a parser that succeeds has seen -/

/-- What holds of everything that comes out last. -/
theorem ok_bind {p : Parser α} {f : α → Parser β} {P : β → Cursor → Prop}
    (hf : ∀ a c b c', f a input c = .ok b c' → P b c') (c : Cursor) (b : β) (c' : Cursor)
    (h : (p >>= f) input c = .ok b c') : P b c' := by
  simp only [Bind.bind, ReaderT.bind, EStateM.bind] at h
  split at h
  · next a c₁ _ => exact hf a c₁ b c' h
  · cases h

theorem ok_return_some (p : Parser α) (c : Cursor) (a : Option α) (c' : Cursor)
    (h : (do return some (← p) : Parser (Option α)) input c = .ok a c') : a ≠ none := by
  refine ok_bind (P := fun a _ => a ≠ none) (fun b c₁ a c₂ hlast => ?_) c a c' h
  have hsame : EStateM.Result.ok (some b) c₁ = .ok a c₂ := hlast
  cases hsame
  exact nofun

theorem throw_ne_ok (e : Error) (c : Cursor) (a : α) (c' : Cursor) :
    (throw e : Parser α) input c ≠ .ok a c' := by
  intro h
  have herror : EStateM.Result.error e c = .ok a c' := h
  cases herror

theorem unexpected_ne_ok (expecting : String) (c : Cursor) (a : α) (c' : Cursor) :
    (unexpected expecting : Parser α) input c ≠ .ok a c' := by
  refine ok_bind (P := fun _ _ => False) (fun t c a c' => ?_) c a c'
  split
  · exact ok_bind (fun _ => throw_ne_ok _) c a c'
  · exact ok_bind (fun _ => ok_bind fun _ => throw_ne_ok _) c a c'

section Taken

variable {c c' : Cursor}

/-- A keyword that has been taken stands in front of the cursor. -/
theorem taken_of_expectKeyword {word : String} {u : Unit} (h : expectKeyword word input c = .ok u c') :
    input.tokens[c.position]?.any (·.isKeyword word) = true ∧ c'.position = c.position + 1 := by
  have hrun : expectKeyword word input c =
      (if input.tokens[c.position]?.any (·.isKeyword word) = true then skip else unexpected word : Parser Unit)
        input c := rfl
  rw [hrun] at h
  split at h
  · next hword =>
    cases htoken : input.tokens[c.position]? with
    | none => simp [htoken] at hword
    | some token =>
      cases (Runs.skip htoken).symm.trans h
      exact ⟨htoken ▸ hword, rfl⟩
  · exact absurd h (unexpected_ne_ok word c u c')

/-- A token that has been taken stands in front of the cursor. -/
theorem taken_of_expect {kind : TokenKind} {expecting : String} {token : Token}
    (h : expect kind expecting input c = .ok token c') :
    input.tokens[c.position]?.any (·.kind == kind) = true ∧ c'.position = c.position + 1 := by
  rw [expect, peek, (Runs.peekAt 0 c).bind_eq, Nat.add_zero] at h
  cases htoken : input.tokens[c.position]? with
  | none =>
    rw [htoken] at h
    exact absurd h (unexpected_ne_ok expecting c token c')
  | some first =>
    rw [htoken] at h
    dsimp only at h
    split at h
    · next hkind =>
      rw [(Runs.skip htoken).bind_eq] at h
      cases h
      exact ⟨hkind, rfl⟩
    · exact absurd h (unexpected_ne_ok expecting c token c')

end Taken

/-! ## Productions -/

-- a long parser is put together from as many instances as it has steps
set_option synthInstance.maxSize 2000

/-- All productions keep the flag, but for heads of `for` statements. -/
class Productions.KeepIn (input : Input) (r : Productions) : Prop where
  typeOnly : KeepsIn input r.typeOnly
  target : KeepsIn input r.target
  unary : KeepsIn input r.unary
  binary : ∀ least, KeepsIn input (r.binary least)
  assignment : KeepsIn input r.assignment
  expression : KeepsIn input r.expression
  statement : KeepsIn input r.statement

namespace KeepsIn

variable {r : Productions} [hr : Productions.KeepIn input r]

instance : KeepsIn input r.typeOnly := hr.typeOnly
instance : KeepsIn input r.target := hr.target
instance : KeepsIn input r.unary := hr.unary
instance (least : Nat) : KeepsIn input (r.binary least) := hr.binary least
instance : KeepsIn input r.assignment := hr.assignment
instance : KeepsIn input r.expression := hr.expression
instance : KeepsIn input r.statement := hr.statement

instance : KeepsIn input (typeMember r) := by
  refine andThen inferInstance fun k => ?_
  split <;> infer_instance

instance (fuel : Nat) : KeepsIn input (typeUnion r fuel) := by
  induction fuel with
  | zero => unfold typeUnion; infer_instance
  | succ fuel ih => unfold typeUnion; infer_instance

instance : KeepsIn input (typeOnly r) := by unfold typeOnly; infer_instance

instance : KeepsIn input ( typeAnnotation r) := by unfold typeAnnotation; infer_instance

/-! Patterns -/

instance : KeepsIn input (propertyKey r) := by
  refine andThen inferInstance fun t => ?_
  split
  · split <;> infer_instance
  · infer_instance

instance (n : Nat) (p : Pattern) : KeepsIn input (withDefault r n p) := by unfold withDefault; infer_instance

instance : KeepsIn input (arrayPatternRound r) := by
  unfold arrayPatternRound
  refine andThen inferInstance fun closed => ?_
  split
  · infer_instance
  · refine andThen inferInstance fun hole => ?_
    split <;> infer_instance

instance : KeepsIn input (patternProperty r) := by
  unfold patternProperty
  refine andThen inferInstance fun b => ?_
  split
  · infer_instance
  · refine andThen inferInstance fun n => andThen inferInstance fun key => andThen inferInstance fun c => ?_
    split
    · infer_instance
    · split <;> infer_instance

instance : KeepsIn input (target r) := by
  refine andThen inferInstance fun n => andThen inferInstance fun k => ?_
  split <;> infer_instance

instance : KeepsIn input (parameter r) := by unfold parameter; infer_instance

instance : KeepsIn input (parameters r) := by unfold parameters; infer_instance

/-! Expressions -/

instance : KeepsIn input (block r) := by
  unfold block
  dsimp only
  infer_instance

instance (requireName : Bool) : KeepsIn input (function r requireName) := by
  refine andThen inferInstance fun n => andThen inferInstance fun _ => andThen inferInstance fun named => ?_
  dsimp only
  split
  · infer_instance
  · split <;> infer_instance

instance (n : Nat) : KeepsIn input (method r n) := by unfold method; infer_instance

instance : KeepsIn input (element r) := by unfold element; infer_instance

instance : KeepsIn input (property r) := by
  unfold property
  refine andThen inferInstance fun isSpread => ?_
  split
  · infer_instance
  · refine andThen inferInstance fun n => andThen inferInstance fun token => andThen inferInstance fun key =>
      andThen inferInstance fun isPair => ?_
    split
    · infer_instance
    · refine andThen inferInstance fun isMethod => ?_
      split
      · infer_instance
      · split <;> infer_instance

instance : KeepsIn input (objectLiteral r) := by unfold objectLiteral; infer_instance

instance : KeepsIn input (arrayLiteral r) := by
  unfold arrayLiteral
  dsimp only
  infer_instance

instance : KeepsIn input (arguments r) := by unfold arguments; infer_instance

instance (t : Token) (n : Nat) : KeepsIn input (keywordPrimary r t n) := by
  rw [keywordPrimary]
  split <;> infer_instance

instance : KeepsIn input (primary r) := by
  refine andThen inferInstance fun n => andThen inferInstance fun t => ?_
  split
  · infer_instance
  · split <;> infer_instance

instance (calls : Bool) (n : Nat) (e : Expr) (fuel : Nat) : KeepsIn input (suffixes r calls n e fuel) := by
  induction fuel generalizing e with
  | zero => unfold suffixes; infer_instance
  | succ fuel ih =>
    refine andThen inferInstance fun k => ?_
    split <;> infer_instance

instance : KeepsIn input (memberOnly r) := by unfold memberOnly; infer_instance

instance : KeepsIn input (callMember r) := by
  refine andThen inferInstance fun n => andThen inferInstance fun isNew => ?_
  dsimp only
  split
  · refine andThen inferInstance fun _ => andThen inferInstance fun callee => ?_
    infer_instance
  · infer_instance

instance : KeepsIn input (postfixUpdate r) := by
  refine andThen inferInstance fun n => andThen inferInstance fun e => andThen inferInstance fun t => ?_
  split
  · infer_instance
  · split
    · infer_instance
    · split <;> infer_instance

instance : KeepsIn input (unary r) := by
  refine andThen inferInstance fun n => andThen inferInstance fun t => ?_
  split
  · infer_instance
  · split <;> infer_instance

instance (least n : Nat) (e : Expr) (fuel : Nat) : KeepsIn input (binaryRest r least n e fuel) := by
  induction fuel generalizing e with
  | zero => unfold binaryRest; infer_instance
  | succ fuel ih =>
    refine andThen inferInstance fun t => andThen inferInstance fun c => ?_
    split <;> infer_instance

instance (least : Nat) : KeepsIn input (binary r least) := by unfold binary; infer_instance

instance : KeepsIn input (conditional r) := by unfold conditional; infer_instance

/-- An attempt succeeds in front of an arrow only.  If it fails it gives back the cursor but for the flag. -/
theorem arrowParameters?_keeps (input : Input) (r : Productions) [Productions.KeepIn input r] (c : Cursor) :
    match arrowParameters? r input c with
    | .ok (some _) c' => input.tokens[c'.position]?.any (·.kind == .arrow) = true ∧ input.Keeps c c'
    | .ok none c' => c' = { c with noIn := c'.noIn } ∧ input.Keeps c c'
    | .error _ _ => False := by
  let attempt : Parser (List Pattern × Bool) := do
    let params ← parameters r
    typeAnnotation r
    return (params, ← atKind .arrow)
  have hattempt : KeepsIn input attempt := inferInstanceAs (KeepsIn input (parameters r >>= _))
  have harrow : ∀ c a c', attempt input c = .ok a c' → a.2 = input.tokens[c'.position]?.any (·.kind == .arrow) := by
    refine ok_bind fun params => ok_bind fun _ c a c' ha => ?_
    have hsame : EStateM.Result.ok (params, input.tokens[c.position]?.any (·.kind == .arrow)) c = .ok a c' := ha
    cases hsame
    rfl
  have hends := hattempt.keeps c
  rw [arrowParameters?]
  cases hrun : attempt input c with
  | ok a c' =>
    have hkeeps := hends.of_ok hrun
    have hlast := harrow c a c' hrun
    obtain ⟨params, _ | _⟩ := a
    · simp only [attempt] at hrun
      rw [hrun]
      exact ⟨rfl, Nat.le_refl _, hkeeps.noIn⟩
    · simp only [attempt] at hrun
      rw [hrun]
      exact ⟨hlast.symm, hkeeps⟩
  | error e c' =>
    have hkeeps := hends.of_error hrun
    simp only [attempt] at hrun
    rw [hrun]
    exact ⟨rfl, Nat.le_refl _, hkeeps.noIn⟩

instance : KeepsIn input (arrowParameters? r) := by
  refine ⟨fun c => ?_⟩
  have hkeeps := arrowParameters?_keeps input r c
  rw [EndsAt]
  split at hkeeps
  · next heq =>
    rw [heq]
    exact hkeeps.2
  · next heq =>
    rw [heq]
    exact hkeeps.2
  · exact hkeeps.elim

instance (n : Nat) (params : List Pattern) : KeepsIn input (arrowRest r n params) := by
  unfold arrowRest
  dsimp only
  infer_instance

instance : KeepsIn input (arrow? r) := by
  refine andThen inferInstance fun n => andThen inferInstance fun k => ?_
  split
  · infer_instance
  · refine andThen inferInstance fun params => ?_
    split <;> infer_instance
  · infer_instance

instance (op : AssignOp) (left : Expr) : KeepsIn input (assignmentTarget op left) := by
  unfold assignmentTarget
  dsimp only
  split
  · refine andThen inferInstance fun _ => ?_
    split <;> infer_instance
  · split <;> infer_instance

instance : KeepsIn input (assignment r) := by
  refine andThen inferInstance fun n => andThen inferInstance fun arrow => ?_
  split
  · infer_instance
  · refine andThen inferInstance fun left => andThen inferInstance fun t => ?_
    split
    · infer_instance
    · split
      · infer_instance
      · split <;> infer_instance

instance : KeepsIn input (sequenceRest r) := by unfold sequenceRest; infer_instance

instance : KeepsIn input (expression r) := by unfold expression; infer_instance

/-! Statements -/

instance : KeepsIn input (parenthesized r) := by unfold parenthesized; infer_instance

instance : KeepsIn input (declarator r) := by
  unfold declarator
  dsimp only
  infer_instance

instance : KeepsIn input (declarators r) := by
  unfold declarators
  dsimp only
  infer_instance

instance : KeepsIn input (variableList r) := by
  refine andThen inferInstance fun t => ?_
  split
  · infer_instance
  · split <;> infer_instance

instance (n : Nat) : KeepsIn input (ifStatement r n) := by
  unfold ifStatement
  dsimp only
  infer_instance

instance : KeepsIn input (forHead r) := by unfold forHead; infer_instance

instance (kind : TokenKind) : KeepsIn input (expressionUnless r kind) := by unfold expressionUnless; infer_instance

/-- Behind the head of a `for` statement `in` is an operator, whatever it was. -/
theorem of_forHead {p : Parser α} {f : α → Parser β} (expecting : String) (hp : KeepsIn input p)
    (hf : ∀ a, KeepsIn input (f a)) :
    KeepsIn input (do
      expectKeyword "for"
      let _ ← expect .openParen expecting
      f (← forbiddingIn p)) := by
  refine ⟨fun c => ?_⟩
  have hkeyword : EndsAt input (expectKeyword "for") c (input.Keeps c) := KeepsIn.keeps c
  refine hkeyword.bind fun _ c₁ hrun₁ => ?_
  have hparen : EndsAt input (expect .openParen expecting) c₁ (input.Keeps c₁) := KeepsIn.keeps c₁
  refine (hparen.imp fun _ => (hkeyword.of_ok hrun₁).trans).bind fun _ c₂ hrun₂ => ?_
  obtain ⟨hword, hposition₁⟩ := taken_of_expectKeyword hrun₁
  obtain ⟨hopen, hposition₂⟩ := taken_of_expect hrun₂
  have hhead : input.ForHead c.position := ⟨hword, hposition₁ ▸ hopen⟩
  have hforbidding : EndsAt input (forbiddingIn p) c₂ (input.Keeps c) := by
    have hends := hp.keeps { c₂ with noIn := true }
    have hbefore : c.position ≤ c₂.position := by omega
    rw [EndsAt, forbiddingIn]
    cases hrun : p input { c₂ with noIn := true } with
    | ok a c' =>
      exact ⟨Nat.le_trans hbefore (hends.of_ok hrun).position, .inr ⟨rfl, c.position, Nat.le_refl _, hhead⟩⟩
    | error e c' =>
      exact ⟨Nat.le_trans hbefore (hends.of_error hrun).position, .inr ⟨rfl, c.position, Nat.le_refl _, hhead⟩⟩
  exact hforbidding.bind fun a c₃ hrun₃ => ((hf a).keeps c₃).imp fun _ => (hforbidding.of_ok hrun₃).trans

instance (n : Nat) : KeepsIn input (forStatement r n) := by
  unfold forStatement
  refine of_forHead _ inferInstance fun head => ?_
  refine andThen inferInstance fun isIn => andThen inferInstance fun isOf => ?_
  split
  · split
    · infer_instance
    · dsimp only
      infer_instance
  · infer_instance

instance : KeepsIn input (classMember r) := by
  unfold classMember
  dsimp only
  infer_instance

instance : KeepsIn input (classBody r) := by
  refine andThen inferInstance fun n => andThen inferInstance fun _ => andThen inferInstance fun named => ?_
  dsimp only
  split
  · refine andThen inferInstance fun _ => andThen inferInstance fun _ => andThen inferInstance fun extended => ?_
    split <;> infer_instance
  · refine andThen inferInstance fun _ => andThen inferInstance fun extended => ?_
    split <;> infer_instance

instance : KeepsIn input importSpecifier := by
  unfold importSpecifier
  dsimp only
  infer_instance

instance : KeepsIn input importSpecifiers := by
  refine andThen inferInstance fun named => ?_
  dsimp only
  split <;> infer_instance

instance (n : Nat) : KeepsIn input (importStatement n) := by
  unfold importStatement
  dsimp only
  infer_instance

instance : KeepsIn input exportSpecifier := by
  unfold exportSpecifier
  dsimp only
  infer_instance

instance : KeepsIn input (exportedValue r) := by unfold exportedValue; infer_instance

instance (n : Nat) : KeepsIn input (exportStatement r n) := by
  refine andThen inferInstance fun _ => andThen inferInstance fun isDefault => ?_
  dsimp only
  split <;> infer_instance

instance : KeepsIn input label := by unfold label; infer_instance

instance (n : Nat) : KeepsIn input (expressionStatement r n) := by unfold expressionStatement; infer_instance

instance (word : String) (n : Nat) : KeepsIn input (keywordStatement r word n) := by
  unfold keywordStatement
  split <;> infer_instance

instance : KeepsIn input (statement r) := by
  refine andThen inferInstance fun n => andThen inferInstance fun token => ?_
  split
  · infer_instance
  · split <;> infer_instance

end KeepsIn

instance Productions.keepIn_nest (n : Nat) : KeepIn input (.nest n) := by
  induction n with
  | zero =>
    have hstalled {α : Type} : KeepsIn input (stalled : Parser α) := inferInstance
    exact ⟨hstalled, hstalled, hstalled, fun _ => hstalled, hstalled, hstalled, hstalled⟩
  | succ n ih =>
    exact ⟨inferInstanceAs (KeepsIn input (typeOnly _)), inferInstanceAs (KeepsIn input (target _)),
      inferInstanceAs (KeepsIn input (unary _)),
      fun least => inferInstanceAs (KeepsIn input (binary _ least)),
      inferInstanceAs (KeepsIn input (assignment _)), inferInstanceAs (KeepsIn input (expression _)),
      inferInstanceAs (KeepsIn input (statement _))⟩

/-! ## Attempts at arrow functions -/

section Arrow

variable {r : Productions} [Productions.KeepIn input r] {c c' : Cursor}

/-- Parentheses never hold parameters where there are no arrows. -/
theorem arrowParameters?_eq_none (harrow : ∀ n : Nat, input.tokens[n]?.any (·.kind == .arrow) = false)
    (hc : c.noIn = false) : Runs input (arrowParameters? r) c none c := by
  have hkeeps := KeepsIn.arrowParameters?_keeps input r c
  rw [Runs]
  split at hkeeps
  · exact absurd hkeeps.1 (by simp [harrow])
  · next c' heq =>
    obtain ⟨hback, hkeeps⟩ := hkeeps
    rw [heq, hback, hkeeps.noIn_eq_false hc, ← hc]
  · exact hkeeps.elim

/-- Where there are no arrows no attempt at an arrow function succeeds, and none leaves anything behind. -/
theorem arrow?_eq_none [hinput : input.Unbraced] (hc : c.noIn = false) : Runs input (arrow? r) c none c := by
  have harrow (n : Nat) : input.tokens[n]?.any (·.kind == .arrow) = false := by
    cases htoken : input.tokens[n]? with
    | none => rfl
    | some t => simpa using hinput.arrow t (Array.mem_of_getElem? htoken)
  obtain ⟨n, hstart⟩ := Runs.exists_start input c
  refine hstart.bind ((Runs.peekKind c).bind ?_)
  split
  · refine (Runs.peekAt 1 c).bind ?_
    rw [if_neg (by simp [harrow])]
    exact .pure none c
  · exact (arrowParameters?_eq_none harrow hc).bind (.pure none c)
  · exact .pure none c

/-- Without an arrow function the cursor has not moved, or parentheses have been tried. -/
theorem keeps_of_no_arrow (h : arrow? r input c = .ok none c') :
    c' = c ∨ input.tokens[c.position]?.map (·.kind) = some .openParen ∧
      c' = { c with noIn := c'.noIn } ∧ input.Keeps c c' := by
  have hnone {c₀ : Cursor} (hrun : (pure none : Parser (Option Expr)) input c₀ = .ok none c') : c' = c₀ := by
    cases hrun
    rfl
  obtain ⟨n, hstart⟩ := Runs.exists_start input c
  rw [arrow?, hstart.bind_eq, (Runs.peekKind c).bind_eq] at h
  generalize input.tokens[c.position]?.map (·.kind) = next at h ⊢
  cases next with
  | none => exact .inl (hnone h)
  | some kind =>
    cases kind
    case identifier =>
      dsimp only at h
      rw [(Runs.peekAt 1 c).bind_eq] at h
      split at h
      · exact absurd rfl (ok_bind (P := fun a _ => a ≠ none) (fun _ => ok_return_some _) c none c' h)
      · exact .inl (hnone h)
    case openParen =>
      dsimp only at h
      have hkeeps := KeepsIn.arrowParameters?_keeps input r c
      split at hkeeps
      · next params c₁ heq =>
        rw [Runs.bind_eq (p := arrowParameters? r) heq] at h
        exact absurd rfl (ok_return_some _ c₁ none c' h)
      · next c₁ heq =>
        rw [Runs.bind_eq (p := arrowParameters? r) heq] at h
        obtain rfl := hnone h
        exact .inr ⟨rfl, hkeeps⟩
      · exact hkeeps.elim
    all_goals exact .inl (hnone h)

/-- A failed attempt at an arrow function gives back the place, the end of the last token and the next node number,
and where `in` is an operator it leaves nothing behind at all.  Inside the head of a `for` statement it may leave `in`
an operator, but only if the head of another one begins behind the parenthesis. -/
theorem kept_of_no_arrow (k : Nat) (h : arrow? (.nest k) input c = .ok none c') :
    c' = { c with noIn := c'.noIn } ∧ (c.noIn = false → c' = c) ∧
      (c' ≠ c → c'.noIn = false ∧ ∃ i, c.position < i ∧ input.ForHead i) := by
  rcases keeps_of_no_arrow h with rfl | ⟨hparen, hback, hkeeps⟩
  · exact ⟨rfl, fun _ => rfl, fun hne => absurd rfl hne⟩
  have hsame (hnoIn : c'.noIn = c.noIn) : c' = c := hback.trans (by rw [hnoIn])
  refine ⟨hback, fun hc => hsame ((hkeeps.noIn_eq_false hc).trans hc.symm), fun hne => ?_⟩
  obtain ⟨hfalse, i, hi, hhead⟩ := hkeeps.noIn.resolve_left fun hnoIn => hne (hsame hnoIn)
  refine ⟨hfalse, i, Nat.lt_of_le_of_ne hi ?_, hhead⟩
  -- the attempt begins with a parenthesis and not with a keyword
  rintro rfl
  obtain ⟨token, htoken, hkind⟩ := Option.map_eq_some_iff.1 hparen
  have hword := hhead.1
  rw [htoken] at hword
  simp [Token.isKeyword, hkind] at hword

/-- Where a parser that finds nothing leaves the cursor. -/
def leftWithout (input : Input) (p : Parser (Option α)) (c : Cursor) : Option Cursor :=
  match p input c with
  | .ok none c' => some c'
  | _ => none

theorem runs_of_leftWithout {p : Parser (Option α)} (h : leftWithout input p c = some c') : Runs input p c none c' := by
  rw [leftWithout] at h
  split at h
  · next heq => rw [Runs, heq, Option.some.inj h]
  · cases h

/-- A default value with a loop in it, and no arrow behind the parentheses. -/
def loopInside : Input :=
  let source := Source.inMemory "(f = function () \x7b for (;;); \x7d).x in o"
  ⟨source, (source.tokens.toOption.getD []).toArray⟩

/-- In the head of a `for` statement the attempt makes `in` an operator, because of the loop inside. -/
theorem kept_of_no_arrow_loopInside :
    arrow? (.nest 16) loopInside ⟨0, 0, 0, true⟩ = .ok none ⟨0, 0, 0, false⟩ ∧
      ∃ i, 0 < i ∧ loopInside.ForHead i := by
  have hleft : leftWithout loopInside (arrow? (.nest 16)) ⟨0, 0, 0, true⟩ = some ⟨0, 0, 0, false⟩ := by
    decide +kernel
  have hrun : Runs loopInside (arrow? (.nest 16)) ⟨0, 0, 0, true⟩ none ⟨0, 0, 0, false⟩ := runs_of_leftWithout hleft
  obtain ⟨-, -, hlost⟩ := kept_of_no_arrow 16 hrun
  exact ⟨hrun, (hlost (by decide)).2⟩

end Arrow

end Parser

end Whittle.Syntax
