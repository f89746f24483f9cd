import Mathlib.Data.List.Forall2
import Mathlib.Tactic.IntervalCases
import Whittle.Proofs.Syntax.Pieces

/-!
# Reading expressions

What it is for pieces to be read as an expression of a power, and one lemma for every construct.  An
expression is read where the next piece does not hold on to it.  Left operands are read on the way: a
parser that goes on behind one is described by what it does next.  What is read at one power is read at
every lower one.

Main statements: `Parser.Reads.mono`, `Parser.Reads.operator` and the other constructs, and
`Parser.Reads.statements`.
-/

namespace Whittle.Syntax

/-! ## Equal but for nodes -/

mutual

/-- The same expression, whatever its nodes are. -/
inductive Expr.Alike : Expr → Expr → Prop
  | name {n n' : Node} {i i' : Ident} (h : i.name = i'.name) : Expr.Alike (.name n i) (.name n' i')
  | literal {n n' : Node} {value : Literal} : Expr.Alike (.literal n value) (.literal n' value)
  | this {n n' : Node} : Expr.Alike (.this n) (.this n')
  | array {n n' : Node} {es es' : List Element} (h : List.Forall₂ Element.Alike es es') :
    Expr.Alike (.array n es) (.array n' es')
  | unary {n n' : Node} {op : UnaryOp} {e e' : Expr} (h : Expr.Alike e e') :
    Expr.Alike (.unary n op e) (.unary n' op e')
  | update {n n' : Node} {op : UpdateOp} {before : Bool} {e e' : Expr} (h : Expr.Alike e e') :
    Expr.Alike (.update n op before e) (.update n' op before e')
  | binary {n n' : Node} {op : BinaryOp} {l l' r r' : Expr} (hl : Expr.Alike l l') (hr : Expr.Alike r r') :
    Expr.Alike (.binary n op l r) (.binary n' op l' r')
  | logical {n n' : Node} {op : LogicalOp} {l l' r r' : Expr} (hl : Expr.Alike l l') (hr : Expr.Alike r r') :
    Expr.Alike (.logical n op l r) (.logical n' op l' r')
  | assign {n n' : Node} {op : AssignOp} {p p' : Pattern} {e e' : Expr} (hp : Pattern.Alike p p')
    (he : Expr.Alike e e') : Expr.Alike (.assign n op p e) (.assign n' op p' e')
  | conditional {n n' : Node} {t t' c c' a a' : Expr} (ht : Expr.Alike t t') (hc : Expr.Alike c c')
    (ha : Expr.Alike a a') :
    Expr.Alike (.conditional n t c a) (.conditional n' t' c' a')
  | call {n n' : Node} {e e' : Expr} {es es' : List Element} (he : Expr.Alike e e')
    (hes : List.Forall₂ Element.Alike es es') : Expr.Alike (.call n e es) (.call n' e' es')
  | member {n n' : Node} {e e' : Expr} {property : String} (h : Expr.Alike e e') :
    Expr.Alike (.member n e property) (.member n' e' property)
  | index {n n' : Node} {e e' p p' : Expr} (he : Expr.Alike e e') (hp : Expr.Alike p p') :
    Expr.Alike (.index n e p) (.index n' e' p')
  | sequence {n n' : Node} {es es' : List Expr} (h : List.Forall₂ Expr.Alike es es') :
    Expr.Alike (.sequence n es) (.sequence n' es')

/-- The same element, whatever its nodes are. -/
inductive Element.Alike : Element → Element → Prop
  | one {e e' : Expr} (h : Expr.Alike e e') : Element.Alike (.one e) (.one e')
  | spread {e e' : Expr} (h : Expr.Alike e e') : Element.Alike (.spread e) (.spread e')

/-- The same target, whatever its nodes are. -/
inductive Pattern.Alike : Pattern → Pattern → Prop
  | name {n n' : Node} {i i' : Ident} (h : i.name = i'.name) : Pattern.Alike (.name n i) (.name n' i')
  | expression {n n' : Node} {e e' : Expr} (h : Expr.Alike e e') :
    Pattern.Alike (.expression n e) (.expression n' e')

end

/-- The target that a name or a member is. -/
inductive Pattern.Targets : Pattern → Expr → Prop
  | name (n m : Node) (ident : Ident) : Targets (.name n ident) (.name m ident)
  | member (n m : Node) (object : Expr) (property : String) :
    Targets (.expression n (.member m object property)) (.member m object property)
  | index (n m : Node) (object property : Expr) :
    Targets (.expression n (.index m object property)) (.index m object property)

namespace Parser

variable {α β : Type} {input : Input}

/-! ## Levels of the grammar -/

/-- The production reads the pieces as the expression, where the next piece does not hold on to it. -/
def ReadsBy (input : Input) (p : Productions → Parser Expr) (power : Nat) (ps : List Piece) (e : Expr) :
    Prop :=
  ∀ (k : Nat) (x : Piece) (rest : List Piece), (ps ++ x :: rest).length ≤ k + 1 → grip x < hold power →
    Gives input (p (.nest k)) (ps ++ x :: rest) (x :: rest) e.Alike

/-- A parser that goes on with suffixes behind the pieces has read them as the expression. -/
def ReadsCall (input : Input) (ps : List Piece) (e : Expr) : Prop :=
  ∀ (k n : Nat) (x : Piece) (rest after : List Piece) (Q : Expr → Prop), (ps ++ x :: rest).length ≤ k + 1 →
    (∀ e' fuel, e.Alike e' → (x :: rest).length < fuel →
      Gives input (suffixes (.nest k) true n e' fuel) (x :: rest) after Q) →
    Gives input (primary (.nest k) >>= fun e' => rounds >>= fun fuel => suffixes (.nest k) true n e' fuel)
      (ps ++ x :: rest) after Q

/-- A parser that goes on with operators behind the pieces has read them as the expression. -/
def ReadsBinary (input : Input) (power : Nat) (ps : List Piece) (e : Expr) : Prop :=
  ∀ (k n least : Nat) (x : Piece) (rest after : List Piece) (Q : Expr → Prop), least ≤ power →
    (ps ++ x :: rest).length ≤ k + 1 → grip x < hold power →
    (∀ e' fuel, e.Alike e' → (x :: rest).length < fuel →
      Gives input (binaryRest (.nest k) least n e' fuel) (x :: rest) after Q) →
    Gives input (unary (.nest k) >>= fun e' => rounds >>= fun fuel => binaryRest (.nest k) least n e' fuel)
      (ps ++ x :: rest) after Q

/-- How pieces are read as an expression of a power. -/
def ReadsAt (input : Input) : (power : Nat) → List Piece → Expr → Prop
  | 1 => ReadsBy input expression Power.sequence
  | 2 => ReadsBy input assignment Power.assignment
  | 15 => ReadsBy input unary Power.unary
  | 16 => ReadsBy input postfixUpdate Power.afterOperand
  | 17 => ReadsCall input
  | 18 => ReadsBy input primary Power.primary
  | power => ReadsBinary input power

theorem ReadsBinary.toAt {power : Nat} {ps : List Piece} {e : Expr} (h : ReadsBinary input power ps e)
    (hlow : Power.test ≤ power) (hhigh : power < Power.unary) : ReadsAt input power ps e := by
  have hlow' : 3 ≤ power := hlow
  have hhigh' : power < 15 := hhigh
  interval_cases power <;> exact h

theorem ReadsAt.binary {power : Nat} {ps : List Piece} {e : Expr} (h : ReadsAt input power ps e)
    (hlow : Power.test ≤ power) (hhigh : power < Power.unary) : ReadsBinary input power ps e := by
  have hlow' : 3 ≤ power := hlow
  have hhigh' : power < 15 := hhigh
  interval_cases power <;> exact h

/-! ### From one level to the next -/

section Promotion

variable {p : Productions → Parser Expr} {power k : Nat} {x : Piece} {ps rest : List Piece} {e : Expr}

/-- A production that is called again has one level less below it and one piece less in front of it. -/
theorem ReadsBy.nested (h : ReadsBy input p power ps e) (field : Productions → Parser Expr)
    (hfield : ∀ k, field (.nest (k + 1)) = p (.nest k)) (hlength : (ps ++ x :: rest).length ≤ k)
    (hx : grip x < hold power) : Gives input (field (.nest k)) (ps ++ x :: rest) (x :: rest) e.Alike := by
  cases k with
  | zero => simp at hlength
  | succ k =>
    rw [hfield]
    exact h k x rest hlength hx

theorem ReadsBy.call (h : ReadsBy input primary Power.primary ps e) : ReadsCall input ps e := by
  intro k n x rest after Q hlength hnext
  refine (h k x rest hlength (grip_lt_hold_primary x)).bind fun e' he' => ?_
  exact Gives.rounds.bind fun fuel hfuel => hnext e' fuel he' hfuel

theorem ReadsBy.binary (h : ReadsBy input unary Power.unary ps e) (hpower : power ≤ Power.unary) :
    ReadsBinary input power ps e := by
  intro k n least x rest after Q _ hlength hx hnext
  refine (h k x rest hlength (Nat.lt_of_lt_of_le hx (hold_le_hold hpower))).bind fun e' he' => ?_
  exact Gives.rounds.bind fun fuel hfuel => hnext e' fuel he' hfuel

theorem ReadsBinary.mono {power' : Nat} (h : ReadsBinary input power ps e) (hpower : power' ≤ power) :
    ReadsBinary input power' ps e :=
  fun k n least x rest after Q hleast hlength hx =>
    h k n least x rest after Q (hleast.trans hpower) hlength (Nat.lt_of_lt_of_le hx (hold_le_hold hpower))

variable [input.Plain]

/-- An operand is read up to the next operator that does not bind more tightly. -/
theorem ReadsBinary.stop (h : ReadsBinary input power ps e) {least : Nat} (hleast : least ≤ power)
    (hlength : (ps ++ x :: rest).length ≤ k + 1) (hx : grip x < hold power)
    (hstop : grip x < least ∨ grip x < Power.test) :
    Gives input (Parser.binary (.nest k) least) (ps ++ x :: rest) (x :: rest) e.Alike := by
  refine Gives.start.bind fun n _ => h k n least x rest _ _ hleast hlength hx fun e' fuel he' hfuel => ?_
  refine (Gives.binaryRest_stop hstop n (by omega)).mono ?_
  rintro _ rfl
  exact he'

theorem ReadsBinary.nested (h : ReadsBinary input power ps e) (hlength : (ps ++ x :: rest).length ≤ k)
    (hx : grip x < hold power) (hstop : grip x < power) :
    Gives input ((Productions.nest k).binary power) (ps ++ x :: rest) (x :: rest) e.Alike := by
  cases k with
  | zero => simp at hlength
  | succ k => exact h.stop (Nat.le_refl _) hlength hx (.inl hstop)

/-- A test is read up to the question mark or what else follows. -/
theorem ReadsBinary.conditional (h : ReadsBinary input Power.test ps e)
    (hlength : (ps ++ x :: rest).length ≤ k + 1) (hx : grip x < Power.test) (hquestion : x.1 ≠ .question) :
    Gives input (Parser.conditional (.nest k)) (ps ++ x :: rest) (x :: rest) e.Alike := by
  refine Gives.start.bind fun n _ => ?_
  refine (h.stop (Nat.zero_le _) hlength (Nat.lt_succ_of_lt hx) (.inr hx)).bind fun e' he' => ?_
  refine (Gives.eat_of_ne hquestion).bind ?_
  rintro _ rfl
  exact .pure he'

/-- Without an assignment sign behind it, what may be the left side of an assignment is all there is. -/
theorem Gives.assignment (h : Gives input (Parser.conditional (.nest k)) ps (x :: rest) e.Alike)
    (hx : grip x < hold Power.assignment) :
    Gives input (Parser.assignment (.nest k)) ps (x :: rest) e.Alike := by
  have hkind : x.1 ≠ .assignment := kind_ne_of_grip_lt hx fun _ => Nat.le_refl _
  refine Gives.start.bind fun n _ => (Gives.arrow? k).bind ?_
  rintro _ rfl
  refine h.bind fun e' he' => Gives.peek.bind ?_
  rintro _ ⟨span, rfl⟩
  simp only [bne_iff_ne.2 hkind, if_true]
  exact .pure he'

theorem ReadsBinary.assignment (h : ReadsBinary input Power.test ps e) :
    ReadsBy input assignment Power.assignment ps e := by
  intro k x rest hlength hx
  have hkind : x.1 ≠ .question := kind_ne_of_grip_lt hx fun _ => Nat.le_refl _
  exact Gives.assignment (h.conditional hlength (Nat.lt_succ_of_lt hx) hkind) hx

theorem ReadsBy.expression (h : ReadsBy input assignment Power.assignment ps e) :
    ReadsBy input expression Power.sequence ps e := by
  intro k x rest hlength hx
  have hkind : x.1 ≠ .comma := kind_ne_of_grip_lt hx fun _ => Nat.le_refl _
  refine Gives.start.bind fun n _ => (h k x rest hlength (Nat.lt_succ_of_lt hx)).bind fun e' he' => ?_
  refine (Gives.atKind .comma).bind ?_
  rintro _ rfl
  rw [if_neg (by simpa using hkind)]
  exact .pure he'

/-! The upper levels are told apart by their first piece. -/

theorem ReadsCall.callMember (h : ReadsCall input ps e)
    (hbegins : ∃ y qs, ps = y :: qs ∧ Begins Power.afterOperand y)
    (hlength : (ps ++ x :: rest).length ≤ k + 1) (hx : grip x < Power.call) :
    Gives input (callMember (.nest k)) (ps ++ x :: rest) (x :: rest) e.Alike := by
  obtain ⟨y, qs, rfl, hy⟩ := hbegins
  refine Gives.start.bind fun n _ => (Gives.nextIs fun _ => hy.not_new).bind ?_
  rintro _ rfl
  refine h k n x rest _ _ hlength fun e' fuel he' hfuel => ?_
  refine (Gives.suffixes_stop hx true n (by omega)).mono ?_
  rintro _ rfl
  exact he'

theorem ReadsCall.postfixUpdate (h : ReadsCall input ps e)
    (hbegins : ∃ y qs, ps = y :: qs ∧ Begins Power.afterOperand y) :
    ReadsBy input postfixUpdate Power.afterOperand ps e := by
  intro k x rest hlength hx
  refine Gives.start.bind fun n _ => ?_
  refine (h.callMember hbegins hlength (Nat.lt_succ_of_lt hx)).bind fun e' he' => Gives.peek.bind ?_
  rintro _ ⟨span, rfl⟩
  have hkind : updateOp? x.1 = none := by
    obtain ⟨kind, text⟩ := x
    cases kind
    case plusPlus | minusMinus => exact absurd hx (Nat.lt_irrefl _)
    all_goals rfl
  simp only [Bool.false_eq_true, if_false, hkind]
  exact .pure he'

theorem ReadsBy.unary (h : ReadsBy input postfixUpdate Power.afterOperand ps e)
    (hbegins : ∃ y qs, ps = y :: qs ∧ Begins Power.afterOperand y) :
    ReadsBy input unary Power.unary ps e := by
  intro k x rest hlength hx
  obtain ⟨y, qs, rfl, hy⟩ := hbegins
  refine Gives.start.bind fun n _ => Gives.peek.bind ?_
  rintro _ ⟨span, rfl⟩
  simp only [hy.updateOp?_eq_none, hy.unaryOp?_eq_none]
  exact h k x rest hlength (Nat.lt_succ_of_lt hx)

end Promotion

/-! ## Reading at a power -/

/-- The pieces are read as the expression by the productions for its power. -/
structure Reads (input : Input) (power : Nat) (ps : List Piece) (e : Expr) : Prop where
  begins : ∃ y qs, ps = y :: qs ∧ Begins power y
  reads : ReadsAt input power ps e

namespace Reads

variable [input.Plain] {power power' : Nat} {ps : List Piece} {e : Expr}

/-- What is read at one power is read at the next lower one. -/
theorem pred (h : Reads input (power + 1) ps e) (hlow : 1 ≤ power) (hhigh : power ≤ 17) :
    Reads input power ps e := by
  obtain ⟨⟨y, qs, rfl, hy⟩, hreads⟩ := h
  have hbegins : ∃ z rs, y :: qs = z :: rs ∧ Begins power z := ⟨y, qs, rfl, hy.mono (Nat.le_succ _)⟩
  refine ⟨hbegins, ?_⟩
  -- between the powers at which another production takes over there are only operators
  interval_cases power
  case «1» => exact ReadsBy.expression hreads
  case «2» => exact ReadsBinary.assignment hreads
  case «14» => exact ReadsBy.binary hreads (by decide)
  case «15» => exact ReadsBy.unary hreads ⟨y, qs, rfl, hy⟩
  case «16» => exact ReadsCall.postfixUpdate hreads hbegins
  case «17» => exact ReadsBy.call hreads
  all_goals exact ReadsBinary.mono hreads (Nat.le_succ _)

theorem mono (h : Reads input power ps e) (hle : power' ≤ power) (hlow : 1 ≤ power') (hhigh : power ≤ 18) :
    Reads input power' ps e := by
  induction hle with
  | refl => exact h
  | @step power hle ih => exact ih (h.pred (hlow.trans hle) (by omega)) (by omega)

theorem binary (h : Reads input power ps e) (hlow : Power.test ≤ power') (hhigh : power' ≤ Power.unary)
    (hle : power' ≤ power) (hpower : power ≤ Power.primary) : ReadsBinary input power' ps e := by
  by_cases hunary : power' = Power.unary
  · subst hunary
    exact ReadsBy.binary (h.mono hle (by decide) hpower).reads hhigh
  · exact (h.mono hle (Nat.le_trans (by decide) hlow) hpower).reads.binary hlow
      (Nat.lt_of_le_of_ne hhigh hunary)

end Reads

/-! ## Constructs -/

/-- Pieces in parentheses. -/
def parens (ps : List Piece) : List Piece := (.openParen, "(") :: (ps ++ [(.closeParen, ")")])

/-- Pieces in brackets. -/
def brackets (ps : List Piece) : List Piece := (.openBracket, "[") :: (ps ++ [(.closeBracket, "]")])

/-- Pieces between commas. -/
def commaed : List (List Piece) → List Piece
  | [] => []
  | ps :: pss => ps ++ pss.flatMap ((.comma, ",") :: ·)

theorem parens_append (ps rest : List Piece) :
    parens ps ++ rest = (.openParen, "(") :: (ps ++ (.closeParen, ")") :: rest) := by
  simp [parens]

theorem brackets_append (ps rest : List Piece) :
    brackets ps ++ rest = (.openBracket, "[") :: (ps ++ (.closeBracket, "]") :: rest) := by
  simp [brackets]

namespace Reads

variable {power k : Nat} {x : Piece} {ps qs rest : List Piece} {pss : List (List Piece)} {e : Expr}

/-- What begins with an expression begins like it. -/
theorem begins_append (h : Reads input power ps e) (qs : List Piece) :
    ∃ y rs, ps ++ qs = y :: rs ∧ Begins power y := by
  obtain ⟨y, ps, rfl, hy⟩ := h.begins
  exact ⟨y, ps ++ qs, rfl, hy⟩

variable [input.Plain]

theorem parens (h : Reads input Power.sequence ps e) : Reads input Power.primary (Parser.parens ps) e := by
  refine ⟨⟨_, _, rfl, .paren⟩, fun k x rest hlength _ => ?_⟩
  rw [parens_append] at hlength ⊢
  refine Gives.start.bind fun n _ => Gives.peek.bind ?_
  rintro _ ⟨span, rfl⟩
  refine Gives.skip.bind fun _ _ => ?_
  refine (ReadsBy.nested h.reads Productions.expression (fun _ => rfl) (Nat.le_of_succ_le_succ hlength)
    Nat.one_pos).allowingIn.bind fun e' he' => ?_
  exact (Gives.expect _ _ _).bind fun _ _ => .pure he'

theorem name (n : Node) (i : Ident) : Reads input Power.primary [(.identifier, i.name)] (.name n i) := by
  refine ⟨⟨_, _, rfl, .name _⟩, fun k x rest _ _ => ?_⟩
  refine Gives.start.bind fun m _ => Gives.peek.bind ?_
  rintro _ ⟨span, rfl⟩
  refine (Gives.ident _).bind fun i' hi' => (Gives.nodeFrom m).bind fun n' _ => ?_
  exact .pure (.name hi'.symm)

theorem string (n : Node) (s : String) :
    Reads input Power.primary [(.string, Text.quote s)] (.literal n (.string s)) := by
  refine ⟨⟨_, _, rfl, .string _⟩, fun k x rest _ _ => ?_⟩
  refine Gives.start.bind fun m _ => Gives.peek.bind ?_
  rintro _ ⟨span, rfl⟩
  refine (Gives.string s).bind ?_
  rintro _ rfl
  exact (Gives.nodeFrom m).bind fun n' _ => .pure .literal

/-- A keyword that is an expression. -/
theorem keyword {text : String} (htext : text ∈ ["true", "false", "null", "this"]) {make : Node → Expr}
    (hmake : ∀ (r : Productions) (span : Span) (m : Nat),
      keywordPrimary r ⟨.keyword, span, false, text⟩ m = do
        Parser.skip
        return make (← Parser.nodeFrom m))
    (halike : ∀ n', e.Alike (make n')) : Reads input Power.primary [(.keyword, text)] e := by
  refine ⟨⟨_, _, rfl, .word text htext⟩, fun k x rest _ _ => ?_⟩
  refine Gives.start.bind fun m _ => Gives.peek.bind ?_
  rintro _ ⟨span, rfl⟩
  simp only [hmake]
  exact Gives.skip.bind fun _ _ => (Gives.nodeFrom m).bind fun n' _ => .pure (halike n')

theorem boolean (n : Node) (b : Bool) :
    Reads input Power.primary [(.keyword, if b then "true" else "false")] (.literal n (.boolean b)) := by
  cases b with
  | true => exact keyword (by decide) (fun _ _ _ => rfl) fun _ => .literal
  | false => exact keyword (by decide) (fun _ _ _ => rfl) fun _ => .literal

theorem null (n : Node) : Reads input Power.primary [(.keyword, "null")] (.literal n .null) :=
  keyword (by decide) (fun _ _ _ => rfl) fun _ => .literal

theorem this (n : Node) : Reads input Power.primary [(.keyword, "this")] (.this n) :=
  keyword (by decide) (fun _ _ _ => rfl) fun _ => .this

end Reads

/-! ### Lists -/

section Lists

variable [input.Plain] {k : Nat} {x : Piece} {ps qs rest : List Piece} {pss : List (List Piece)} {e : Expr}

/-- The pieces are read as an item by the parser, and do not end the list. -/
def ReadsItem (input : Input) (item : Parser β) (R : α → β → Prop) (close : TokenKind) (k : Nat)
    (ps : List Piece) (a : α) : Prop :=
  (∃ y qs, ps = y :: qs ∧ y.1 ≠ close) ∧
    ∀ x rest, (ps ++ x :: rest).length ≤ k → grip x < hold Power.assignment →
      Gives input item (ps ++ x :: rest) (x :: rest) (R a)

/-- What a list parser does for one item. -/
def listRound (close : TokenKind) (item : Parser β) : Parser (Round β) := do
  if ← atKind close then return .stop
  let a ← item
  if ← eat .comma then return .more a else return .last a

/-- An item between commas, or the last one. -/
theorem ReadsItem.round {item : Parser β} {R : α → β → Prop} {close : TokenKind} {a : α} {b : Bool}
    {after : List Piece} (h : ReadsItem input item R close k ps a) (hlength : (ps ++ x :: rest).length ≤ k)
    (hx : grip x < hold Power.assignment)
    (hcomma : Gives input (Parser.eat .comma) (x :: rest) after fun b' => b' = b) :
    Gives input (listRound close item) (ps ++ x :: rest) after fun found =>
      ∃ a', R a a' ∧ found = if b then .more a' else .last a' := by
  obtain ⟨⟨y, ps, rfl, hy⟩, hread⟩ := h
  refine (Gives.atKind close).bind ?_
  rintro _ rfl
  simp only [beq_eq_false_iff_ne.2 hy, Bool.false_eq_true, if_false]
  refine (hread x rest hlength hx).bind fun a' ha' => hcomma.bind ?_
  rintro b rfl
  cases b with
  | true => exact .pure ⟨a', ha', rfl⟩
  | false => exact .pure ⟨a', ha', rfl⟩

/-- Items between commas are read one by one. -/
theorem Gives.collect {item : Parser β} {R : α → β → Prop} {close : TokenKind} (s : String)
    (hclose : close = .closeParen ∨ close = .closeBracket) {as : List α}
    (hitems : List.Forall₂ (ReadsItem input item R close k) pss as)
    (hlength : (commaed pss ++ (close, s) :: rest).length ≤ k) {fuel : Nat}
    (hfuel : (commaed pss ++ (close, s) :: rest).length < fuel) :
    Gives input (Parser.collect (listRound close item) fuel) (commaed pss ++ (close, s) :: rest)
      ((close, s) :: rest) (List.Forall₂ R as) := by
  have hcomma : close ≠ .comma := by rcases hclose with rfl | rfl <;> decide
  have hgrip : grip (close, s) = 0 := by rcases hclose with rfl | rfl <;> rfl
  induction hitems generalizing fuel with
  | nil =>
    obtain ⟨fuel, rfl⟩ := Nat.exists_eq_add_of_lt hfuel
    have hround : Gives input (listRound close item) ((close, s) :: rest) ((close, s) :: rest)
        fun found => found = .stop := by
      refine (Gives.atKind close).bind ?_
      rintro _ rfl
      rw [if_pos (beq_self_eq_true close)]
      exact .pure rfl
    refine hround.bind ?_
    rintro _ rfl
    exact .pure .nil
  | @cons ps a pss as hitem hitems ih =>
    obtain ⟨fuel, rfl⟩ := Nat.exists_eq_add_of_lt hfuel
    -- either the list ends behind the item or a comma and the next item follow
    cases hitems with
    | nil =>
      simp only [commaed, List.flatMap_nil, List.append_nil] at hlength ⊢
      refine (hitem.round hlength (hgrip ▸ Nat.two_pos) (.eat_of_ne hcomma)).bind ?_
      rintro _ ⟨a', ha', rfl⟩
      exact .pure (.cons ha' .nil)
    | @cons qs b pss bs hnext hitems =>
      have hpieces : commaed (ps :: qs :: pss) ++ (close, s) :: rest =
          ps ++ (.comma, ",") :: (commaed (qs :: pss) ++ (close, s) :: rest) := by
        simp [commaed]
      rw [hpieces] at hlength hfuel ⊢
      refine (hitem.round hlength (show grip (.comma, ",") < 2 from Nat.one_lt_two) (.eat .comma ",")).bind ?_
      rintro _ ⟨a', ha', rfl⟩
      simp only [List.length_append, List.length_cons] at hlength ih
      refine Gives.bind (ih (by omega) ?_) fun as' has' => .pure (.cons ha' has')
      simp only [List.length_append, List.length_cons]
      omega

theorem Gives.separated {item : Parser β} {R : α → β → Prop} {close : TokenKind} (s : String)
    (hclose : close = .closeParen ∨ close = .closeBracket) {as : List α}
    (hitems : List.Forall₂ (ReadsItem input item R close k) pss as)
    (hlength : (commaed pss ++ (close, s) :: rest).length ≤ k) :
    Gives input (Parser.separated close item) (commaed pss ++ (close, s) :: rest) ((close, s) :: rest)
      (List.Forall₂ R as) :=
  Gives.rounds.bind fun _ hfuel => Gives.collect s hclose hitems hlength hfuel

/-- The pieces are read as an element of a list. -/
def ReadsElement (input : Input) (ps : List Piece) (e : Element) : Prop :=
  (∃ y qs, ps = y :: qs ∧ y.1 ∉ [TokenKind.closeParen, .closeBracket, .comma]) ∧
    ∀ (k : Nat) (x : Piece) (rest : List Piece),
      (ps ++ x :: rest).length ≤ k → grip x < hold Power.assignment →
      Gives input (element (.nest k)) (ps ++ x :: rest) (x :: rest) e.Alike

theorem Reads.one (h : Reads input Power.assignment ps e) : ReadsElement input ps (.one e) := by
  obtain ⟨⟨y, qs, rfl, hy⟩, hreads⟩ := h
  have hkinds : ∀ kind ∈ [TokenKind.identifier, .string, .openParen, .openBracket, .keyword, .operator,
      .plusPlus, .minusMinus], kind ≠ .ellipsis ∧ kind ∉ [TokenKind.closeParen, .closeBracket, .comma] := by
    decide
  obtain ⟨hellipsis, hkind⟩ := hkinds y.1 hy.kind_mem
  refine ⟨⟨y, qs, rfl, hkind⟩, fun k x rest hlength hx => ?_⟩
  refine (Gives.eat_of_ne hellipsis).bind ?_
  rintro _ rfl
  exact (ReadsBy.nested hreads Productions.assignment (fun _ => rfl) hlength hx).bind fun e' he' =>
    .pure (.one he')

theorem Reads.spread (h : Reads input Power.assignment ps e) :
    ReadsElement input ((.ellipsis, "...") :: ps) (.spread e) := by
  refine ⟨⟨_, ps, rfl, by decide⟩, fun k x rest hlength hx => ?_⟩
  refine (Gives.eat .ellipsis "...").bind ?_
  rintro _ rfl
  exact (ReadsBy.nested h.reads Productions.assignment (fun _ => rfl) (Nat.le_of_succ_le hlength) hx).bind
    fun e' he' => .pure (.spread he')

theorem Reads.array {es : List Element} (h : List.Forall₂ (ReadsElement input) pss es) (n : Node) :
    Reads input Power.primary (brackets (commaed pss)) (.array n es) := by
  refine ⟨⟨_, _, rfl, .bracket⟩, fun k x rest hlength _ => ?_⟩
  rw [brackets_append] at hlength ⊢
  refine Gives.start.bind fun m _ => Gives.peek.bind ?_
  rintro _ ⟨span, rfl⟩
  refine Gives.bind (Q := List.Forall₂ Element.Alike es) ?_ fun es' hes' =>
    (Gives.nodeFrom m).bind fun n' _ => .pure (.array hes')
  refine (Gives.expect .openBracket "[" _).bind fun _ _ => ?_
  refine (Gives.separated "]" (.inr rfl) (h.imp fun ps e he => ?_)
    (Nat.le_of_succ_le_succ hlength)).bind fun es' hes' => (Gives.expect _ _ _).bind fun _ _ => .pure hes'
  obtain ⟨⟨y, qs, rfl, hy⟩, hread⟩ := he
  refine ⟨⟨y, qs, rfl, fun hclose => hy (by simp [hclose])⟩, fun x rest hlength hx => ?_⟩
  refine (Gives.atKind .comma).bind ?_
  rintro _ rfl
  rw [if_neg (fun hcomma => hy (by simp [eq_of_beq hcomma]))]
  exact hread k x rest hlength hx

theorem Gives.arguments {es : List Element} (h : List.Forall₂ (ReadsElement input) pss es)
    (hlength : (commaed pss ++ (.closeParen, ")") :: rest).length ≤ k) :
    Gives input (Parser.arguments (.nest k))
      ((.openParen, "(") :: (commaed pss ++ (.closeParen, ")") :: rest)) rest
      (List.Forall₂ Element.Alike es) := by
  refine (Gives.expect .openParen "(" _).bind fun _ _ => ?_
  refine (Gives.separated ")" (.inl rfl) (h.imp fun ps e he => ?_) hlength).bind fun es' hes' =>
    (Gives.expect _ _ _).bind fun _ _ => .pure hes'
  obtain ⟨⟨y, qs, rfl, hy⟩, hread⟩ := he
  exact ⟨⟨y, qs, rfl, fun hclose => hy (by simp [hclose])⟩, fun x rest => hread k x rest⟩

end Lists

namespace Reads

variable [input.Plain] {power k : Nat} {x : Piece} {ps qs rest : List Piece} {pss : List (List Piece)}
  {e : Expr}

/-! ### Calls and members -/

theorem member (h : Reads input Power.call ps e) (n : Node) {kind : TokenKind}
    (hkind : kind = .identifier ∨ kind = .keyword) (property : String) :
    Reads input Power.call (ps ++ [(.dot, "."), (kind, property)]) (.member n e property) := by
  refine ⟨h.begins_append _, fun k m x rest after Q hlength hnext => ?_⟩
  rw [List.append_assoc] at hlength ⊢
  refine h.reads k m (.dot, ".") ((kind, property) :: x :: rest) after Q hlength fun e' fuel he' hfuel => ?_
  obtain ⟨fuel, rfl⟩ := Nat.exists_eq_add_of_lt hfuel
  refine Gives.peekKind.bind ?_
  rintro _ rfl
  refine Gives.skip.bind fun _ _ => (Gives.word hkind property).bind ?_
  rintro i rfl
  refine (Gives.nodeFrom m).bind fun n' _ => hnext _ _ (.member he') ?_
  simp only [List.length_cons]
  omega

theorem index {p : Expr} (h : Reads input Power.call ps e) (hp : Reads input Power.sequence qs p) (n : Node) :
    Reads input Power.call (ps ++ brackets qs) (.index n e p) := by
  refine ⟨h.begins_append _, fun k m x rest after Q hlength hnext => ?_⟩
  rw [List.append_assoc, brackets_append] at hlength ⊢
  refine h.reads k m _ _ after Q hlength fun e' fuel he' hfuel => ?_
  obtain ⟨fuel, rfl⟩ := Nat.exists_eq_add_of_lt hfuel
  refine Gives.peekKind.bind ?_
  rintro _ rfl
  refine Gives.skip.bind fun _ _ => ?_
  simp only [List.length_append, List.length_cons] at hlength
  refine (ReadsBy.nested hp.reads Productions.expression (fun _ => rfl) ?_
    (show grip (.closeBracket, "]") < hold Power.sequence from Nat.one_pos)).bind fun p' hp' => ?_
  · simp only [List.length_append, List.length_cons]
    omega
  refine (Gives.expect _ _ _).bind fun _ _ => (Gives.nodeFrom m).bind fun n' _ => ?_
  refine hnext _ _ (.index he' hp') ?_
  simp only [List.length_append, List.length_cons]
  omega

theorem call {es : List Element} (h : Reads input Power.call ps e)
    (hes : List.Forall₂ (ReadsElement input) pss es) (n : Node) :
    Reads input Power.call (ps ++ Parser.parens (commaed pss)) (.call n e es) := by
  refine ⟨h.begins_append _, fun k m x rest after Q hlength hnext => ?_⟩
  rw [List.append_assoc, parens_append] at hlength ⊢
  refine h.reads k m _ _ after Q hlength fun e' fuel he' hfuel => ?_
  obtain ⟨fuel, rfl⟩ := Nat.exists_eq_add_of_lt hfuel
  refine Gives.peekKind.bind ?_
  rintro _ rfl
  simp only [List.length_append, List.length_cons] at hlength
  refine Gives.bind (Gives.arguments hes ?_) fun es' hes' => ?_
  · simp only [List.length_append, List.length_cons]
    omega
  refine (Gives.nodeFrom m).bind fun n' _ => hnext _ _ (.call he' hes') ?_
  simp only [List.length_append, List.length_cons]
  omega

/-! ### Operators -/

theorem updateOp?_piece (op : UpdateOp) : updateOp? op.piece.1 = some op := by
  cases op <;> rfl

theorem updateAfter (h : Reads input Power.call ps e) (n : Node) (op : UpdateOp) :
    Reads input Power.afterOperand (ps ++ [op.piece]) (.update n op false e) := by
  have hbegins := (h.mono (show Power.afterOperand ≤ Power.call by decide) (by decide) (by decide)).begins
  have hgrip : grip op.piece < Power.call := by cases op <;> decide
  refine ⟨?_, fun k x rest hlength _ => ?_⟩
  · obtain ⟨y, qs, rfl, hy⟩ := hbegins
    exact ⟨y, _, rfl, hy⟩
  rw [List.append_assoc] at hlength ⊢
  refine Gives.start.bind fun m _ => ?_
  refine (ReadsCall.callMember h.reads hbegins hlength hgrip).bind fun e' he' => Gives.peek.bind ?_
  rintro _ ⟨span, rfl⟩
  simp only [updateOp?_piece, Bool.false_eq_true, if_false]
  exact Gives.skip.bind fun _ _ => (Gives.nodeFrom m).bind fun n' _ => .pure (.update he')

theorem updateBefore (h : Reads input Power.unary ps e) (n : Node) (op : UpdateOp) :
    Reads input Power.unary (op.piece :: ps) (.update n op true e) := by
  refine ⟨⟨_, _, rfl, .update (Nat.le_refl _) op⟩, fun k x rest hlength hx => ?_⟩
  refine Gives.start.bind fun m _ => Gives.peek.bind ?_
  rintro _ ⟨span, rfl⟩
  simp only [updateOp?_piece]
  refine Gives.skip.bind fun _ _ => ?_
  refine (ReadsBy.nested h.reads Productions.unary (fun _ => rfl) (Nat.le_of_succ_le_succ hlength) hx).bind
    fun e' he' => (Gives.nodeFrom m).bind fun n' _ => .pure (.update he')

theorem unary (h : Reads input Power.unary ps e) (n : Node) (op : UnaryOp) :
    Reads input Power.unary (op.piece :: ps) (.unary n op e) := by
  refine ⟨⟨_, _, rfl, .unary (Nat.le_refl _) op⟩, fun k x rest hlength hx => ?_⟩
  refine Gives.start.bind fun m _ => Gives.peek.bind ?_
  rintro _ ⟨span, rfl⟩
  have hupdate : updateOp? op.piece.1 = none := by cases op <;> rfl
  have hunary : unaryOp? ⟨op.piece.1, span, false, op.piece.2⟩ = some op := by cases op <;> rfl
  simp only [hupdate, hunary]
  refine Gives.skip.bind fun _ _ => ?_
  refine (ReadsBy.nested h.reads Productions.unary (fun _ => rfl) (Nat.le_of_succ_le_succ hlength) hx).bind
    fun e' he' => (Gives.nodeFrom m).bind fun n' _ => .pure (.unary he')

end Reads

/-- The piece that an operator between two operands is. -/
def InfixOp.piece : InfixOp → Piece
  | .binary op => op.piece
  | .logical op => op.piece

theorem InfixOp.ofToken?_piece (op : InfixOp) (span : Span) :
    ofToken? false ⟨op.piece.1, span, false, op.piece.2⟩ = some op := by
  rcases op with op | op <;> cases op <;> rfl

/-- The left operand is read on the way to the operator, the right one up to what does not bind more
tightly. -/
theorem ReadsBinary.operator [input.Plain] {power : Nat} {ps qs : List Piece} {l r : Expr} (op : InfixOp)
    (hl : ReadsBinary input power ps l) (hpower : op.precedence ≤ power) (hhold : op.precedence < hold power)
    (hr : ReadsBinary input op.rightPrecedence qs r) (n : Node) :
    ReadsBinary input op.precedence (ps ++ op.piece :: qs) (op.apply n l r) := by
  intro k m least x rest after Q hleast hlength hx hnext
  rw [List.append_assoc, List.cons_append] at hlength ⊢
  have hgrip : grip op.piece = op.precedence := grip_eq_precedence (op.ofToken?_piece ⟨0, 0⟩)
  -- behind the left operand the parser finds the operator, reads the right operand and goes on
  refine hl k m least _ _ after Q (hleast.trans hpower) hlength (hgrip ▸ hhold) fun l' fuel hl' hfuel => ?_
  obtain ⟨fuel, rfl⟩ := Nat.exists_eq_add_of_lt hfuel
  refine Gives.peek.bind ?_
  rintro _ ⟨span, rfl⟩
  refine Gives.get.bind fun c hc => ?_
  simp only [hc, Option.bind_some, op.ofToken?_piece, if_neg (Nat.not_lt.2 hleast)]
  refine Gives.skip.bind fun _ _ => ?_
  have hstop : grip x < op.rightPrecedence := op.hold_precedence ▸ hx
  have hx' : grip x < hold op.rightPrecedence :=
    Nat.lt_of_lt_of_le hx (hold_le_hold op.precedence_le_rightPrecedence)
  simp only [List.length_append, List.length_cons] at hlength
  refine (hr.nested ?_ hx' hstop).bind fun r' hr' => (Gives.nodeFrom m).bind fun n' _ => ?_
  · simp only [List.length_append, List.length_cons]
    omega
  refine hnext _ _ ?_ ?_
  · cases op with
    | binary op => exact .binary hl' hr'
    | logical op => exact .logical hl' hr'
  · simp only [List.length_append, List.length_cons]
    omega

theorem Reads.operator [input.Plain] {power power' : Nat} {ps qs : List Piece} {l r : Expr} (op : InfixOp)
    (hl : Reads input power ps l) (hpower : op.precedence ≤ power) (hhold : op.precedence < hold power)
    (hr : Reads input power' qs r) (hpower' : op.rightPrecedence ≤ power') (n : Node)
    (hhigh : power ≤ Power.primary) (hhigh' : power' ≤ Power.primary) :
    Reads input op.precedence (ps ++ op.piece :: qs) (op.apply n l r) := by
  have htest := op.test_le_precedence
  have hunary := op.precedence_lt_unary
  refine ⟨(hl.mono hpower (Nat.le_trans (by decide) htest) hhigh).begins_append _, ?_⟩
  have hright := hr.binary (htest.trans op.precedence_le_rightPrecedence)
    (op.hold_precedence ▸ hold_le_hold (Nat.le_of_lt hunary)) hpower' hhigh'
  -- an operand that no operator takes hold of is read as that of a unary one
  have hleft : ReadsBinary input (min power Power.unary) ps l :=
    hl.binary (by omega) (Nat.min_le_right _ _) (Nat.min_le_left _ _) hhigh
  have hmin : op.precedence < hold (min power Power.unary) := by
    rcases Nat.le_total power Power.unary with h | h
    · rwa [Nat.min_eq_left h]
    · rwa [Nat.min_eq_right h]
  exact (hleft.operator op (by omega) hmin hright n).toAt htest hunary

section Lists

variable [input.Plain] {power k : Nat} {x : Piece} {ps qs rest : List Piece} {pss : List (List Piece)}
  {e : Expr}

/-! ### Conditionals, assignments and sequences -/

theorem Reads.conditional {t c a : Expr} {cs as : List Piece} (ht : Reads input Power.test ps t)
    (hc : Reads input Power.assignment cs c) (ha : Reads input Power.assignment as a) (n : Node) :
    Reads input Power.assignment (ps ++ (.question, "?") :: (cs ++ (.colon, ":") :: as))
      (.conditional n t c a) := by
  refine ⟨(ht.mono (show Power.assignment ≤ Power.test by decide) (by decide) (by decide)).begins_append _,
    fun k x rest hlength hx => ?_⟩
  simp only [List.append_assoc, List.cons_append] at hlength ⊢
  refine Gives.assignment (Gives.start.bind fun m _ => ?_) hx
  refine (ReadsBinary.stop ht.reads (Nat.zero_le _) hlength (show 2 < 4 by decide)
    (.inr (show 2 < 3 by decide))).bind fun t' ht' => ?_
  refine (Gives.eat .question "?").bind ?_
  rintro _ rfl
  simp only [List.length_append, List.length_cons] at hlength
  refine (ReadsBy.nested hc.reads Productions.assignment (fun _ => rfl) ?_
    (show grip (.colon, ":") < hold Power.assignment by decide)).allowingIn.bind fun c' hc' =>
    (Gives.expect _ _ _).bind fun _ _ => ?_
  · simp only [List.length_append, List.length_cons]
    omega
  refine (ReadsBy.nested ha.reads Productions.assignment (fun _ => rfl) ?_ hx).bind fun a' ha' => ?_
  · simp only [List.length_append, List.length_cons]
    omega
  exact (Gives.nodeFrom m).bind fun n' _ => .pure (.conditional ht' hc' ha')

omit [input.Plain] in
theorem Gives.assignmentTarget {target : Pattern} {left left' : Expr} (htarget : target.Targets left)
    (h : left.Alike left') (op : AssignOp) :
    Gives input (Parser.assignmentTarget op left') ps ps target.Alike := by
  have hreference :
      isReference left' = true ∧ ∃ target', left'.toPattern = .ok target' ∧ target.Alike target' := by
    cases htarget with
    | name n m ident =>
      cases h with
      | name hi => exact ⟨rfl, _, rfl, .name hi⟩
    | member n m object property =>
      cases h with
      | member ho => exact ⟨rfl, _, rfl, .expression (.member ho)⟩
    | index n m object property =>
      cases h with
      | index ho hp => exact ⟨rfl, _, rfl, .expression (.index ho hp)⟩
  obtain ⟨hleft, target', hpattern, halike⟩ := hreference
  simp only [Parser.assignmentTarget, hleft, hpattern, Bool.not_true, Bool.and_false, Bool.false_eq_true,
    if_false]
  exact .pure halike

theorem Reads.assign {target : Pattern} {left value : Expr} (hleft : Reads input Power.call ps left)
    (htarget : target.Targets left) (hvalue : Reads input Power.assignment qs value) (n : Node)
    (op : AssignOp) :
    Reads input Power.assignment (ps ++ op.piece :: qs) (.assign n op target value) := by
  have htest := hleft.mono (show Power.test ≤ Power.call by decide) (by decide) (by decide)
  refine ⟨(htest.mono (show Power.assignment ≤ Power.test by decide) (by decide) (by decide)).begins_append _,
    fun k x rest hlength hx => ?_⟩
  rw [List.append_assoc, List.cons_append] at hlength ⊢
  refine Gives.start.bind fun m _ => (Gives.arrow? k).bind ?_
  rintro _ rfl
  refine (ReadsBinary.conditional htest.reads hlength (show 2 < 3 by decide)
    (show TokenKind.assignment ≠ .question by decide)).bind fun left' hleft' => Gives.peek.bind ?_
  rintro _ ⟨span, rfl⟩
  have hop : AssignOp.ofText? op.text = some op := by cases op <;> decide
  simp only [AssignOp.piece, bne_self_eq_false, Bool.false_eq_true, if_false, hop]
  refine (Gives.assignmentTarget htarget hleft' op).bind fun target' htarget' => Gives.skip.bind fun _ _ => ?_
  simp only [List.length_append, List.length_cons] at hlength
  refine (ReadsBy.nested hvalue.reads Productions.assignment (fun _ => rfl) ?_ hx).bind
    fun value' hvalue' => ?_
  · simp only [List.length_append, List.length_cons]
    omega
  exact (Gives.nodeFrom m).bind fun n' _ => .pure (.assign htarget' hvalue')

/-- What is done for one expression behind a comma. -/
def sequenceRound (r : Productions) : Parser (Round Expr) := do
  if ← eat .comma then return .more (← r.assignment) else return .stop

theorem Gives.sequenceRound_stop {r : Productions} (hx : grip x < hold Power.sequence) :
    Gives input (sequenceRound r) (x :: rest) (x :: rest) fun found => found = .stop := by
  have hcomma : x.1 ≠ .comma := kind_ne_of_grip_lt hx fun _ => Nat.le_refl _
  refine (Gives.eat_of_ne hcomma).bind ?_
  rintro _ rfl
  exact .pure rfl

theorem Reads.sequenceRound (h : Reads input Power.assignment ps e) (hlength : (ps ++ x :: rest).length ≤ k)
    (hx : grip x < hold Power.assignment) :
    Gives input (sequenceRound (.nest k)) ((.comma, ",") :: (ps ++ x :: rest)) (x :: rest)
      fun found => ∃ e', e.Alike e' ∧ found = .more e' := by
  refine (Gives.eat .comma ",").bind ?_
  rintro _ rfl
  exact (ReadsBy.nested h.reads Productions.assignment (fun _ => rfl) hlength hx).bind fun e' he' =>
    .pure ⟨e', he', rfl⟩

/-- Expressions behind commas are read one by one. -/
theorem Gives.sequenceRest {es : List Expr} (h : List.Forall₂ (Reads input Power.assignment) pss es)
    (hlength : (pss.flatMap ((.comma, ",") :: ·) ++ x :: rest).length ≤ k + 1)
    (hx : grip x < hold Power.sequence) :
    Gives input (Parser.sequenceRest (.nest k)) (pss.flatMap ((.comma, ",") :: ·) ++ x :: rest) (x :: rest)
      (List.Forall₂ Expr.Alike es) := by
  refine Gives.rounds.bind fun fuel hfuel => ?_
  change Gives input (Parser.collect (sequenceRound (.nest k)) fuel) _ _ _
  induction h generalizing fuel with
  | nil =>
    obtain ⟨fuel, rfl⟩ := Nat.exists_eq_add_of_lt hfuel
    refine (Gives.sequenceRound_stop hx).bind ?_
    rintro _ rfl
    exact .pure .nil
  | @cons ps e pss es he _ ih =>
    obtain ⟨fuel, rfl⟩ := Nat.exists_eq_add_of_lt hfuel
    obtain ⟨y, rest', hrest, hy⟩ : ∃ y rest', pss.flatMap ((.comma, ",") :: ·) ++ x :: rest = y :: rest' ∧
        grip y < hold Power.assignment := by
      cases pss with
      | nil => exact ⟨x, rest, rfl, Nat.lt_succ_of_lt hx⟩
      | cons qs pss => exact ⟨(.comma, ","), _, rfl, by decide⟩
    have hpieces : (ps :: pss).flatMap ((.comma, ",") :: ·) ++ x :: rest =
        (.comma, ",") :: (ps ++ y :: rest') := by
      rw [List.flatMap_cons, List.append_assoc, hrest]
      rfl
    rw [hpieces] at hlength hfuel ⊢
    rw [hrest] at ih
    refine (he.sequenceRound (Nat.le_of_succ_le_succ hlength) hy).bind ?_
    rintro _ ⟨e', he', rfl⟩
    simp only [List.length_append, List.length_cons] at hlength ih
    refine Gives.bind (ih (by omega) _ ?_) fun es' hes' => .pure (.cons he' hes')
    simp only [List.length_append, List.length_cons]
    omega

theorem Reads.sequence {es : List Expr} (h : List.Forall₂ (Reads input Power.assignment) pss es)
    (hmany : 2 ≤ es.length) (n : Node) : Reads input Power.sequence (commaed pss) (.sequence n es) := by
  cases h with
  | nil => simp at hmany
  | @cons ps e pss es he hes =>
    cases pss with
    | nil => cases hes; simp at hmany
    | cons qs pss =>
      refine ⟨(he.mono (show Power.sequence ≤ Power.assignment by decide) (by decide)
          (by decide)).begins_append _,
        fun k x rest hlength hx => ?_⟩
      rw [commaed, List.append_assoc] at hlength ⊢
      refine Gives.start.bind fun m _ => ?_
      refine Gives.bind (he.reads k _ _ hlength (show 1 < 2 by decide)) fun e' he' =>
        (Gives.atKind .comma).bind ?_
      rintro _ rfl
      rw [List.length_append] at hlength
      refine Gives.bind (Gives.sequenceRest hes (by omega) hx) fun es' hes' => ?_
      exact (Gives.nodeFrom m).bind fun n' _ => .pure (.sequence (.cons he' hes'))

end Lists

/-! ## Statements -/

section Statements

variable [input.Plain] {ps : List Piece} {e : Expr} {k : Nat}

theorem Gives.endStatement : Gives input Parser.endStatement [(.semicolon, ";")] [] fun _ => True := by
  refine (Gives.eat .semicolon ";").bind ?_
  rintro _ rfl
  exact .pure trivial

theorem Reads.expressionStatement (h : Reads input Power.sequence ps e)
    (hlength : (ps ++ [(TokenKind.semicolon, ";")]).length ≤ k + 1) (n : Nat) :
    Gives input (Parser.expressionStatement (.nest k) n) (ps ++ [(TokenKind.semicolon, ";")]) []
      fun s => ∃ n' e', s = .expression n' e' ∧ e.Alike e' := by
  refine Gives.bind (h.reads k _ _ hlength Nat.one_pos) fun e' he' => Gives.endStatement.bind fun _ _ => ?_
  exact (Gives.nodeFrom n).bind fun n' _ => .pure ⟨n', e', rfl, he'⟩

/-- The first piece of an expression begins no other statement. -/
theorem Reads.statement (h : Reads input Power.sequence ps e)
    (hlength : (ps ++ [(TokenKind.semicolon, ";")]).length ≤ k + 1) :
    Gives input (Parser.statement (.nest k)) (ps ++ [(TokenKind.semicolon, ";")]) []
      fun s => ∃ n' e', s = .expression n' e' ∧ e.Alike e' := by
  refine Gives.start.bind fun n _ => ?_
  have hstatement := h.expressionStatement hlength n
  obtain ⟨⟨y, qs, rfl, hy⟩, -⟩ := h
  refine Gives.peek.bind ?_
  rintro _ ⟨span, rfl⟩
  cases hy with
  | word text htext =>
    have hwords : ∀ text ∈ ["true", "false", "null", "this"],
        keywordStatement (.nest k) text n = Parser.expressionStatement (.nest k) n := by
      simp only [List.forall_mem_cons]
      exact ⟨rfl, rfl, rfl, rfl, nofun⟩
    simp only [hwords text htext]
    exact hstatement
  | unary hpower op => cases op <;> exact hstatement
  | update hpower op => cases op <;> exact hstatement
  | _ => exact hstatement

/-- What is done for one statement of a source. -/
def statementRound (r : Productions) : Parser (Round Stmt) := do
  if (← peek).isNone then return .stop
  return .more (← r.statement)

omit [input.Plain] in
theorem Gives.statementRound_stop {r : Productions} :
    Gives input (statementRound r) [] [] fun found => found = .stop := by
  refine Gives.peek_nil.bind ?_
  rintro _ rfl
  exact .pure rfl

theorem Reads.statementRound (h : Reads input Power.sequence ps e)
    (hlength : (ps ++ [(TokenKind.semicolon, ";")]).length ≤ k + 1) :
    Gives input (statementRound (.nest (k + 1))) (ps ++ [(TokenKind.semicolon, ";")]) []
      fun found => ∃ n' e', found = .more (.expression n' e') ∧ e.Alike e' := by
  have hstatement := h.statement hlength
  obtain ⟨⟨y, qs, rfl, -⟩, -⟩ := h
  refine Gives.peek.bind ?_
  rintro _ ⟨span, rfl⟩
  refine hstatement.bind ?_
  rintro _ ⟨n', e', rfl, he'⟩
  exact .pure ⟨n', e', rfl, he'⟩

/-- A source of one expression statement. -/
theorem Reads.statements (h : Reads input Power.sequence ps e) :
    Gives input Parser.statements (ps ++ [(TokenKind.semicolon, ";")]) []
      fun ss => ∃ n' e', ss = [.expression n' e'] ∧ e.Alike e' := by
  refine Gives.rounds.bind fun depth hdepth => Gives.rounds.bind fun fuel hfuel => ?_
  change Gives input (Parser.collect (Parser.statementRound (.nest depth)) fuel) _ _ _
  rw [List.length_append, List.length_singleton] at hdepth hfuel
  obtain ⟨k, rfl⟩ : ∃ k, depth = k + 1 := ⟨depth - 1, by omega⟩
  obtain ⟨fuel, rfl⟩ : ∃ fuel', fuel = fuel' + 2 := ⟨fuel - 2, by omega⟩
  refine (h.statementRound (by rw [List.length_append, List.length_singleton]; omega)).bind ?_
  rintro _ ⟨n', e', rfl, he'⟩
  have hend : Gives input (Parser.collect (Parser.statementRound (.nest (k + 1))) (fuel + 1)) [] []
      fun ss => ss = [] := by
    refine Gives.statementRound_stop.bind ?_
    rintro _ rfl
    exact .pure rfl
  refine hend.bind ?_
  rintro _ rfl
  exact .pure ⟨n', e', rfl, he'⟩

end Statements

end Parser

end Whittle.Syntax
