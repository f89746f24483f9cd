import Mathlib.Order.Nat
import Whittle.Proofs.Syntax.Attempts
import Whittle.Proofs.Token.Scanning
import Whittle.Syntax.Print

/-!
# Parsers over pieces

What a parser does with the pieces in front of it, and what these pieces tell: how tightly a piece holds
on to what stands before it, and which pieces begin an expression.  An operator holds on to operands by
its precedence, a point, a bracket or a parenthesis to everything in front of it.

Main statements: the rules of `Gives`, and `grip`, `hold`, `Begins` with their lemmas.
-/

namespace Whittle.Syntax

/-! ## Operators as pieces -/

/-- The piece that the operator is. -/
def UnaryOp.piece (op : UnaryOp) : Piece := (if op.isWord then .keyword else .operator, op.text)

/-- The piece that the operator is. -/
def UpdateOp.piece : UpdateOp → Piece
  | .increment => (.plusPlus, "++")
  | .decrement => (.minusMinus, "--")

/-- The piece that the operator is. -/
def BinaryOp.piece (op : BinaryOp) : Piece :=
  (match op with
    | .isIn | .instanceOf => .keyword
    | _ => .operator, op.text)

/-- The piece that the operator is. -/
def LogicalOp.piece : LogicalOp → Piece
  | .and => (.logicalAnd, "&&")
  | .or => (.logicalOr, "||")
  | .nullish => (.nullish, "??")

/-- The piece that the operator is. -/
def AssignOp.piece (op : AssignOp) : Piece := (.assignment, op.text)

/-! ## Pieces in front of a parser -/

/-- The input has no braces, and one line. -/
class Input.Plain (input : Input) : Prop extends input.Unbraced where
  line : ∀ t ∈ input.tokens, t.newlineBefore = false

namespace Parser

variable {α β : Type} {input : Input}

/-- The pieces from the cursor on; `in` is an operator. -/
def At (input : Input) (c : Cursor) (ps : List Piece) : Prop :=
  (input.tokens.toList.drop c.position).map Token.piece = ps ∧ c.noIn = false

theorem At.length_le {c : Cursor} {ps : List Piece} (h : At input c ps) :
    ps.length ≤ input.tokens.size := by
  rw [← h.1, List.length_map, List.length_drop, Array.length_toList]
  omega

theorem At.head {c : Cursor} {ps : List Piece} (h : At input c ps) :
    input.tokens[c.position]?.map Token.piece = ps.head? := by
  rw [← h.1, List.head?_map, List.head?_drop, Array.getElem?_toList]

theorem At.tail {c : Cursor} {ps : List Piece} (h : At input c ps) :
    (input.tokens.toList.drop (c.position + 1)).map Token.piece = ps.tail := by
  rw [← h.1, ← List.map_tail, List.tail_drop]

theorem At.nil {c : Cursor} (h : At input c []) : input.tokens[c.position]? = none :=
  Option.map_eq_none_iff.1 h.head

theorem At.cons [hinput : input.Plain] {c : Cursor} {x : Piece} {ps : List Piece}
    (h : At input c (x :: ps)) : ∃ span, input.tokens[c.position]? = some ⟨x.1, span, false, x.2⟩ := by
  obtain ⟨t, htoken, rfl⟩ := Option.map_eq_some_iff.1 h.head
  refine ⟨t.span, ?_⟩
  rw [htoken, ← hinput.line t (Array.mem_of_getElem? htoken)]
  rfl

/-- Wherever the first pieces stand, the parser gives what is wanted and leaves the second ones. -/
def Gives (input : Input) (p : Parser α) (ps qs : List Piece) (Q : α → Prop) : Prop :=
  ∀ c, At input c ps → ∃ a c', Runs input p c a c' ∧ At input c' qs ∧ Q a

namespace Gives

variable {p : Parser α} {f : α → Parser β} {ps qs rs : List Piece} {x : Piece} {Q : α → Prop} {R : β → Prop}

theorem pure {a : α} (h : Q a) : Gives input (pure a) ps ps Q :=
  fun c hc => ⟨a, c, .pure a c, hc, h⟩

theorem bind (hp : Gives input p ps qs Q) (hf : ∀ a, Q a → Gives input (f a) qs rs R) :
    Gives input (p >>= f) ps rs R := by
  intro c hc
  obtain ⟨a, c₁, hrun₁, hc₁, ha⟩ := hp c hc
  obtain ⟨b, c₂, hrun₂, hc₂, hb⟩ := hf a ha c₁ hc₁
  exact ⟨b, c₂, hrun₁.bind hrun₂, hc₂, hb⟩

theorem mono {Q' : α → Prop} (hp : Gives input p ps qs Q) (h : ∀ a, Q a → Q' a) : Gives input p ps qs Q' :=
  fun c hc => (hp c hc).imp fun a => Exists.imp fun _ ha => ⟨ha.1, ha.2.1, h a ha.2.2⟩

theorem start : Gives input start ps ps fun _ => True :=
  fun c hc => (Runs.exists_start input c).imp fun _ hn => ⟨c, hn, hc, trivial⟩

theorem get : Gives input get ps ps fun c => c.noIn = false :=
  fun c hc => ⟨c, c, rfl, hc, hc.2⟩

theorem nodeAt (span : Span) : Gives input (nodeAt span) ps ps fun _ => True :=
  fun c hc => ⟨_, { c with nextNode := c.nextNode + 1 }, rfl, hc, trivial⟩

theorem nodeFrom (n : Nat) : Gives input (nodeFrom n) ps ps fun _ => True :=
  fun c hc => ⟨_, { c with nextNode := c.nextNode + 1 }, rfl, hc, trivial⟩

/-- There are more rounds than pieces. -/
theorem rounds : Gives input rounds ps ps fun n => ps.length < n :=
  fun c hc => ⟨_, c, rfl, hc, Nat.lt_succ_of_le hc.length_le⟩

theorem allowingIn (hp : Gives input p ps qs Q) : Gives input (allowingIn p) ps qs Q := by
  intro c hc
  have hsame : ({ c with noIn := false } : Cursor) = c := by rw [← hc.2]
  obtain ⟨a, c', hrun, hc', ha⟩ := hp c hc
  refine ⟨a, { c' with noIn := c.noIn }, ?_, ⟨hc'.1, hc.2⟩, ha⟩
  rw [Runs] at hrun ⊢
  rw [Parser.allowingIn, hsame, hrun]

theorem peek_nil : Gives input peek [] [] fun t => t = none :=
  fun c hc => ⟨_, c, .peekAt 0 c, hc, hc.nil⟩

theorem peek_head : Gives input peek ps ps fun t => t.map Token.piece = ps.head? :=
  fun c hc => ⟨_, c, .peekAt 0 c, hc, hc.head⟩

theorem skip : Gives input skip (x :: ps) ps fun _ => True := by
  intro c hc
  obtain ⟨t, htoken, -⟩ := Option.map_eq_some_iff.1 hc.head
  exact ⟨(), _, .skip htoken, ⟨hc.tail, hc.2⟩, trivial⟩

theorem nextIs_head {test : Token → Bool} {b : Bool} (h : ∀ t : Token, t.piece = x → test t = b) :
    Gives input (nextIs test) (x :: ps) (x :: ps) fun a => a = b := by
  refine peek_head.bind fun t ht => ?_
  obtain ⟨t, rfl, hpiece⟩ := Option.map_eq_some_iff.1 ht
  exact .pure (h t hpiece)

theorem expect_head (k : TokenKind) (s expecting : String) :
    Gives input (expect k expecting) ((k, s) :: ps) ps fun t => t.piece = (k, s) := by
  refine peek_head.bind fun t ht => ?_
  obtain ⟨t, rfl, hpiece⟩ := Option.map_eq_some_iff.1 ht
  have hkind : (t.kind == k) = true := beq_iff_eq.2 (congrArg Prod.fst hpiece)
  simp only [hkind, if_true]
  exact skip.bind fun _ _ => .pure hpiece

theorem ident (s : String) : Gives input ident ((.identifier, s) :: ps) ps fun i => i.name = s :=
  (expect_head .identifier s _).bind fun t ht =>
    (nodeAt t.span).bind fun _ _ => .pure (congrArg Prod.snd ht)

/-! The rest is about inputs of one line, where whole tokens are known. -/

variable [input.Plain]

theorem peek : Gives input peek (x :: ps) (x :: ps) fun t => ∃ span, t = some ⟨x.1, span, false, x.2⟩ := by
  intro c hc
  obtain ⟨span, htoken⟩ := hc.cons
  exact ⟨_, c, .peekAt 0 c, hc, span, htoken⟩

theorem peekKind : Gives input peekKind (x :: ps) (x :: ps) fun k => k = some x.1 := by
  intro c hc
  obtain ⟨span, htoken⟩ := hc.cons
  exact ⟨_, c, .peekKind c, hc, by rw [htoken]; rfl⟩

theorem nextIs {test : Token → Bool} {b : Bool} (h : ∀ span, test ⟨x.1, span, false, x.2⟩ = b) :
    Gives input (nextIs test) (x :: ps) (x :: ps) fun a => a = b := by
  refine peek.bind ?_
  rintro _ ⟨span, rfl⟩
  exact .pure (h span)

theorem atKind (k : TokenKind) : Gives input (atKind k) (x :: ps) (x :: ps) fun b => b = (x.1 == k) :=
  .nextIs fun _ => rfl

theorem eat_of_ne {k : TokenKind} (h : x.1 ≠ k) :
    Gives input (eat k) (x :: ps) (x :: ps) fun b => b = false := by
  refine (atKind k).bind ?_
  rintro _ rfl
  rw [if_neg (by simpa using h)]
  exact .pure rfl

theorem eat (k : TokenKind) (s : String) : Gives input (eat k) ((k, s) :: ps) ps fun b => b = true := by
  refine (atKind k).bind ?_
  rintro _ rfl
  rw [if_pos (beq_self_eq_true k)]
  exact skip.bind fun _ _ => .pure rfl

theorem expect (k : TokenKind) (s expecting : String) :
    Gives input (expect k expecting) ((k, s) :: ps) ps fun t => ∃ span, t = ⟨k, span, false, s⟩ := by
  refine peek.bind ?_
  rintro _ ⟨span, rfl⟩
  simp only [beq_self_eq_true, if_true]
  exact skip.bind fun _ _ => .pure ⟨span, rfl⟩

theorem word {k : TokenKind} (hk : k = .identifier ∨ k = .keyword) (s : String) :
    Gives input word ((k, s) :: ps) ps fun i => i.name = s := by
  refine peek.bind ?_
  rintro _ ⟨span, rfl⟩
  have hword : Token.isWord ⟨k, span, false, s⟩ = true := by
    rcases hk with rfl | rfl <;> rfl
  simp only [hword, if_true]
  exact skip.bind fun _ _ => (nodeAt span).bind fun _ _ => .pure rfl

theorem string (s : String) :
    Gives input string ((.string, Text.quote s) :: ps) ps fun value => value = s := by
  refine (expect .string _ _).bind ?_
  rintro _ ⟨span, rfl⟩
  exact .pure (by rw [Text.unquote?_quote]; rfl)

/-- No arrow function is read. -/
theorem arrow? (k : Nat) : Gives input (arrow? (.nest k)) ps ps fun a => a = none :=
  fun c hc => ⟨none, c, arrow?_eq_none hc.2, hc, rfl⟩

end Gives

/-! ## Grip -/

/-- How tightly a piece holds on to what stands before it: the power of what it goes on with. -/
def grip (x : Piece) : Nat :=
  match x.1 with
  | .dot | .openBracket | .openParen => Power.call
  | .plusPlus | .minusMinus => Power.afterOperand
  | .question | .assignment => Power.assignment
  | .comma => Power.sequence
  | _ => ((InfixOp.ofToken? false ⟨x.1, ⟨0, 0⟩, false, x.2⟩).map InfixOp.precedence).getD 0

/-- The least grip that takes hold of an expression of a power.  Where operators group from the left, an
operator of the same power leaves the expression alone. -/
def hold (power : Nat) : Nat := if power ∈ [1, 2, 14, 15, 16] then power else power + 1

theorem hold_le_hold {m n : Nat} (h : m ≤ n) : hold m ≤ hold n := by
  simp only [hold, List.mem_cons, List.not_mem_nil, or_false]
  split_ifs <;> omega

theorem grip_eq_precedence {x : Piece} {span : Span} {op : InfixOp}
    (h : InfixOp.ofToken? false ⟨x.1, span, false, x.2⟩ = some op) : grip x = op.precedence := by
  obtain ⟨kind, text⟩ := x
  change InfixOp.ofToken? false ⟨kind, ⟨0, 0⟩, false, text⟩ = some op at h
  cases kind
  case operator | keyword | logicalAnd | logicalOr | nullish =>
    simp only [grip, h]
    rfl
  all_goals cases h

theorem InfixOp.test_le_precedence (op : InfixOp) : Power.test ≤ op.precedence := by
  rcases op with op | op <;> cases op <;> decide

theorem InfixOp.precedence_lt_unary (op : InfixOp) : op.precedence < Power.unary := by
  rcases op with op | op <;> cases op <;> decide

theorem InfixOp.hold_precedence (op : InfixOp) : hold op.precedence = op.rightPrecedence := by
  rcases op with op | op <;> cases op <;> rfl

theorem InfixOp.precedence_le_rightPrecedence (op : InfixOp) : op.precedence ≤ op.rightPrecedence := by
  rcases op with op | op <;> cases op <;> decide

/-- A piece that holds on less tightly than those of a kind is not of that kind. -/
theorem kind_ne_of_grip_lt {x : Piece} {n : Nat} {kind : TokenKind} (h : grip x < n)
    (hkind : ∀ text, n ≤ grip (kind, text)) : x.1 ≠ kind := by
  obtain ⟨kind', text⟩ := x
  rintro rfl
  exact absurd h (Nat.not_lt.2 (hkind text))

/-- Nothing takes hold of what needs no grouping. -/
theorem grip_lt_hold_primary (x : Piece) : grip x < hold Power.primary := by
  obtain ⟨kind, text⟩ := x
  cases hop : InfixOp.ofToken? false ⟨kind, ⟨0, 0⟩, false, text⟩ with
  | some op =>
    rw [grip_eq_precedence hop]
    exact op.precedence_lt_unary.trans (by decide)
  | none =>
    rw [grip]
    simp only [hop]
    split <;> decide

namespace Gives

variable [input.Plain] {x : Piece} {ps : List Piece} {r : Productions} {e : Expr} {fuel : Nat}

/-- No suffix is read where none stands. -/
theorem suffixes_stop (hx : grip x < Power.call) (calls : Bool) (n : Nat) (hfuel : 0 < fuel) :
    Gives input (suffixes r calls n e fuel) (x :: ps) (x :: ps) fun e' => e' = e := by
  obtain ⟨fuel, rfl⟩ := Nat.exists_eq_add_of_lt hfuel
  refine peekKind.bind ?_
  rintro _ rfl
  obtain ⟨kind, text⟩ := x
  cases kind
  case dot | openBracket | openParen => exact absurd hx (Nat.lt_irrefl _)
  all_goals exact .pure rfl

/-- No operator is read where none stands that binds tightly enough. -/
theorem binaryRest_stop {least : Nat} (hx : grip x < least ∨ grip x < Power.test) (n : Nat)
    (hfuel : 0 < fuel) :
    Gives input (binaryRest r least n e fuel) (x :: ps) (x :: ps) fun e' => e' = e := by
  obtain ⟨fuel, rfl⟩ := Nat.exists_eq_add_of_lt hfuel
  refine peek.bind ?_
  rintro _ ⟨span, rfl⟩
  refine get.bind fun c hc => ?_
  rw [hc, Option.bind_some]
  cases hop : InfixOp.ofToken? false ⟨x.1, span, false, x.2⟩ with
  | none => exact .pure rfl
  | some op =>
    have hgrip := grip_eq_precedence hop
    have htest := op.test_le_precedence
    simp only [if_pos (show op.precedence < least by omega)]
    exact .pure rfl

end Gives

/-! ## First pieces -/

/-- The first piece of an expression of a power. -/
inductive Begins (power : Nat) : Piece → Prop
  | name (text : String) : Begins power (.identifier, text)
  | string (text : String) : Begins power (.string, text)
  | paren : Begins power (.openParen, "(")
  | bracket : Begins power (.openBracket, "[")
  | word (text : String) (h : text ∈ ["true", "false", "null", "this"]) : Begins power (.keyword, text)
  | unary (h : power ≤ Power.unary) (op : UnaryOp) : Begins power op.piece
  | update (h : power ≤ Power.unary) (op : UpdateOp) : Begins power op.piece

namespace Begins

variable {power power' : Nat} {x : Piece}

theorem mono (h : Begins power x) (hpower : power' ≤ power) : Begins power' x := by
  cases h with
  | name text => exact .name text
  | string text => exact .string text
  | paren => exact .paren
  | bracket => exact .bracket
  | word text h => exact .word text h
  | unary h op => exact .unary (hpower.trans h) op
  | update h op => exact .update (hpower.trans h) op

theorem kind_mem (h : Begins power x) : x.1 ∈ [.identifier, .string, .openParen, .openBracket, .keyword,
    .operator, .plusPlus, .minusMinus] := by
  cases h with
  | unary h op => cases op <;> decide
  | update h op => cases op <;> decide
  | _ => simp

theorem not_new (h : Begins Power.afterOperand x) {span : Span} :
    Token.isKeyword ⟨x.1, span, false, x.2⟩ "new" = false := by
  cases h with
  | word text h =>
    have hwords : ∀ text ∈ ["true", "false", "null", "this"], (text == "new") = false := by decide
    exact hwords text h
  | unary h op => exact absurd h (by decide)
  | update h op => exact absurd h (by decide)
  | _ => rfl

theorem updateOp?_eq_none (h : Begins Power.afterOperand x) : updateOp? x.1 = none := by
  cases h with
  | unary h op => exact absurd h (by decide)
  | update h op => exact absurd h (by decide)
  | _ => rfl

theorem unaryOp?_eq_none (h : Begins Power.afterOperand x) {span : Span} :
    unaryOp? ⟨x.1, span, false, x.2⟩ = none := by
  cases h with
  | word text h =>
    have hwords : ∀ text ∈ ["true", "false", "null", "this"], UnaryOp.ofText? text = none := by decide
    change (UnaryOp.ofText? text).filter (·.isWord) = none
    rw [hwords text h]
    rfl
  | unary h op => exact absurd h (by decide)
  | update h op => exact absurd h (by decide)
  | _ => rfl

end Begins

end Parser

end Whittle.Syntax
