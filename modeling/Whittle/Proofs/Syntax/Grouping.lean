import Mathlib.Data.List.Induction
import Whittle.Proofs.Syntax.Reading

/-!
# Grouping by precedence

Names with operators between them can be grouped in many ways; precedence and the side from which equal
operators group single out one.  Two facts meet in the main statement.  A chain has such a grouping, found
by putting one operator after the other into the grouping of what stands before it; and a parser that comes
to the pieces of such a grouping reads that grouping and no other one.  The second is an induction over the
grouping in which the parser is described by what it does behind the operand, as in
`Parser.ReadsBinary`.

Main statement: `Parser.binary_groups`.
-/

namespace Whittle.Syntax

open Whittle.Syntax.Parser (InfixOp)

/-! ## Chains and groupings -/

/-- Names with operators between them. -/
structure Chain where
  /-- The first name. -/
  first : String
  /-- The operators, each with the name behind it. -/
  rest : List (InfixOp × String)
deriving DecidableEq

namespace Chain

/-- The pieces that the chain is written with. -/
def pieces (s : Chain) : List Piece :=
  (.identifier, s.first) :: s.rest.flatMap fun e => [e.1.piece, (.identifier, e.2)]

/-- Two chains with an operator between them. -/
def join (op : InfixOp) (s s' : Chain) : Chain := ⟨s.first, s.rest ++ (op, s'.first) :: s'.rest⟩

theorem length_pieces_pos (s : Chain) : 0 < s.pieces.length := Nat.succ_pos _

theorem pieces_join (op : InfixOp) (s s' : Chain) :
    (join op s s').pieces = s.pieces ++ op.piece :: s'.pieces := by
  simp [pieces, join]

end Chain

/-- A way to group a chain: each operator has an operand on either side. -/
inductive Grouping where
  | name (text : String)
  | join (op : InfixOp) (left right : Grouping)
deriving DecidableEq

namespace Grouping

/-- The chain that is grouped. -/
def chain : Grouping → Chain
  | .name text => ⟨text, []⟩
  | .join op l r => .join op l.chain r.chain

/-- Whether the grouping may be the left operand of an operator: it is not of lower precedence, and of
higher one where equal operators group from the right. -/
def FitsLeft (op : InfixOp) : Grouping → Prop
  | .name _ => True
  | .join inner _ _ =>
    if op = .binary .pow then op.precedence < inner.precedence else op.precedence ≤ inner.precedence

/-- Whether the grouping may be the right operand of an operator: it is of higher precedence, or not of
lower one where equal operators group from the right. -/
def FitsRight (op : InfixOp) : Grouping → Prop
  | .name _ => True
  | .join inner _ _ =>
    if op = .binary .pow then op.precedence ≤ inner.precedence else op.precedence < inner.precedence

/-- All operands are where they may be. -/
def ByPrecedence : Grouping → Prop
  | .name _ => True
  | .join op l r => l.FitsLeft op ∧ r.FitsRight op ∧ l.ByPrecedence ∧ r.ByPrecedence

instance (op : InfixOp) : (t : Grouping) → Decidable (t.FitsLeft op)
  | .name _ => inferInstanceAs (Decidable True)
  | .join inner _ _ =>
    inferInstanceAs (Decidable (if op = .binary .pow then op.precedence < inner.precedence
      else op.precedence ≤ inner.precedence))

instance (op : InfixOp) : (t : Grouping) → Decidable (t.FitsRight op)
  | .name _ => inferInstanceAs (Decidable True)
  | .join inner _ _ =>
    inferInstanceAs (Decidable (if op = .binary .pow then op.precedence ≤ inner.precedence
      else op.precedence < inner.precedence))

instance decidableByPrecedence : (t : Grouping) → Decidable t.ByPrecedence
  | .name _ => inferInstanceAs (Decidable True)
  | .join _ l r =>
    have := decidableByPrecedence l
    have := decidableByPrecedence r
    inferInstanceAs (Decidable (_ ∧ _ ∧ _ ∧ _))

end Grouping

/-- How an expression of names and operators is grouped; none where there is anything else. -/
def Expr.grouping? : Expr → Option Grouping
  | .name _ ident => some (.name ident.name)
  | .binary _ op l r => do return .join (.binary op) (← l.grouping?) (← r.grouping?)
  | .logical _ op l r => do return .join (.logical op) (← l.grouping?) (← r.grouping?)
  | _ => none

theorem Expr.grouping?_apply (op : InfixOp) (n : Node) {l r : Expr} {t u : Grouping}
    (hl : l.grouping? = some t) (hr : r.grouping? = some u) :
    (op.apply n l r).grouping? = some (.join op t u) := by
  cases op <;> simp [InfixOp.apply, Expr.grouping?, hl, hr]

/-! ## Precedence as limits -/

namespace Parser.InfixOp

/-- Only exponentiation groups from the right, and nothing binds more tightly. -/
theorem rightPrecedence_cases (op : InfixOp) :
    (op = .binary .pow ∧ op.precedence = 14 ∧ op.rightPrecedence = 14) ∨
      (op ≠ .binary .pow ∧ op.precedence < 14 ∧ op.rightPrecedence = op.precedence + 1) := by
  rcases op with op | op <;> cases op <;> decide

end Parser.InfixOp

namespace Grouping

/-- The precedence of the outermost operator. -/
def power : Grouping → Nat
  | .name _ => Power.unary
  | .join op _ _ => op.precedence

/-- The least grip that takes the last operand out of the grouping. -/
def limit : Grouping → Nat
  | .name _ => Power.unary
  | .join op _ _ => op.rightPrecedence

variable {t : Grouping} {op : InfixOp}

theorem power_le_limit (t : Grouping) : t.power ≤ t.limit := by
  cases t with
  | name text => exact Nat.le_refl _
  | join op l r => exact op.precedence_le_rightPrecedence

theorem limit_le (t : Grouping) : t.limit ≤ t.power + 1 := by
  cases t with
  | name text => exact Nat.le_succ _
  | join op l r =>
    have hcases := op.rightPrecedence_cases
    change op.rightPrecedence ≤ op.precedence + 1
    omega

/-- A left operand is what the operator does not take apart. -/
theorem fitsLeft_iff : t.FitsLeft op ↔ op.precedence < t.limit := by
  cases t with
  | name text => exact iff_of_true trivial op.precedence_lt_unary
  | join inner l r =>
    rw [FitsLeft, limit]
    have hinner := inner.rightPrecedence_cases
    obtain ⟨hop, hprecedence, -⟩ | ⟨hop, hprecedence, -⟩ := op.rightPrecedence_cases
    · rw [if_pos hop]
      omega
    · rw [if_neg hop]
      omega

/-- A right operand is what binds tightly enough to be read behind the operator. -/
theorem fitsRight_iff : t.FitsRight op ↔ op.rightPrecedence ≤ t.power := by
  cases t with
  | name text =>
    have hright : op.rightPrecedence ≤ 15 := by
      have hcases := op.rightPrecedence_cases
      omega
    exact iff_of_true trivial hright
  | join inner l r =>
    rw [FitsRight, power]
    obtain ⟨hop, hprecedence, hright⟩ | ⟨hop, -, hright⟩ := op.rightPrecedence_cases
    · rw [if_pos hop]
      omega
    · rw [if_neg hop]
      omega

/-! ## Every chain has a grouping -/

/-- Puts an operator and a name behind a grouping: the operator takes the last operands that do not hold
on to each other more tightly. -/
def push (op : InfixOp) (text : String) : Grouping → Grouping
  | .name a => .join op (.name a) (.name text)
  | .join inner l r =>
    if op.precedence < inner.rightPrecedence then .join op (.join inner l r) (.name text)
    else .join inner l (r.push op text)

theorem chain_push (op : InfixOp) (text : String) (t : Grouping) :
    (t.push op text).chain = ⟨t.chain.first, t.chain.rest ++ [(op, text)]⟩ := by
  induction t with
  | name a => rfl
  | join inner l r _ ih =>
    rw [push]
    split
    · rfl
    · simp [chain, ih, Chain.join]

/-- The outermost operator stays or is the new one. -/
theorem le_power_push {n : Nat} {text : String} (ht : n ≤ t.power) (hop : n ≤ op.precedence) :
    n ≤ (t.push op text).power := by
  cases t with
  | name a => exact hop
  | join inner l r =>
    rw [push]
    split
    · exact hop
    · exact ht

theorem ByPrecedence.push (h : t.ByPrecedence) (op : InfixOp) (text : String) :
    (t.push op text).ByPrecedence := by
  induction t with
  | name a => exact ⟨trivial, trivial, trivial, trivial⟩
  | join inner l r _ ih =>
    rw [Grouping.push]
    split
    · next hlt => exact ⟨fitsLeft_iff.2 hlt, trivial, h, trivial⟩
    · next hle =>
      obtain ⟨hl, hr, hleft, hright⟩ := h
      refine ⟨hl, fitsRight_iff.2 ?_, hleft, ih hright⟩
      exact le_power_push (fitsRight_iff.1 hr) (Nat.le_of_not_lt hle)

end Grouping

theorem Chain.exists_grouping (s : Chain) : ∃ t : Grouping, t.chain = s ∧ t.ByPrecedence := by
  obtain ⟨first, rest⟩ := s
  -- the operators are put behind one after the other
  induction rest using List.reverseRecOn with
  | nil => exact ⟨.name first, rfl, trivial⟩
  | append_singleton rest e ih =>
    obtain ⟨t, ht, hprecedence⟩ := ih
    exact ⟨t.push e.1 e.2, by rw [t.chain_push, ht], hprecedence.push e.1 e.2⟩

/-! ## A grouping is read from its pieces -/

namespace Parser

variable {input : Input} {x : Piece} {ps : List Piece}

/-- What stands next, if anything does, holds on to the operand before it less tightly than the limit. -/
def Below (limit : Nat) (ps : List Piece) : Prop := ∀ x ∈ ps.head?, grip x < limit

theorem Below.mono {m n : Nat} (h : Below m ps) (hle : m ≤ n) : Below n ps :=
  fun x hx => Nat.lt_of_lt_of_le (h x hx) hle

section Reading

variable {r : Productions} {e : Expr} {fuel least : Nat}

theorem Below.suffixes (h : Below Power.call ps) (calls : Bool) (n : Nat) (hfuel : 0 < fuel) :
    Gives input (Parser.suffixes r calls n e fuel) ps ps fun e' => e' = e := by
  obtain ⟨fuel, rfl⟩ := Nat.exists_eq_add_of_lt hfuel
  refine Gives.bind (Gives.peek_head.bind fun t ht => .pure (a := t.map (·.kind)) (Q := fun kind =>
    kind = ps.head?.map Prod.fst) ?_) ?_
  · rw [← ht, Option.map_map]
    rfl
  rintro _ rfl
  cases ps with
  | nil => exact .pure rfl
  | cons x ps =>
    have hx := h x rfl
    obtain ⟨kind, text⟩ := x
    cases kind
    case dot | openBracket | openParen => exact absurd hx (Nat.lt_irrefl _)
    all_goals exact .pure rfl

theorem Below.binaryRest (h : Below least ps ∨ Below Power.test ps) (n : Nat) (hfuel : 0 < fuel) :
    Gives input (Parser.binaryRest r least n e fuel) ps ps fun e' => e' = e := by
  obtain ⟨fuel, rfl⟩ := Nat.exists_eq_add_of_lt hfuel
  refine Gives.peek_head.bind fun t ht => Gives.get.bind fun c hc => ?_
  cases t with
  | none => exact .pure rfl
  | some t =>
    rw [hc, Option.bind_some]
    cases hop : InfixOp.ofToken? false t with
    | none => exact .pure rfl
    | some op =>
      have hgrip : grip t.piece = op.precedence := @grip_eq_precedence t.piece t.span op hop
      have htest := op.test_le_precedence
      have hbelow : grip t.piece < least ∨ grip t.piece < Power.test :=
        h.imp (fun h => h _ ht.symm) fun h => h _ ht.symm
      simp only [if_pos (show op.precedence < least by omega)]
      exact .pure rfl

theorem Gives.primary_name (text : String) :
    Gives input (Parser.primary r) ((.identifier, text) :: ps) ps
      fun e => e.grouping? = some (.name text) := by
  refine Gives.start.bind fun n _ => Gives.peek_head.bind fun t ht => ?_
  obtain ⟨t, rfl, hpiece⟩ := Option.map_eq_some_iff.1 ht
  simp only [show t.kind = .identifier from congrArg Prod.fst hpiece]
  refine (Gives.ident text).bind fun i hi => (Gives.nodeFrom n).bind fun n' _ => .pure ?_
  rw [Expr.grouping?, hi]

theorem Below.callMember (h : Below Power.call ps) (text : String) :
    Gives input (Parser.callMember r) ((.identifier, text) :: ps) ps
      fun e => e.grouping? = some (.name text) := by
  refine Gives.start.bind fun n _ => (Gives.nextIs_head (b := false) fun t ht => ?_).bind ?_
  · have hkind : t.kind = .identifier := congrArg Prod.fst ht
    rw [Token.isKeyword, hkind]
    rfl
  rintro _ rfl
  refine (Gives.primary_name text).bind fun e he => Gives.rounds.bind fun fuel hfuel => ?_
  refine (h.suffixes true n (by omega)).mono ?_
  rintro _ rfl
  exact he

/-- A name is an operand. -/
theorem Below.unary (h : Below Power.unary ps) (text : String) :
    Gives input (Parser.unary r) ((.identifier, text) :: ps) ps
      fun e => e.grouping? = some (.name text) := by
  refine Gives.start.bind fun n _ => Gives.peek_head.bind fun t ht => ?_
  obtain ⟨t, rfl, hpiece⟩ := Option.map_eq_some_iff.1 ht
  have hkind : t.kind = .identifier := congrArg Prod.fst hpiece
  have hunary : unaryOp? t = none := by rw [unaryOp?, hkind]
  simp only [hkind, hunary, updateOp?]
  refine Gives.start.bind fun n _ => ((h.mono (by decide)).callMember text).bind fun e he =>
    Gives.peek_head.bind fun t ht => ?_
  cases t with
  | none => exact .pure he
  | some t =>
    have hgrip : grip t.piece < Power.unary := h _ ht.symm
    have hupdate : updateOp? t.kind = none := by
      obtain ⟨kind, span, newline, text⟩ := t
      cases kind
      case plusPlus | minusMinus => exact absurd hgrip (show ¬ 16 < 15 by decide)
      all_goals rfl
    simp only [hupdate]
    split
    · exact .pure he
    · exact .pure he

end Reading

/-- A parser that goes on behind the pieces of a grouping has read them as the grouping. -/
theorem Grouping.reads {t : Grouping} (h : t.ByPrecedence) {k n least : Nat} {rest after : List Piece}
    {Q : Expr → Prop} (hleast : least ≤ t.power) (hlength : (t.chain.pieces ++ rest).length ≤ k + 1)
    (hrest : Below t.limit rest)
    (hnext : ∀ e fuel, e.grouping? = some t → rest.length < fuel →
      Gives input (binaryRest (.nest k) least n e fuel) rest after Q) :
    Gives input (unary (.nest k) >>= fun e => rounds >>= fun fuel => binaryRest (.nest k) least n e fuel)
      (t.chain.pieces ++ rest) after Q := by
  induction t generalizing k n least rest after Q with
  | name text =>
    refine (hrest.unary text).bind fun e he => Gives.rounds.bind fun fuel hfuel => ?_
    exact hnext e fuel he hfuel
  | join op l r ihl ihr =>
    obtain ⟨hl, hr, hleft, hright⟩ := h
    change least ≤ op.precedence at hleast
    rw [Grouping.fitsLeft_iff] at hl
    rw [Grouping.fitsRight_iff] at hr
    have hgrip : grip op.piece = op.precedence := grip_eq_precedence (op.ofToken?_piece ⟨0, 0⟩)
    rw [Grouping.chain, Chain.pieces_join, List.append_assoc, List.cons_append] at hlength ⊢
    -- behind the left operand the parser finds the operator, reads the right operand and goes on
    have hpower : least ≤ l.power := by
      have hlimit := l.limit_le
      omega
    refine ihl hleft hpower hlength ?_ fun l' fuel hl' hfuel => ?_
    · rintro x ⟨⟩
      rwa [hgrip]
    obtain ⟨fuel, rfl⟩ := Nat.exists_eq_add_of_lt hfuel
    simp only [List.length_append, List.length_cons] at hlength
    refine Gives.peek_head.bind fun t ht => Gives.get.bind fun c hc => ?_
    obtain ⟨t, rfl, hpiece⟩ := Option.map_eq_some_iff.1 ht
    have hop : InfixOp.ofToken? false t = some op := by
      have htoken := op.ofToken?_piece t.span
      rwa [← hpiece] at htoken
    simp only [hc, Option.bind_some, hop, if_neg (Nat.not_lt.2 hleast)]
    refine Gives.skip.bind fun _ _ => ?_
    have hpieces := l.chain.length_pieces_pos
    obtain ⟨k, rfl⟩ : ∃ k', k = k' + 1 := ⟨k - 1, by omega⟩
    have hstop : Below op.rightPrecedence rest := hrest
    have hread : Gives input ((Productions.nest (k + 1)).binary op.rightPrecedence)
        (r.chain.pieces ++ rest) rest fun e => e.grouping? = some r := by
      refine Gives.start.bind fun m _ => ?_
      refine ihr hright hr ?_ (hrest.mono (hr.trans r.power_le_limit)) fun r' fuel' hr' hfuel' => ?_
      · rw [List.length_append]
        omega
      refine (Below.binaryRest (.inl hstop) m (by omega)).mono ?_
      rintro _ rfl
      exact hr'
    refine hread.bind fun r' hr' => (Gives.nodeFrom n).bind fun n' _ => ?_
    refine hnext _ _ (Expr.grouping?_apply op n' hl' hr') ?_
    simp only [List.length_append, List.length_cons]
    omega

/-- From a chain of names and operators the parser takes all of it, and what it makes of it is the one
grouping of the chain in which a left operand is of no lower precedence than its operator and a right
operand of higher one, or the other way round where operators group from the right. -/
theorem binary_groups (s : Chain) {rest : List Piece} (hrest : Below Power.test rest) {c : Cursor}
    (hc : At input c (s.pieces ++ rest)) {k : Nat} (hk : (s.pieces ++ rest).length ≤ k + 1) :
    ∃ e c' t, Parser.binary (.nest k) 0 input c = .ok e c' ∧ At input c' rest ∧ e.grouping? = some t ∧
      t.chain = s ∧ t.ByPrecedence ∧ ∀ u : Grouping, u.chain = s → u.ByPrecedence → u = t := by
  have hreads (t : Grouping) (ht : t.chain = s) (hprecedence : t.ByPrecedence) :
      Gives input (Parser.binary (.nest k) 0) (s.pieces ++ rest) rest fun e => e.grouping? = some t := by
    refine Gives.start.bind fun n _ => ?_
    subst ht
    refine Grouping.reads hprecedence (Nat.zero_le _) hk (hrest.mono ?_) fun e fuel he hfuel => ?_
    · cases t with
      | name text => exact (by decide : Power.test ≤ Power.unary)
      | join op l r => exact op.test_le_precedence.trans op.precedence_le_rightPrecedence
    refine (Below.binaryRest (.inr hrest) n (by omega)).mono ?_
    rintro _ rfl
    exact he
  obtain ⟨t, ht, hprecedence⟩ := s.exists_grouping
  obtain ⟨e, c', hrun, hc', he⟩ := hreads t ht hprecedence c hc
  refine ⟨e, c', t, hrun, hc', he, ht, hprecedence, fun u hu hprecedence' => ?_⟩
  -- any other grouping would be read from the same pieces
  obtain ⟨e', c'', hrun', -, he'⟩ := hreads u hu hprecedence' c hc
  obtain ⟨rfl, -⟩ : e = e' ∧ c' = c'' := by
    rw [Runs, hrun] at hrun'
    exact ⟨EStateM.Result.ok.inj hrun' |>.1, EStateM.Result.ok.inj hrun' |>.2⟩
  exact Option.some.inj (he'.symm.trans he)

/-- Seven operators of six precedences on two lines. -/
def mixed : Source := ⟨"mixed", "a ?? b -\nc ** d ** e in f && g || h"⟩

/-- The chain in `mixed`. -/
def mixedChain : Chain :=
  ⟨"a", [(.logical .nullish, "b"), (.binary .sub, "c"), (.binary .pow, "d"), (.binary .pow, "e"),
    (.binary .isIn, "f"), (.logical .and, "g"), (.logical .or, "h")]⟩

/-- How `mixed` is grouped. -/
def mixedGrouping : Grouping :=
  let power : Grouping := .join (.binary .pow) (.name "c") (.join (.binary .pow) (.name "d") (.name "e"))
  let test : Grouping := .join (.binary .isIn) (.join (.binary .sub) (.name "b") power) (.name "f")
  .join (.logical .nullish) (.name "a")
    (.join (.logical .or) (.join (.logical .and) test (.name "g")) (.name "h"))

theorem binary_groups_mixed : ∃ tokens, mixed.tokens = .ok tokens ∧ Below Power.test [] ∧
    At ⟨mixed, tokens.toArray⟩ Cursor.initial (mixedChain.pieces ++ []) ∧
      (mixedChain.pieces ++ []).length ≤ 14 + 1 ∧ ∃ e c',
        Parser.binary (.nest 14) 0 ⟨mixed, tokens.toArray⟩ Cursor.initial = .ok e c' ∧
          At ⟨mixed, tokens.toArray⟩ c' [] ∧ e.grouping? = some mixedGrouping := by
  have hpieces : (mixed.tokens.toOption.map (·.map Token.piece)) = some mixedChain.pieces := by
    decide +kernel
  have hbelow : Below Power.test [] := by
    rintro x ⟨⟩
  cases htokens : mixed.tokens with
  | error e =>
    rw [htokens] at hpieces
    cases hpieces
  | ok tokens =>
    rw [htokens] at hpieces
    have hat : At ⟨mixed, tokens.toArray⟩ Cursor.initial (mixedChain.pieces ++ []) := by
      rw [List.append_nil]
      exact ⟨Option.some.inj hpieces, rfl⟩
    have hlength : (mixedChain.pieces ++ []).length ≤ 14 + 1 := by decide
    obtain ⟨e, c', t, hrun, hc', he, -, -, hunique⟩ := binary_groups mixedChain hbelow hat hlength
    have hgrouping : mixedGrouping = t := hunique mixedGrouping (by decide) (by decide)
    exact ⟨tokens, rfl, hbelow, hat, hlength, e, c', hrun, hc', hgrouping ▸ he⟩

end Parser

end Whittle.Syntax
