import Whittle.Proofs.Syntax.Reading

/-!
# Printed expressions

Parentheses follow from precedence alone.  A tree that was never parsed is written with the parentheses
that its operators, operands and lists need: its text is scanned to the pieces that are read as the same
tree.

Main statement: `Expr.Plain.parse_printAll`.
-/

namespace Whittle

namespace Token

theorem Leads.commas {follows : Char → Prop} {text : String} (h : Leads follows text) (texts : List String) :
    Leads follows (Syntax.commas (text :: texts)) := by
  cases texts with
  | nil => simpa [Syntax.commas] using h
  | cons text' texts =>
    rw [Syntax.commas, String.intercalate_cons_cons]
    exact (h.append _).append _

namespace Scans

variable {text : String} {ps : List Piece}

theorem parens (h : Scans EndsWord text ps) :
    Scans (fun _ => True) (Syntax.inParens text) (Syntax.Parser.parens ps) := by
  have hclose := h.append (scans_closed ")" .closeParen (by decide) (by decide)) (by decide)
  rw [Syntax.inParens, String.append_assoc]
  exact (scans_closed "(" .openParen (by decide) (by decide)).append hclose (leads_any (by simp))

theorem brackets (h : Scans EndsWord text ps) :
    Scans (fun _ => True) ("[" ++ text ++ "]") (Syntax.Parser.brackets ps) := by
  have hclose := h.append (scans_closed "]" .closeBracket (by decide) (by decide)) (by decide)
  rw [String.append_assoc]
  exact (scans_closed "[" .openBracket (by decide) (by decide)).append hclose (leads_any (by simp))

/-- Texts between commas. -/
theorem commas {texts : List String} {pss : List (List Piece)}
    (h : List.Forall₂ (fun text ps => Scans EndsWord text ps ∧ Leads (fun _ => True) text) texts pss) :
    Scans EndsWord (Syntax.commas texts) (Syntax.Parser.commaed pss) := by
  have hcomma : Scans (fun _ => True) ", " [(.comma, ",")] :=
    (scans_closed "," .comma (by decide) (by decide)).append blank (by decide)
  have hends : Leads EndsWord ", " := by decide
  induction h with
  | nil => exact .nil
  | @cons text ps texts pss htext htexts ih =>
    cases htexts with
    | nil => simpa [Syntax.commas, Syntax.Parser.commaed] using htext.1
    | @cons text' ps' texts pss htext' htexts =>
      have hsame : Syntax.commas (text :: text' :: texts) =
          text ++ (", " ++ Syntax.commas (text' :: texts)) := by
        rw [Syntax.commas, String.intercalate_cons_cons, String.append_assoc]
        rfl
      rw [hsame]
      exact htext.1.append (hcomma.append ih (htext'.2.commas _)) (hends.append _)

end Scans

end Token

namespace Syntax

open Token (Scans Leads EndsWord)

/-- The first character of an expression. -/
def OpensExpression (c : Char) : Prop :=
  Text.startsWord c = true ∨ c ∈ ['"', '(', '[', '+', '-', '!', '~']

instance (c : Char) : Decidable (OpensExpression c) := inferInstanceAs (Decidable (_ ∨ _))

/-! ## Operators -/

theorem UnaryOp.scans_text (op : UnaryOp) : Scans (· = ' ') op.text [op.piece] := by
  cases op
  case typeof | void | delete => exact Token.scans_keyword (by decide +kernel) (by decide)
  all_goals exact Token.scans_spaced (by decide)

theorem BinaryOp.scans_text (op : BinaryOp) : Scans (· = ' ') op.text [op.piece] := by
  cases op
  case isIn | instanceOf => exact Token.scans_keyword (by decide +kernel) (by decide)
  all_goals exact Token.scans_spaced (by decide)

theorem LogicalOp.scans_text (op : LogicalOp) : Scans (· = ' ') op.text [op.piece] := by
  cases op <;> exact Token.scans_spaced (by decide)

theorem AssignOp.scans_text (op : AssignOp) : Scans (· = ' ') op.text [op.piece] := by
  cases op <;> exact Token.scans_spaced (by decide)

theorem UpdateOp.scans_text (op : UpdateOp) : Scans (fun _ => True) op.text [op.piece] := by
  cases op <;> exact Token.scans_closed _ _ (by decide) (by decide)

/-- A sign directly before its operand, unless the operand begins with the same one. -/
theorem UnaryOp.scans_sign {op : UnaryOp} (hword : op.isWord = false) :
    Scans (fun d => OpensExpression d ∧ (op = .minus ∨ op = .plus → op.text.toList ≠ [d]))
      op.text [op.piece] := by
  have hgrows : Token.continuations "-" = ['-', '='] ∧ Token.continuations "+" = ['+', '='] ∧
      Token.continuations "!" = ['=', '='] ∧ Token.continuations "~" = [] := by
    decide +kernel
  obtain ⟨hminus, hplus, hnot, htilde⟩ := hgrows
  have hequals {d : Char} (hd : OpensExpression d) : d ≠ '=' := by
    rintro rfl
    rcases hd with hd | hd
    · revert hd
      decide
    · revert hd
      decide
  cases op
  case typeof | void | delete => cases hword
  case minus =>
    refine (Token.scans_growing (by decide) (by decide) (by decide)).mono fun d ⟨hd, hsign⟩ => ?_
    have hsame : d ≠ '-' := fun h => hsign (.inl rfl) (h ▸ rfl)
    change d ∉ Token.continuations "-"
    simp [hminus, hequals hd, hsame]
  case plus =>
    refine (Token.scans_growing (by decide) (by decide) (by decide)).mono fun d ⟨hd, hsign⟩ => ?_
    have hsame : d ≠ '+' := fun h => hsign (.inr rfl) (h ▸ rfl)
    change d ∉ Token.continuations "+"
    simp [hplus, hequals hd, hsame]
  case not =>
    refine (Token.scans_growing (by decide) (by decide) (by decide)).mono fun d ⟨hd, _⟩ => ?_
    change d ∉ Token.continuations "!"
    simp [hnot, hequals hd]
  case bitNot => exact (Token.scans_closed "~" .operator (by decide) (by decide)).mono fun _ _ => trivial

/-- An operator before the text of its operand. -/
theorem UnaryOp.scans_before (op : UnaryOp) {text : String} {ps : List Piece} (h : Scans EndsWord text ps)
    (hleads : Leads OpensExpression text) : Scans EndsWord (op.before text) (op.piece :: ps) := by
  rw [UnaryOp.before]
  split_ifs with hblank
  · exact (op.scans_text.append Token.Scans.blank (by decide)).append h hleads.any
  · simp only [Bool.or_eq_true, Bool.and_eq_true, not_or, not_and, Bool.not_eq_true] at hblank
    refine (op.scans_sign hblank.1).append h ?_
    obtain ⟨d, ds, htext, hd⟩ := hleads
    -- a sign before the same sign would be scanned as an update, so that a blank stands between them
    refine ⟨d, ds, htext, hd, fun hsign hsame => ?_⟩
    have hstarts := hblank.2 (by simpa using hsign)
    rw [← Bool.not_eq_true, String.startsWith_string_iff, htext, hsame] at hstarts
    exact hstarts ⟨ds, rfl⟩

/-! ## Expressions that are written -/

/-- Neither a brace nor an arrow. -/
def IsPlainPiece (x : Piece) : Prop := x.1 ≠ .openBrace ∧ x.1 ≠ .arrow

instance (x : Piece) : Decidable (IsPlainPiece x) := inferInstanceAs (Decidable (_ ∧ _))

/-- The text is scanned to pieces that are read as the expression where one of the power may stand. -/
structure Spelled (text : String) (ps : List Piece) (power : Nat) (e : Expr) : Prop where
  scans : Scans EndsWord text ps
  leads : Leads OpensExpression text
  plain : ∀ x ∈ ps, IsPlainPiece x
  reads : ∀ (input : Input) [input.Plain], Parser.Reads input power ps e

theorem Expr.power_mem (e : Expr) : 1 ≤ e.power ∧ e.power ≤ Power.primary := by
  have hbinary (op : BinaryOp) : 1 ≤ op.precedence ∧ op.precedence ≤ Power.primary := by cases op <;> decide
  have hlogical (op : LogicalOp) : 1 ≤ op.precedence ∧ op.precedence ≤ Power.primary := by
    cases op <;> decide
  unfold Expr.power
  split
  case h_5 => exact hbinary _
  case h_6 => exact hlogical _
  case h_1 | h_2 | h_4 => split <;> decide
  all_goals decide

theorem plain_parens {ps : List Piece} (h : ∀ x ∈ ps, IsPlainPiece x) :
    ∀ x ∈ Parser.parens ps, IsPlainPiece x :=
  List.forall_mem_cons.2 ⟨by decide, List.forall_mem_append.2 ⟨h, List.forall_mem_singleton.2 (by decide)⟩⟩

theorem plain_brackets {ps : List Piece} (h : ∀ x ∈ ps, IsPlainPiece x) :
    ∀ x ∈ Parser.brackets ps, IsPlainPiece x :=
  List.forall_mem_cons.2 ⟨by decide, List.forall_mem_append.2 ⟨h, List.forall_mem_singleton.2 (by decide)⟩⟩

namespace Spelled

variable {text text' : String} {ps qs : List Piece} {power power' : Nat} {e : Expr}

theorem mono (h : Spelled text ps power e) (hle : power' ≤ power) (hlow : 1 ≤ power')
    (hhigh : power ≤ Power.primary) :
    Spelled text ps power' e :=
  { h with reads := fun input _ => (h.reads input).mono hle hlow hhigh }

theorem parens (h : Spelled text ps Power.sequence e) :
    Spelled (inParens text) (Parser.parens ps) Power.primary e where
  scans := h.scans.parens.ended
  leads := by
    have hparen : Leads OpensExpression "(" := by decide
    exact (hparen.append _).append _
  plain := plain_parens h.plain
  reads input _ := (h.reads input).parens

/-- Grouped or not, an operand is written for the power that is needed. -/
theorem group (h : Spelled text ps e.power e) {least : Nat} (hleast : 1 ≤ least)
    (hhigh : least ≤ Power.primary) : ∃ qs, Spelled (e.group least text) qs least e := by
  rw [Expr.group]
  split_ifs with hpower
  · exact ⟨_, (h.mono e.power_mem.1 (Nat.le_refl _) e.power_mem.2).parens.mono hhigh hleast (Nat.le_refl _)⟩
  · exact ⟨ps, h.mono (Nat.not_lt.1 hpower) hleast e.power_mem.2⟩

theorem groupOperand (h : Spelled text ps e.power e) (op : LogicalOp) {least : Nat} (hleast : 1 ≤ least)
    (hhigh : least ≤ Power.primary) : ∃ qs, Spelled (e.groupOperand op least text) qs least e := by
  rw [Expr.groupOperand]
  split_ifs
  · exact ⟨_, (h.mono e.power_mem.1 (Nat.le_refl _) e.power_mem.2).parens.mono hhigh hleast (Nat.le_refl _)⟩
  · exact h.group hleast hhigh

/-! ### Operands and operators -/

theorem name (n : Node) {i : Ident} (hword : Text.isWord i.name = true) (hname : i.name ∉ Token.keywords) :
    Spelled i.name [(.identifier, i.name)] Power.primary (.name n i) where
  scans := by
    have hkind : Token.wordKind i.name.toList = .identifier := by
      rw [Token.wordKind, String.ofList_toList, if_neg (by simpa using hname)]
    exact hkind ▸ Token.scans_word hword
  leads := (Token.leads_word hword).mono fun _ => .inl
  plain := List.forall_mem_singleton.2 ⟨nofun, nofun⟩
  reads input _ := .name n i

theorem string (n : Node) (s : String) :
    Spelled (Text.quote s) [(.string, Text.quote s)] Power.primary (.literal n (.string s)) where
  scans := (Token.scans_quote s).ended
  leads := ⟨'"', s.toList.flatMap Text.quoteChar ++ ['"'], by simp [Text.quote], .inr (by decide)⟩
  plain := List.forall_mem_singleton.2 ⟨nofun, nofun⟩
  reads input _ := .string n s

theorem keyword (text : String) (hword : Text.isWord text = true) (hkeyword : text ∈ Token.keywords)
    (hreads : ∀ (input : Input) [input.Plain], Parser.Reads input Power.primary [(.keyword, text)] e) :
    Spelled text [(.keyword, text)] Power.primary e where
  scans := Token.wordKind_eq_keyword hkeyword ▸ Token.scans_word hword
  leads := (Token.leads_word hword).mono fun _ => .inl
  plain := List.forall_mem_singleton.2 ⟨nofun, nofun⟩
  reads := hreads

theorem unary (h : Spelled text ps Power.unary e) (n : Node) (op : UnaryOp) :
    Spelled (op.before text) (op.piece :: ps) Power.unary (.unary n op e) where
  scans := op.scans_before h.scans h.leads
  leads := by
    have hleads : Leads OpensExpression op.text := by cases op <;> decide
    rw [UnaryOp.before]
    split_ifs
    · exact (hleads.append _).append _
    · exact hleads.append _
  plain := List.forall_mem_cons.2 ⟨by cases op <;> decide, h.plain⟩
  reads input _ := (h.reads input).unary n op

theorem updateBefore (h : Spelled text ps Power.unary e) (n : Node) (op : UpdateOp) :
    Spelled (op.text ++ text) (op.piece :: ps) Power.unary (.update n op true e) where
  scans := op.scans_text.append h.scans h.leads.any
  leads := by
    have hleads : Leads OpensExpression op.text := by cases op <;> decide
    exact hleads.append _
  plain := List.forall_mem_cons.2 ⟨by cases op <;> decide, h.plain⟩
  reads input _ := (h.reads input).updateBefore n op

theorem updateAfter (h : Spelled text ps Power.call e) (n : Node) (op : UpdateOp) :
    Spelled (text ++ op.text) (ps ++ [op.piece]) Power.afterOperand (.update n op false e) where
  scans := h.scans.append op.scans_text.ended (by cases op <;> decide)
  leads := h.leads.append _
  plain := List.forall_mem_append.2 ⟨h.plain, List.forall_mem_singleton.2 (by cases op <;> decide)⟩
  reads input _ := (h.reads input).updateAfter n op

theorem binary {l r : Expr} {op : BinaryOp} (hl : Spelled text ps op.leftPower l)
    (hr : Spelled text' qs op.rightPower r) (n : Node) :
    Spelled (text ++ " " ++ op.text ++ " " ++ text') (ps ++ op.piece :: qs) op.precedence
      (.binary n op l r) where
  scans := hl.scans.join op.scans_text (by cases op <;> decide) hr.scans hr.leads.any
  leads := (((hl.leads.append _).append _).append _).append _
  plain := List.forall_mem_append.2 ⟨hl.plain, List.forall_mem_cons.2 ⟨by cases op <;> decide, hr.plain⟩⟩
  reads input _ := by
    have hpower : op.precedence ≤ op.leftPower ∧ op.precedence < Parser.hold op.leftPower ∧
        op.leftPower ≤ Power.primary ∧ op.rightPower ≤ Power.primary := by
      cases op <;> decide
    obtain ⟨hle, hhold, hleft, hright⟩ := hpower
    exact (hl.reads input).operator (.binary op) hle hhold (hr.reads input) (Nat.le_refl _) n hleft hright

theorem logical {l r : Expr} {op : LogicalOp} (hl : Spelled text ps op.precedence l)
    (hr : Spelled text' qs (op.precedence + 1) r) (n : Node) :
    Spelled (text ++ " " ++ op.text ++ " " ++ text') (ps ++ op.piece :: qs) op.precedence
      (.logical n op l r) where
  scans := hl.scans.join op.scans_text (by cases op <;> decide) hr.scans hr.leads.any
  leads := (((hl.leads.append _).append _).append _).append _
  plain := List.forall_mem_append.2 ⟨hl.plain, List.forall_mem_cons.2 ⟨by cases op <;> decide, hr.plain⟩⟩
  reads input _ := by
    have hpower : op.precedence < Parser.hold op.precedence ∧ op.precedence + 1 ≤ Power.primary := by
      cases op <;> decide
    exact (hl.reads input).operator (.logical op) (Nat.le_refl _) hpower.1 (hr.reads input) (Nat.le_refl _) n
      (Nat.le_of_succ_le hpower.2) hpower.2

theorem conditional {t c a : Expr} {consequent alternate : String} {cs as : List Piece}
    (ht : Spelled text ps Power.test t) (hc : Spelled consequent cs Power.assignment c)
    (ha : Spelled alternate as Power.assignment a) (n : Node) :
    Spelled (text ++ " ? " ++ consequent ++ " : " ++ alternate)
      (ps ++ (.question, "?") :: (cs ++ (.colon, ":") :: as)) Power.assignment (.conditional n t c a) where
  scans := by
    have hquestion : Scans (· = ' ') "?" [(TokenKind.question, "?")] := Token.scans_spaced (by decide)
    have hcolon : Scans (· = ' ') ":" [(TokenKind.colon, ":")] := Token.scans_spaced (by decide)
    have htail := hc.scans.join hcolon (by decide) ha.scans ha.leads.any
    have hall := ht.scans.join hquestion (by decide) htail
      ((((hc.leads.any.append _).append _).append _).append _)
    have hsame : text ++ " ? " ++ consequent ++ " : " ++ alternate =
        text ++ " " ++ "?" ++ " " ++ (consequent ++ " " ++ ":" ++ " " ++ alternate) := by
      simp only [show " ? " = " " ++ "?" ++ " " from rfl, show " : " = " " ++ ":" ++ " " from rfl,
        String.append_assoc]
    rw [hsame]
    exact hall
  leads := (((ht.leads.append _).append _).append _).append _
  plain := List.forall_mem_append.2 ⟨ht.plain, List.forall_mem_cons.2 ⟨by decide,
    List.forall_mem_append.2 ⟨hc.plain, List.forall_mem_cons.2 ⟨by decide, ha.plain⟩⟩⟩⟩
  reads input _ := (ht.reads input).conditional (hc.reads input) (ha.reads input) n

theorem assign {target : Pattern} {left value : Expr} (hleft : Spelled text ps Power.call left)
    (htarget : target.Targets left) (hvalue : Spelled text' qs Power.assignment value) (n : Node)
    (op : AssignOp) :
    Spelled (text ++ " " ++ op.text ++ " " ++ text') (ps ++ op.piece :: qs) Power.assignment
      (.assign n op target value) where
  scans := hleft.scans.join op.scans_text (by cases op <;> decide) hvalue.scans hvalue.leads.any
  leads := (((hleft.leads.append _).append _).append _).append _
  plain :=
    List.forall_mem_append.2 ⟨hleft.plain, List.forall_mem_cons.2 ⟨by cases op <;> decide, hvalue.plain⟩⟩
  reads input _ := (hleft.reads input).assign htarget (hvalue.reads input) n op

theorem member (h : Spelled text ps Power.call e) (n : Node) {property : String}
    (hword : Text.isWord property = true) :
    Spelled (text ++ "." ++ property) (ps ++ [(.dot, "."), (Token.wordKind property.toList, property)])
      Power.call (.member n e property) where
  scans := by
    have htail := Token.scans_point.append (Token.scans_word hword) (Token.leads_word hword)
    have hdot : Leads EndsWord "." := by decide
    rw [String.append_assoc]
    exact h.scans.append htail (hdot.append _)
  leads := (h.leads.append _).append _
  plain := by
    refine List.forall_mem_append.2
      ⟨h.plain, List.forall_mem_cons.2 ⟨by decide, List.forall_mem_singleton.2 ?_⟩⟩
    rcases Token.wordKind_cases property with hkind | hkind <;> rw [hkind] <;> exact ⟨nofun, nofun⟩
  reads input _ := (h.reads input).member n (Token.wordKind_cases property) property

theorem index {p : Expr} (h : Spelled text ps Power.call e) (hp : Spelled text' qs Power.sequence p)
    (n : Node) :
    Spelled (text ++ "[" ++ text' ++ "]") (ps ++ Parser.brackets qs) Power.call (.index n e p) where
  scans := by
    have hbracket : Leads EndsWord "[" := by decide
    have hsame : text ++ "[" ++ text' ++ "]" = text ++ ("[" ++ text' ++ "]") := by
      simp only [String.append_assoc]
    rw [hsame]
    exact h.scans.append hp.scans.brackets.ended ((hbracket.append _).append _)
  leads := ((h.leads.append _).append _).append _
  plain := List.forall_mem_append.2 ⟨h.plain, plain_brackets hp.plain⟩
  reads input _ := (h.reads input).index (hp.reads input) n

/-! ### Lists -/

/-- The items are scanned to pieces of their own. -/
structure Items (texts : List String) (pss : List (List Piece)) : Prop where
  scans : List.Forall₂ (fun text ps => Scans EndsWord text ps ∧ Leads (fun _ => True) text) texts pss
  plain : ∀ ps ∈ pss, ∀ x ∈ ps, IsPlainPiece x

theorem Items.plain_commaed {texts : List String} {pss : List (List Piece)} (h : Items texts pss) :
    ∀ x ∈ Parser.commaed pss, IsPlainPiece x := by
  cases pss with
  | nil => simp [Parser.commaed]
  | cons ps pss =>
    obtain ⟨hps, hpss⟩ := List.forall_mem_cons.1 h.plain
    refine List.forall_mem_append.2 ⟨hps, fun x hx => ?_⟩
    obtain ⟨qs, hqs, hx⟩ := List.mem_flatMap.1 hx
    rcases List.mem_cons.1 hx with rfl | hx
    · decide
    · exact hpss qs hqs x hx

theorem array {texts : List String} {pss : List (List Piece)} {es : List Element} (h : Items texts pss)
    (hreads : ∀ (input : Input) [input.Plain], List.Forall₂ (Parser.ReadsElement input) pss es) (n : Node) :
    Spelled ("[" ++ commas texts ++ "]") (Parser.brackets (Parser.commaed pss)) Power.primary
      (.array n es) where
  scans := (Scans.commas h.scans).brackets.ended
  leads := by
    have hbracket : Leads OpensExpression "[" := by decide
    exact (hbracket.append _).append _
  plain := plain_brackets h.plain_commaed
  reads input _ := .array (hreads input) n

theorem call {texts : List String} {pss : List (List Piece)} {es : List Element}
    (h : Spelled text ps Power.call e)
    (hes : Items texts pss)
    (hreads : ∀ (input : Input) [input.Plain], List.Forall₂ (Parser.ReadsElement input) pss es) (n : Node) :
    Spelled (text ++ inParens (commas texts)) (ps ++ Parser.parens (Parser.commaed pss)) Power.call
      (.call n e es) where
  scans := by
    have hparen : Leads EndsWord "(" := by decide
    exact h.scans.append (Scans.commas hes.scans).parens.ended ((hparen.append _).append _)
  leads := h.leads.append _
  plain := List.forall_mem_append.2 ⟨h.plain, plain_parens hes.plain_commaed⟩
  reads input _ := (h.reads input).call (hreads input) n

theorem sequence {texts : List String} {pss : List (List Piece)} {es : List Expr} (h : Items texts pss)
    (hleads : Leads OpensExpression (commas texts))
    (hreads : ∀ (input : Input) [input.Plain], List.Forall₂ (Parser.Reads input Power.assignment) pss es)
    (hmany : 2 ≤ es.length) (n : Node) :
    Spelled (commas texts) (Parser.commaed pss) Power.sequence (.sequence n es) where
  scans := Scans.commas h.scans
  leads := hleads
  plain := h.plain_commaed
  reads input _ := .sequence (hreads input) hmany n

end Spelled

/-! ## Plain expressions -/

/-- The expression of an element. -/
def Element.value : Element → Expr
  | .one e | .spread e => e

/-- Expressions of names, strings, truth values, `null` and `this` with every operator, conditionals,
assignments to names and members, calls, members, arrays and sequences. -/
inductive Expr.Plain : Expr → Prop
  | name (n : Node) (i : Ident) (hword : Text.isWord i.name = true) (hname : i.name ∉ Token.keywords) :
    Plain (.name n i)
  | string (n : Node) (s : String) : Plain (.literal n (.string s))
  | boolean (n : Node) (b : Bool) : Plain (.literal n (.boolean b))
  | null (n : Node) : Plain (.literal n .null)
  | this (n : Node) : Plain (.this n)
  | unary (n : Node) (op : UnaryOp) {e : Expr} (h : Plain e) : Plain (.unary n op e)
  | update (n : Node) (op : UpdateOp) (before : Bool) {e : Expr} (h : Plain e) : Plain (.update n op before e)
  | binary (n : Node) (op : BinaryOp) {l r : Expr} (hl : Plain l) (hr : Plain r) : Plain (.binary n op l r)
  | logical (n : Node) (op : LogicalOp) {l r : Expr} (hl : Plain l) (hr : Plain r) : Plain (.logical n op l r)
  | conditional (n : Node) {t c a : Expr} (ht : Plain t) (hc : Plain c) (ha : Plain a) :
    Plain (.conditional n t c a)
  | assign (n : Node) (op : AssignOp) {target : Pattern} {left value : Expr} (htarget : target.Targets left)
    (hleft : Plain left) (hvalue : Plain value) : Plain (.assign n op target value)
  | call (n : Node) {e : Expr} {es : List Element} (he : Plain e) (hes : ∀ x ∈ es, Plain x.value) :
    Plain (.call n e es)
  | member (n : Node) {e : Expr} {property : String} (he : Plain e) (hword : Text.isWord property = true) :
    Plain (.member n e property)
  | index (n : Node) {e p : Expr} (he : Plain e) (hp : Plain p) : Plain (.index n e p)
  | array (n : Node) {es : List Element} (hes : ∀ x ∈ es, Plain x.value) : Plain (.array n es)
  | sequence (n : Node) {es : List Expr} (hmany : 2 ≤ es.length) (hes : ∀ e ∈ es, Plain e) :
    Plain (.sequence n es)

theorem exists_items_elements {indent : Nat} {es : List Element}
    (h : ∀ x ∈ es, ∃ ps, Spelled (x.value.write indent) ps x.value.power x.value) :
    ∃ pss, Spelled.Items (Element.writeAll indent es) pss ∧
      ∀ (input : Input) [input.Plain], List.Forall₂ (Parser.ReadsElement input) pss es := by
  induction es with
  | nil => exact ⟨[], ⟨.nil, by simp⟩, fun _ _ => .nil⟩
  | cons x es ih =>
    obtain ⟨hx, hes⟩ := List.forall_mem_cons.1 h
    obtain ⟨pss, hitems, hreads⟩ := ih hes
    obtain ⟨ps, hps⟩ := hx
    obtain ⟨ps, hps⟩ := hps.group (show 1 ≤ Power.assignment by decide) (by decide)
    cases x with
    | one e =>
      refine ⟨ps :: pss, ⟨.cons ⟨hps.scans, hps.leads.any⟩ hitems.scans, ?_⟩, fun input _ => ?_⟩
      · exact List.forall_mem_cons.2 ⟨hps.plain, hitems.plain⟩
      · exact .cons (hps.reads input).one (hreads input)
    | spread e =>
      have hscans :
          Scans EndsWord ("..." ++ e.group Power.assignment (e.write indent)) ((.ellipsis, "...") :: ps) :=
        (Token.scans_closed "..." .ellipsis (by decide) (by decide)).append hps.scans hps.leads.any
      refine ⟨((.ellipsis, "...") :: ps) :: pss, ⟨.cons ⟨hscans, Token.leads_any (by simp)⟩ hitems.scans, ?_⟩,
        fun input _ => ?_⟩
      · exact List.forall_mem_cons.2 ⟨List.forall_mem_cons.2 ⟨by decide, hps.plain⟩, hitems.plain⟩
      · exact .cons (hps.reads input).spread (hreads input)

theorem exists_items {indent : Nat} {es : List Expr}
    (h : ∀ e ∈ es, ∃ ps, Spelled (e.write indent) ps e.power e) :
    ∃ pss, Spelled.Items (Expr.writeAll indent es) pss ∧
      (es ≠ [] → Leads OpensExpression (commas (Expr.writeAll indent es))) ∧
      ∀ (input : Input) [input.Plain], List.Forall₂ (Parser.Reads input Power.assignment) pss es := by
  induction es with
  | nil => exact ⟨[], ⟨.nil, by simp⟩, by simp, fun _ _ => .nil⟩
  | cons e es ih =>
    obtain ⟨he, hes⟩ := List.forall_mem_cons.1 h
    obtain ⟨pss, hitems, -, hreads⟩ := ih hes
    obtain ⟨ps, hps⟩ := he
    obtain ⟨ps, hps⟩ := hps.group (show 1 ≤ Power.assignment by decide) (by decide)
    refine ⟨ps :: pss, ⟨.cons ⟨hps.scans, hps.leads.any⟩ hitems.scans, ?_⟩, fun _ => ?_, fun input _ => ?_⟩
    · exact List.forall_mem_cons.2 ⟨hps.plain, hitems.plain⟩
    · exact hps.leads.commas _
    · exact .cons (hps.reads input) (hreads input)

/-- A target is written like the name or the member that it is. -/
theorem Pattern.Targets.write_eq {target : Pattern} {left : Expr} (h : target.Targets left) (indent : Nat) :
    target.write indent = left.group Power.call (left.write indent) := by
  cases h <;> rfl

theorem Expr.Plain.isNumber {e : Expr} (h : e.Plain) : e.isNumber = false := by
  cases h <;> rfl

theorem Expr.Plain.spelled {e : Expr} (h : e.Plain) (indent : Nat) :
    ∃ ps, Spelled (e.write indent) ps e.power e := by
  induction h with
  | name n i hword hname => exact ⟨_, .name n hword hname⟩
  | string n s => exact ⟨_, .string n s⟩
  | boolean n b =>
    cases b with
    | true => exact ⟨_, .keyword "true" (by decide) (by decide) fun input _ => .boolean n true⟩
    | false => exact ⟨_, .keyword "false" (by decide) (by decide) fun input _ => .boolean n false⟩
  | null n => exact ⟨_, .keyword "null" (by decide) (by decide) fun input _ => .null n⟩
  | this n => exact ⟨_, .keyword "this" (by decide) (by decide) fun input _ => .this n⟩
  | @unary n op e h ih =>
    obtain ⟨ps, hps⟩ := ih
    obtain ⟨qs, hqs⟩ := hps.group (show 1 ≤ Power.unary by decide) (by decide)
    exact ⟨_, hqs.unary n op⟩
  | @update n op before e h ih =>
    obtain ⟨ps, hps⟩ := ih
    cases before with
    | true =>
      obtain ⟨qs, hqs⟩ := hps.group (show 1 ≤ Power.unary by decide) (by decide)
      exact ⟨_, hqs.updateBefore n op⟩
    | false =>
      obtain ⟨qs, hqs⟩ := hps.group (show 1 ≤ Power.afterOperand + 1 by decide) (by decide)
      exact ⟨_, hqs.updateAfter n op⟩
  | @binary n op l r hl hr ihl ihr =>
    obtain ⟨ps, hps⟩ := ihl
    obtain ⟨qs, hqs⟩ := ihr
    obtain ⟨ps, hps⟩ := hps.group (show 1 ≤ op.leftPower by cases op <;> decide) (by cases op <;> decide)
    obtain ⟨qs, hqs⟩ := hqs.group (show 1 ≤ op.rightPower by cases op <;> decide) (by cases op <;> decide)
    exact ⟨_, hps.binary hqs n⟩
  | @logical n op l r hl hr ihl ihr =>
    obtain ⟨ps, hps⟩ := ihl
    obtain ⟨qs, hqs⟩ := ihr
    obtain ⟨ps, hps⟩ :=
      hps.groupOperand op (show 1 ≤ op.precedence by cases op <;> decide) (by cases op <;> decide)
    obtain ⟨qs, hqs⟩ := hqs.groupOperand op (show 1 ≤ op.precedence + 1 by cases op <;> decide)
      (by cases op <;> decide)
    exact ⟨_, hps.logical hqs n⟩
  | @conditional n t c a ht hc ha iht ihc iha =>
    obtain ⟨ps, hps⟩ := iht
    obtain ⟨cs, hcs⟩ := ihc
    obtain ⟨as, has⟩ := iha
    obtain ⟨ps, hps⟩ := hps.group (show 1 ≤ Power.test by decide) (by decide)
    obtain ⟨cs, hcs⟩ := hcs.group (show 1 ≤ Power.assignment by decide) (by decide)
    obtain ⟨as, has⟩ := has.group (show 1 ≤ Power.assignment by decide) (by decide)
    exact ⟨_, hps.conditional hcs has n⟩
  | @assign n op target left value htarget hleft hvalue ihleft ihvalue =>
    obtain ⟨ps, hps⟩ := ihleft
    obtain ⟨qs, hqs⟩ := ihvalue
    obtain ⟨ps, hps⟩ := hps.group (show 1 ≤ Power.call by decide) (by decide)
    obtain ⟨qs, hqs⟩ := hqs.group (show 1 ≤ Power.assignment by decide) (by decide)
    change ∃ rs, Spelled (target.write indent ++ " " ++ op.text ++ " " ++
      value.group Power.assignment (value.write indent)) rs _ _
    rw [htarget.write_eq]
    exact ⟨_, hps.assign htarget hqs n op⟩
  | @call n e es he hes ihe ihes =>
    obtain ⟨ps, hps⟩ := ihe
    obtain ⟨ps, hps⟩ := hps.group (show 1 ≤ Power.call by decide) (by decide)
    obtain ⟨pss, hitems, hreads⟩ := exists_items_elements ihes
    exact ⟨_, hps.call hitems hreads n⟩
  | @member n e property he hword ih =>
    obtain ⟨ps, hps⟩ := ih
    obtain ⟨ps, hps⟩ := hps.group (show 1 ≤ Power.call by decide) (by decide)
    change ∃ rs, Spelled ((if e.isNumber then inParens (e.write indent)
      else e.group Power.call (e.write indent)) ++ "." ++ property) rs _ _
    rw [he.isNumber]
    exact ⟨_, hps.member n hword⟩
  | @index n e p he hp ihe ihp =>
    obtain ⟨ps, hps⟩ := ihe
    obtain ⟨qs, hqs⟩ := ihp
    obtain ⟨ps, hps⟩ := hps.group (show 1 ≤ Power.call by decide) (by decide)
    change ∃ rs, Spelled ((if e.isNumber then inParens (e.write indent)
      else e.group Power.call (e.write indent)) ++ "[" ++ p.write indent ++ "]") rs _ _
    rw [he.isNumber]
    exact ⟨_, hps.index (hqs.mono p.power_mem.1 (Nat.le_refl _) p.power_mem.2) n⟩
  | @array n es hes ih =>
    obtain ⟨pss, hitems, hreads⟩ := exists_items_elements ih
    exact ⟨_, .array hitems hreads n⟩
  | @sequence n es hmany hes ih =>
    obtain ⟨pss, hitems, hleads, hreads⟩ := exists_items ih
    exact ⟨_, .sequence hitems (hleads (by rintro rfl; simp at hmany)) hreads hmany n⟩

theorem Input.plain_of_pieces (source : Source) {tokens : List Token}
    (hplain : ∀ t ∈ tokens, IsPlainPiece t.piece)
    (hline : ∀ t ∈ tokens, t.newlineBefore = false) : Input.Plain ⟨source, tokens.toArray⟩ where
  brace t ht := (hplain t (List.mem_toArray.1 ht)).1
  arrow t ht := (hplain t (List.mem_toArray.1 ht)).2
  line t ht := hline t (List.mem_toArray.1 ht)

/-- The text of a plain expression as a statement. -/
theorem Expr.Plain.scans_statement {e : Expr} (h : e.Plain) (n : Node) :
    ∃ ps, Scans (fun _ => True) (Stmt.write 0 (.expression n e)) (ps ++ [(TokenKind.semicolon, ";")]) ∧
      (∀ x ∈ ps, IsPlainPiece x) ∧
        ∀ (input : Input) [input.Plain], Parser.Reads input Power.sequence ps e := by
  obtain ⟨ps, hps⟩ := h.spelled 0
  have hps := hps.mono e.power_mem.1 (Nat.le_refl _) e.power_mem.2
  have hend := Token.scans_closed ";" .semicolon (by decide) (by decide)
  change ∃ rs, Scans _ (if (e.write 0).startsWith "\x7b" || (e.write 0).startsWith "function" ||
    (e.write 0).startsWith "class" then inParens (e.write 0) ++ ";" else e.write 0 ++ ";") _ ∧ _
  split_ifs
  · exact ⟨_, hps.parens.scans.append hend (by decide), hps.parens.plain,
      fun input _ => (hps.parens.reads input).mono (by decide) (by decide) (by decide)⟩
  · exact ⟨ps, hps.scans.append hend (by decide), hps.plain, fun input _ => hps.reads input⟩

/-- Parentheses by precedence are enough: the text of a plain expression, however the tree was built, is
read as one statement with the same expression. -/
theorem Expr.Plain.parse_printAll {e : Expr} (h : e.Plain) (n : Node) (origin : String) :
    ∃ m n' e', parse ⟨origin, printAll [.expression n e]⟩ = .ok m ∧ m.body = [.expression n' e'] ∧
      e.Alike e' := by
  obtain ⟨ps, hscans, hplain, hreads⟩ := h.scans_statement n
  obtain ⟨offset, tokens, hpieces, hline, hscan⟩ := hscans ['\n'] 0 [] (by simp)
  rw [List.append_nil] at hscan
  have htext : (printAll [.expression n e]).toList = (Stmt.write 0 (.expression n e)).toList ++ ['\n'] := by
    simp [printAll, Stmt.writeAll, String.join_cons]
  have hend : Token.scan 0 ['\n'] offset false tokens.reverse = .ok tokens := by
    change Except.ok tokens.reverse.reverse = _
    rw [List.reverse_reverse]
  have htokens : Source.tokens ⟨origin, printAll [.expression n e]⟩ = .ok tokens := by
    simp only [Source.tokens, htext, hscan, hend]
  have hkinds : ∀ t ∈ tokens, IsPlainPiece t.piece := by
    intro t ht
    have hmem : t.piece ∈ ps ++ [(TokenKind.semicolon, ";")] := hpieces ▸ List.mem_map_of_mem ht
    rcases List.mem_append.1 hmem with hmem | hmem
    · exact hplain _ hmem
    · rw [List.mem_singleton.1 hmem]
      decide
  have hinput := Input.plain_of_pieces ⟨origin, printAll [.expression n e]⟩ hkinds hline
  have hstatements := (hreads ⟨⟨origin, printAll [.expression n e]⟩, tokens.toArray⟩).statements
  obtain ⟨ss, c', hrun, -, n', e', rfl, he'⟩ := hstatements Cursor.initial ⟨hpieces, rfl⟩
  have hparse : parse ⟨origin, printAll [.expression n e]⟩ =
      .ok ⟨⟨0, (printAll [.expression n e]).utf8ByteSize⟩, [.expression n' e']⟩ := by
    rw [Parser.Runs] at hrun
    simp only [parse, htokens, bind, Except.bind, hrun]
    rfl
  exact ⟨_, n', e', hparse, rfl, he'⟩

/-- Signs before signs, a base with a sign, `??` with the other two, and commas among arguments. -/
def tangled : Expr :=
  let x : Expr := .name .synthetic (.synthetic "x")
  let minus : Expr := .unary .synthetic .minus (.unary .synthetic .minus x)
  let mixed : Expr := .logical .synthetic .nullish (.logical .synthetic .or x minus) x
  .assign .synthetic .pow (.expression .synthetic (.member .synthetic x "in"))
    (.call .synthetic mixed
      [.spread (.sequence .synthetic [.binary .synthetic .pow minus x, .literal .synthetic (.string "\n")]),
       .one (.update .synthetic .decrement true minus)])

theorem tangled_plain : tangled.Plain := by
  have hx : (Expr.name .synthetic (.synthetic "x")).Plain := .name _ _ (by decide) (by decide)
  have hminus := Expr.Plain.unary .synthetic .minus (Expr.Plain.unary .synthetic .minus hx)
  have hmixed := Expr.Plain.logical .synthetic .nullish (.logical .synthetic .or hx hminus) hx
  refine .assign _ _ (.member _ _ _ _) (.member _ hx (by decide))
    (.call _ hmixed (List.forall_mem_cons.2 ⟨?_, ?_⟩))
  · exact .sequence _ (by decide) (List.forall_mem_cons.2 ⟨.binary _ _ hminus hx,
      List.forall_mem_singleton.2 (.string _ _)⟩)
  · exact List.forall_mem_singleton.2 (.update _ _ _ hminus)

theorem parse_printAll_tangled :
    tangled.Plain ∧ ∃ m n' e', parse ⟨"tangled", printAll [.expression .synthetic tangled]⟩ = .ok m ∧
      m.body = [.expression n' e'] ∧ tangled.Alike e' :=
  ⟨tangled_plain, tangled_plain.parse_printAll .synthetic "tangled"⟩

end Syntax

end Whittle
