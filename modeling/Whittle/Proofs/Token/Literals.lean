import Mathlib.Data.List.Basic
import Mathlib.Tactic.Common
import Whittle.Proofs.Token.Partition

/-!
# String literals

A string literal is one token, and reading it gives back what was written.  That is so for every text that
is quoted.  A literal may also name code units of UTF-16 by four hexadecimal digits each; a unit that is a
character by itself is read as that character, but half of a surrogate pair is read as its digits, also where
the other half stands next to it.

Main statements: `Source.quote_reads_back`, `Source.units_read_back_iff`.
-/

namespace Whittle

namespace Token

/-- A source that is one lexeme is one token. -/
theorem tokens_of_lexeme {source : Source} {c : Char} {cs : List Char} {kind : TokenKind} {newline : Bool}
    (htext : source.text.toList = c :: cs)
    (hlexeme : lexeme c cs = .ok ⟨some kind, (c :: cs).length, newline⟩) :
    source.tokens = .ok [⟨kind, ⟨0, source.text.utf8ByteSize⟩, false, source.text⟩] := by
  have hwhole : String.ofList (c :: cs) = source.text := by rw [← htext, String.ofList_toList]
  have hscan : scan 0 source.text.toList 0 false [] =
      .ok [⟨kind, ⟨0, source.text.utf8ByteSize⟩, false, source.text⟩] := by
    rw [htext, scan_cons, hlexeme]
    dsimp only
    rw [scan_turn hlexeme, List.drop_length, List.take_length, hwhole, ← utf8ByteSize_ofList, hwhole,
      Nat.zero_add]
    rfl
  rw [Source.tokens, hscan]

/-- The two characters that begin string literals, and end them. -/
def IsQuote (c : Char) : Prop := c = '"' ∨ c = '\x27'

theorem lexeme_of_isQuote {quote : Char} (hquote : IsQuote quote) {cs : List Char} {n : Nat}
    (h : stringLength quote 1 cs = .ok n) : lexeme quote cs = .ok ⟨some .string, n, false⟩ := by
  have hstring : lexeme quote cs = (do return ⟨some .string, ← stringLength quote 1 cs, false⟩) := by
    obtain rfl | rfl := hquote <;> rfl
  rw [hstring, h]
  rfl

end Token

/-- Quoted text is one string literal from its first to its last byte, and read it is the text again. -/
theorem Source.quote_reads_back (origin s : String) :
    (Source.mk origin (Text.quote s)).tokens =
      .ok [⟨.string, ⟨0, (Text.quote s).utf8ByteSize⟩, false, Text.quote s⟩] ∧
    Text.unquote? (Text.quote s) = some s := by
  have htext : (Text.quote s).toList = '"' :: (s.toList.flatMap Text.quoteChar ++ ['"']) := by
    simp [Text.quote]
  refine ⟨Token.tokens_of_lexeme htext (Token.lexeme_of_isQuote (.inl rfl) ?_), Text.unquote?_quote s⟩
  rw [Token.stringLength_flatMap_quoteChar]
  simp [Nat.add_comm]

/-- Quotes, a backslash, line ends and a control character. -/
example : Text.quote "\"\\\n\r\x01" = "\"\\\"\\\\\\n\\r\\u0001\"" := by decide

namespace Text

/-! ## Code units -/

/-- The code units of a character in UTF-16: itself, or a pair of surrogates. -/
def units (c : Char) : List Nat :=
  if c.toNat < 0x10000 then [c.toNat]
  else [0xd800 + (c.toNat - 0x10000) / 0x400, 0xdc00 + (c.toNat - 0x10000) % 0x400]

/-- Whether a code unit is half of a pair. -/
def isSurrogate (n : Nat) : Bool := 0xd800 ≤ n && n < 0xe000

/-- A hexadecimal digit. -/
structure HexDigit where
  /-- How it is written. -/
  char : Char
  /-- What it counts. -/
  value : Nat
  /-- The one is the writing of the other. -/
  written : hexDigit? char = some value

/-- What a string literal between the given quotes is made of, the other escapes apart. -/
inductive LiteralPart (quote : Char) where
  /-- A character that stands for itself. -/
  | plain (c : Char) (stands : c ≠ quote ∧ c ≠ '\\' ∧ c ≠ '\n')
  /-- A code unit by its digits. -/
  | unit (first second third fourth : HexDigit)

namespace LiteralPart

variable {quote : Char}

/-- The characters of a part. -/
def written : LiteralPart quote → List Char
  | .plain c _ => [c]
  | .unit a b c d => ['\\', 'u', a.char, b.char, c.char, d.char]

/-- The code units that a part stands for. -/
def units : LiteralPart quote → List Nat
  | .plain c _ => Text.units c
  | .unit a b c d => [0x1000 * a.value + 0x100 * b.value + 0x10 * c.value + d.value]

/-- Whether a part names half of a pair. -/
def namesSurrogate : LiteralPart quote → Bool
  | .plain _ _ => false
  | .unit a b c d => isSurrogate (0x1000 * a.value + 0x100 * b.value + 0x10 * c.value + d.value)

/-- The characters that a part is read as. -/
def read : LiteralPart quote → List Char
  | .plain c _ => [c]
  | .unit a b c d =>
    let n := 0x1000 * a.value + 0x100 * b.value + 0x10 * c.value + d.value
    if isSurrogate n then [a.char, b.char, c.char, d.char] else [Char.ofNat n]

end LiteralPart

/-- The literal of the given parts. -/
def literal {quote : Char} (parts : List (LiteralPart quote)) : String :=
  String.ofList (quote :: (parts.flatMap (·.written) ++ [quote]))

/-! ## Reading code units -/

theorem HexDigit.range (d : HexDigit) :
    d.value < 16 ∧ (48 ≤ d.char.toNat ∧ d.char.toNat ≤ 57 ∨ 65 ≤ d.char.toNat ∧ d.char.toNat ≤ 70 ∨
      97 ≤ d.char.toNat ∧ d.char.toNat ≤ 102) := by
  have hle (a b : Char) : a ≤ b ↔ a.toNat ≤ b.toNat := Char.le_def.trans UInt32.le_iff_toNat_le
  have h := d.written
  simp only [hexDigit?, Bool.and_eq_true, decide_eq_true_eq, hle, Char.reduceToNat] at h
  split_ifs at h with hdecimal hsmall hlarge
  · have := Option.some.inj h
    omega
  · have := Option.some.inj h
    omega
  · have := Option.some.inj h
    omega

/-- A digit is no character with a meaning of its own in a literal. -/
theorem HexDigit.char_ne (d : HexDigit) {c : Char} (h : c.toNat < 48) : d.char ≠ c := by
  rintro rfl
  have := d.range.2
  omega

theorem HexDigit.char_ne_backslash (d : HexDigit) : d.char ≠ '\\' := by
  intro heq
  have := d.range.2
  rw [heq] at this
  exact absurd this (by decide)

theorem HexDigit.units_char (d : HexDigit) : units d.char = [d.char.toNat] := by
  have := d.range.2
  exact if_pos (by omega)

theorem isValidChar_iff {n : Nat} (h : n < 0x10000) : n.isValidChar ↔ isSurrogate n = false := by
  rw [isSurrogate, Bool.and_eq_false_iff, decide_eq_false_iff_not, decide_eq_false_iff_not]
  unfold Nat.isValidChar
  omega

theorem units_ofNat {n : Nat} (h : n < 0x10000) (hn : isSurrogate n = false) : units (Char.ofNat n) = [n] := by
  have hto : (Char.ofNat n).toNat = n := by
    rw [Char.ofNat, dif_pos ((isValidChar_iff h).2 hn)]
    rfl
  rw [units, hto, if_pos h]

theorem natural?_cons {c : Char} (h : c ≠ '+') (radix : Nat) (cs : List Char) :
    natural? radix (c :: cs) = digits? radix 0 (c :: cs) := by
  rw [natural?]
  · rfl
  · exact fun rest heq => h (List.head_eq_of_cons_eq heq)

theorem digits?_cons (d : HexDigit) (n : Nat) (cs : List Char) :
    digits? 16 n (d.char :: cs) = digits? 16 (16 * n + d.value) cs := by
  rw [digits?, d.written]
  exact if_pos d.range.1

/-- Four digits are read as the character they number, and as themselves where there is none. -/
theorem hexEscape_digits (a b c d : HexDigit) :
    hexEscape [a.char, b.char, c.char, d.char] =
      let n := 0x1000 * a.value + 0x100 * b.value + 0x10 * c.value + d.value
      if isSurrogate n then [a.char, b.char, c.char, d.char] else [Char.ofNat n] := by
  have hvalue : 16 * (16 * (16 * (16 * 0 + a.value) + b.value) + c.value) + d.value =
      0x1000 * a.value + 0x100 * b.value + 0x10 * c.value + d.value := by omega
  have hlt : 0x1000 * a.value + 0x100 * b.value + 0x10 * c.value + d.value < 0x10000 := by
    have := a.range.1
    have := b.range.1
    have := c.range.1
    have := d.range.1
    omega
  rw [hexEscape, natural?_cons (a.char_ne (by decide)), digits?_cons, digits?_cons, digits?_cons,
    digits?_cons, hvalue, digits?, Option.bind_some, scalar?]
  dsimp only
  generalize 0x1000 * a.value + 0x100 * b.value + 0x10 * c.value + d.value = n at hlt
  cases hn : isSurrogate n with
  | false => rw [if_pos ((isValidChar_iff hlt).2 hn), if_neg Bool.false_ne_true]
  | true => rw [if_neg (by rw [isValidChar_iff hlt, hn]; exact Bool.noConfusion), if_pos rfl]

namespace LiteralPart

variable {quote : Char}

/-- Each part is read by itself, whatever follows. -/
theorem unescape_written (p : LiteralPart quote) (rest : List Char) :
    unescape 0 (p.written ++ rest) = p.read ++ unescape 0 rest := by
  cases p with
  | plain c stands =>
    have hbackslash : ¬ (c == '\\') = true := by simpa using stands.2.1
    exact if_neg hbackslash
  | unit a b c d =>
    change hexEscape [a.char, b.char, c.char, d.char] ++ unescape 0 rest = _
    rw [hexEscape_digits]
    rfl

theorem unescape_flatMap_written (parts : List (LiteralPart quote)) :
    unescape 0 (parts.flatMap (·.written)) = parts.flatMap (·.read) := by
  induction parts with
  | nil => rfl
  | cons p parts ih => rw [List.flatMap_cons, unescape_written, ih, List.flatMap_cons]

/-- What is read has the code units of the part, but for half of a pair, of which the four digits are left. -/
theorem units_read (p : LiteralPart quote) (h : p.namesSurrogate = false) : p.read.flatMap Text.units = p.units := by
  cases p with
  | plain c stands => simp [read, units]
  | unit a b c d =>
    have ha := a.range.1
    have hb := b.range.1
    have hc := c.range.1
    have hd := d.range.1
    rw [namesSurrogate] at h
    simp only [read, h, Bool.false_eq_true, if_false, List.flatMap_singleton, units]
    exact units_ofNat (by omega) h

theorem length_units_read (p : LiteralPart quote) :
    (p.read.flatMap Text.units).length = p.units.length + if p.namesSurrogate then 3 else 0 := by
  cases h : p.namesSurrogate with
  | false => simp [units_read p h]
  | true =>
    cases p with
    | plain c stands => cases h
    | unit a b c d =>
      rw [namesSurrogate] at h
      simp [read, h, units, HexDigit.units_char]

theorem length_units_flatMap_read (parts : List (LiteralPart quote)) :
    ((parts.flatMap (·.read)).flatMap Text.units).length =
      (parts.flatMap (·.units)).length + 3 * parts.countP (·.namesSurrogate) := by
  induction parts with
  | nil => rfl
  | cons p parts ih =>
    rw [List.flatMap_cons, List.flatMap_append, List.length_append, ih, length_units_read, List.flatMap_cons,
      List.length_append, List.countP_cons]
    split <;> omega

/-- The code units are right exactly where no part names half of a pair. -/
theorem units_flatMap_read_iff (parts : List (LiteralPart quote)) :
    (parts.flatMap (·.read)).flatMap Text.units = parts.flatMap (·.units) ↔
      ∀ p ∈ parts, p.namesSurrogate = false := by
  constructor
  · intro heq p hp
    -- the digits of half a pair are three code units too many, which nothing makes up for
    have hlength := length_units_flatMap_read parts
    rw [heq] at hlength
    have hnone : parts.countP (·.namesSurrogate) = 0 := by omega
    exact Bool.eq_false_iff.2 (List.countP_eq_zero.1 hnone p hp)
  · intro h
    rw [List.flatMap_assoc]
    exact List.flatMap_congr fun p hp => p.units_read (h p hp)

end LiteralPart

theorem unquote?_literal {quote : Char} (hquote : Token.IsQuote quote) (parts : List (LiteralPart quote)) :
    unquote? (literal parts) = some (String.ofList (parts.flatMap (·.read))) := by
  have hsize : quote.utf8Size = 1 := by obtain rfl | rfl := hquote <;> rfl
  rw [literal, unquote?_enclosed hsize, LiteralPart.unescape_flatMap_written]

end Text

namespace Token

variable {quote : Char}

theorem stringLength_cons {c : Char} (hc : c ≠ quote ∧ c ≠ '\\' ∧ c ≠ '\n') (n : Nat) (rest : List Char) :
    stringLength quote n (c :: rest) = stringLength quote (n + 1) rest := by
  obtain ⟨hquote, hbackslash, hline⟩ := hc
  rw [stringLength, if_neg (by simpa using hquote)]
  all_goals simp_all

theorem stringLength_written (hquote : IsQuote quote) (p : Text.LiteralPart quote) (n : Nat) (rest : List Char) :
    stringLength quote n (p.written ++ rest) = stringLength quote (n + p.written.length) rest := by
  cases p with
  | plain c stands => exact stringLength_cons stands n rest
  | unit a b c d =>
    have hlow : quote.toNat < 48 := by obtain rfl | rfl := hquote <;> decide
    have hstands (d : Text.HexDigit) : d.char ≠ quote ∧ d.char ≠ '\\' ∧ d.char ≠ '\n' :=
      ⟨d.char_ne hlow, d.char_ne_backslash, d.char_ne (by decide)⟩
    change stringLength quote (n + 2) (a.char :: b.char :: c.char :: d.char :: rest) = _
    rw [stringLength_cons (hstands a), stringLength_cons (hstands b), stringLength_cons (hstands c),
      stringLength_cons (hstands d)]
    rfl

theorem stringLength_flatMap_written (hquote : IsQuote quote) (parts : List (Text.LiteralPart quote)) (n : Nat) :
    stringLength quote n (parts.flatMap (·.written) ++ [quote]) =
      .ok (n + (parts.flatMap (·.written)).length + 1) := by
  induction parts generalizing n with
  | nil => obtain rfl | rfl := hquote <;> rfl
  | cons p parts ih =>
    rw [List.flatMap_cons, List.append_assoc, stringLength_written hquote, ih, List.length_append,
      Nat.add_assoc n]

end Token

/-- A string literal of plain characters and of code units named by four digits is one token.  What it is read
as has these code units exactly where none of them is named as half of a pair; of such a name the four digits
are left. -/
theorem Source.units_read_back_iff (origin : String) {quote : Char} (hquote : Token.IsQuote quote)
    (parts : List (Text.LiteralPart quote)) :
    (Source.mk origin (Text.literal parts)).tokens =
      .ok [⟨.string, ⟨0, (Text.literal parts).utf8ByteSize⟩, false, Text.literal parts⟩] ∧
    ∃ s, Text.unquote? (Text.literal parts) = some s ∧ s.toList = parts.flatMap (·.read) ∧
      (s.toList.flatMap Text.units = parts.flatMap (·.units) ↔ ∀ p ∈ parts, p.namesSurrogate = false) := by
  constructor
  · have htext : (Text.literal parts).toList = quote :: (parts.flatMap (·.written) ++ [quote]) := by
      simp [Text.literal]
    refine Token.tokens_of_lexeme htext (Token.lexeme_of_isQuote hquote ?_)
    rw [Token.stringLength_flatMap_written hquote]
    simp [Nat.add_comm]
  · refine ⟨_, Text.unquote?_literal hquote parts, String.toList_ofList, ?_⟩
    rw [String.toList_ofList]
    exact Text.LiteralPart.units_flatMap_read_iff parts

/-- A letter, a code unit that is a character by itself, and the two halves of a pair. -/
def grinning : List (Text.LiteralPart '"') :=
  [.plain 'a' (by decide),
   .unit ⟨'0', 0, rfl⟩ ⟨'0', 0, rfl⟩ ⟨'e', 14, rfl⟩ ⟨'9', 9, rfl⟩,
   .unit ⟨'d', 13, rfl⟩ ⟨'8', 8, rfl⟩ ⟨'3', 3, rfl⟩ ⟨'d', 13, rfl⟩,
   .unit ⟨'D', 13, rfl⟩ ⟨'E', 14, rfl⟩ ⟨'0', 0, rfl⟩ ⟨'0', 0, rfl⟩]

theorem Source.units_read_back_iff_grinning :
    Text.literal grinning = "\"a\\u00e9\\ud83d\\uDE00\"" ∧
    grinning.flatMap (·.units) = "aé😀".toList.flatMap Text.units ∧
    Text.unquote? (Text.literal grinning) = some "aéd83dDE00" ∧
    "aéd83dDE00".toList.flatMap Text.units ≠ grinning.flatMap (·.units) := by
  obtain ⟨s, hs, hchars, hunits⟩ := (Source.units_read_back_iff "<memory>" (.inl rfl) grinning).2
  have hread : grinning.flatMap (·.read) = "aéd83dDE00".toList := by decide
  obtain rfl : s = "aéd83dDE00" := by rw [← String.ofList_toList (s := s), hchars, hread, String.ofList_toList]
  refine ⟨by decide, by decide, hs, ?_⟩
  rw [Ne, hunits]
  decide

end Whittle
