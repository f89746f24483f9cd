import Mathlib.Tactic.Common
import Whittle.Proofs.Token.Scanning

/-!
# Tokens divide the source

Reading a text goes by turns, and every turn takes one lexeme from the front of what is left.  A lexeme
has a first character and ends inside the text, so the turns come to an end.  A lexeme without a kind is
a blank or a comment, and joins the gap before the next token.

Main statement: `Source.tokens_divide`, what the tokens of a source are in terms of its text alone.
-/

namespace Whittle.Token

/-! ## Punctuators -/

/-- The longest punctuator that a text starts with. -/
structure Longest (chars : List Char) (p : String × TokenKind) : Prop where
  /-- It is a punctuator. -/
  mem : p ∈ punctuators
  /-- The text starts with it. -/
  starts : p.1.toList <+: chars
  /-- No other punctuator that the text starts with is longer. -/
  longest : ∀ q ∈ punctuators, q.1.toList <+: chars → q.1.length ≤ p.1.length

theorem length_pos_of_mem_punctuators : ∀ p ∈ punctuators, 0 < p.1.length := by decide +kernel

theorem punctuators_decreasing : punctuators.Pairwise fun p q => q.1.length ≤ p.1.length := by
  decide +kernel

/-- Longer punctuators come first, so the first that is found is the longest. -/
theorem longest_of_punctuator? {chars : List Char} {p : String × TokenKind}
    (h : punctuator? chars = some p) : Longest chars p := by
  obtain ⟨hp, shorter, longer, hsplit, hnone⟩ := List.find?_eq_some_iff_append.1 h
  have hmem : p ∈ punctuators := List.mem_of_find?_eq_some h
  refine ⟨hmem, List.isPrefixOf_iff_prefix.1 hp, ?_⟩
  intro q hq hstarts
  have hdecreasing := punctuators_decreasing
  rw [hsplit] at hq hdecreasing
  rcases List.mem_append.1 hq with hbefore | hafter
  · have hnot := hnone q hbefore
    rw [List.isPrefixOf_iff_prefix.2 hstarts] at hnot
    cases hnot
  · rcases List.mem_cons.1 hafter with rfl | hafter
    · exact Nat.le_refl _
    · exact List.rel_of_pairwise_cons (List.pairwise_append.1 hdecreasing).2.1 hafter

/-! ## Lexemes -/

/-- The ways in which a lexeme is read from the front of a text. -/
inductive Lexes : List Char → Lexeme → Prop
  | blank (c : Char) (rest : List Char) (hblank : Text.isBlank c = true) :
      Lexes (c :: rest) ⟨none, 1, c == '\n'⟩
  | lineComment (rest : List Char) :
      Lexes ('/' :: '/' :: rest) ⟨none, lineLength ('/' :: '/' :: rest), false⟩
  | blockComment (rest : List Char) (n : Nat) (newline : Bool)
      (hclosed : commentLength rest = some (n, newline)) :
      Lexes ('/' :: '*' :: rest) ⟨none, n + 2, newline⟩
  | string (c : Char) (rest : List Char) (n : Nat) (hclosed : stringLength c 1 rest = .ok n) :
      Lexes (c :: rest) ⟨some .string, n, false⟩
  | number (c : Char) (rest : List Char) (n : Nat)
      (hstart : (c.isDigit || c == '.') = true) (hlength : numberLength (c :: rest) = .ok n) :
      Lexes (c :: rest) ⟨some .number, n, false⟩
  | word (c : Char) (rest : List Char) (hstart : Text.startsWord c = true) :
      Lexes (c :: rest)
        ⟨some (wordKind ((c :: rest).take (wordLength (c :: rest)))), wordLength (c :: rest), false⟩
  | punctuator (chars : List Char) (text : String) (kind : TokenKind)
      (hfound : punctuator? chars = some (text, kind)) :
      Lexes chars ⟨some kind, text.length, false⟩

theorem bind_eq_ok {n : Except Fault Nat} {f : Nat → Lexeme} {l : Lexeme}
    (h : (do return f (← n)) = .ok l) : ∃ m, n = .ok m ∧ f m = l := by
  cases n with
  | error fault => cases h
  | ok m =>
    cases h
    exact ⟨m, rfl, rfl⟩

theorem lexes_of_lexeme {c : Char} {rest : List Char} {l : Lexeme} (h : lexeme c rest = .ok l) :
    Lexes (c :: rest) l := by
  dsimp only [lexeme] at h
  split_ifs at h with hblank hline hblock hquote hback hnumber hword
  · cases h
    exact .blank c rest hblank
  · obtain ⟨rfl, hnext⟩ : c = '/' ∧ rest.head? = some '/' := by simpa using hline
    obtain ⟨tail, rfl⟩ := List.head?_eq_some_iff.1 hnext
    cases h
    exact .lineComment tail
  · obtain ⟨rfl, hnext⟩ : c = '/' ∧ rest.head? = some '*' := by simpa using hblock
    obtain ⟨tail, rfl⟩ := List.head?_eq_some_iff.1 hnext
    split at h
    · next n newline hclosed =>
      cases h
      exact .blockComment tail n newline hclosed
    · cases h
  · obtain ⟨n, hclosed, rfl⟩ := bind_eq_ok h
    exact .string c rest n hclosed
  · obtain ⟨n, hlength, rfl⟩ := bind_eq_ok h
    have hstart : (c.isDigit || c == '.') = true := by
      simp only [Bool.or_eq_true, Bool.and_eq_true] at hnumber ⊢
      exact hnumber.imp id And.left
    exact .number c rest n hstart hlength
  · cases h
    exact .word c rest hword
  · split at h
    · next text kind hfound =>
      cases h
      exact .punctuator (c :: rest) text kind hfound
    · cases h

/-! ### Their lengths -/

theorem stringLength_bounds {quote : Char} {n m : Nat} {cs : List Char}
    (h : stringLength quote n cs = .ok m) : n < m ∧ m ≤ n + cs.length := by
  fun_induction stringLength quote n cs with
  | case1 n => cases h
  | case2 n cs => cases h
  | case3 n => cases h
  | case4 n c cs ih =>
    have := ih h
    simp only [List.length_cons]
    omega
  | case5 n c cs =>
    cases h
    simp only [List.length_cons]
    omega
  | case6 n c cs _ _ _ _ ih =>
    have := ih h
    simp only [List.length_cons]
    omega

theorem decimalLength_le (dot exponent : Bool) (cs : List Char) :
    decimalLength dot exponent cs ≤ cs.length := by
  fun_induction decimalLength dot exponent cs <;>
    simp_all only [List.length_cons, List.length_nil] <;> omega

theorem numberLength_bounds {c : Char} {rest : List Char} {n : Nat}
    (hstart : (c.isDigit || c == '.') = true) (h : numberLength (c :: rest) = .ok n) :
    0 < n ∧ n ≤ (c :: rest).length := by
  dsimp only [numberLength] at h
  split at h
  · next hradix =>
    cases h
    have htake := (List.takeWhile_sublist (l := (c :: rest).drop 2) Char.isAlphanum).length_le
    have hmark : 2 ≤ (c :: rest).length := by
      cases rest with
      | nil => simp [hasRadixMark] at hradix
      | cons d rest => simp
    rw [List.length_drop] at htake
    omega
  · have hle := decimalLength_le false false (c :: rest)
    have hpos : 0 < decimalLength false false (c :: rest) := by
      unfold decimalLength
      by_cases hdigit : c.isDigit = true
      · rw [if_pos (by simp [hdigit])]
        omega
      · obtain rfl : c = '.' := by simpa [hdigit] using hstart
        show 0 < 1 + decimalLength true false rest
        omega
    obtain rfl : n = decimalLength false false (c :: rest) := by
      split at h
      · split at h
        · cases h
        · cases h
          rfl
      · cases h
        rfl
    exact ⟨hpos, hle⟩

theorem wordLength_bounds {c : Char} {rest : List Char} (h : Text.startsWord c = true) :
    0 < wordLength (c :: rest) ∧ wordLength (c :: rest) ≤ (c :: rest).length := by
  constructor
  · rw [wordLength, List.takeWhile_cons_of_pos (Text.continuesWord_of_startsWord h)]
    simp
  · exact (List.takeWhile_sublist Text.continuesWord).length_le

/-! ### Comments -/

/-- A closed comment: what stands before the first closing mark, and the mark. -/
theorem commentLength_eq_some {cs : List Char} {n : Nat} {newline : Bool}
    (h : commentLength cs = some (n, newline)) :
    ∃ inner rest, cs = inner ++ '*' :: '/' :: rest ∧ ¬ ['*', '/'] <:+: inner ∧
      n = inner.length + 2 ∧ (newline = true ↔ '\n' ∈ inner) := by
  induction cs generalizing n newline with
  | nil => cases h
  | cons c cs ih =>
    rw [commentLength] at h
    split at h
    · next hmark =>
      obtain ⟨rfl, hnext⟩ : c = '*' ∧ cs.head? = some '/' := by simpa using hmark
      obtain ⟨rest, rfl⟩ := List.head?_eq_some_iff.1 hnext
      cases h
      exact ⟨[], rest, rfl, by simp, rfl, by simp⟩
    · next hmark =>
      obtain ⟨⟨n', newline'⟩, hrest, hr⟩ := Option.map_eq_some_iff.1 h
      obtain ⟨inner, rest, rfl, hopen, rfl, hline⟩ := ih hrest
      cases hr
      refine ⟨c :: inner, rest, rfl, ?_, by simp, ?_⟩
      · intro hinfix
        rcases List.infix_cons_iff.1 hinfix with hfirst | hlater
        · -- the mark would stand at the front of the text
          obtain ⟨rfl, hnext⟩ := List.cons_prefix_cons.1 hfirst
          obtain ⟨tail, rfl⟩ := hnext
          simp at hmark
        · exact hopen hlater
      · rw [Bool.or_eq_true, hline, beq_iff_eq, List.mem_cons]
        grind

/-- A lexeme has a first character and ends inside the text. -/
theorem Lexes.length_bounds {chars : List Char} {l : Lexeme} (h : Lexes chars l) :
    0 < l.length ∧ l.length ≤ chars.length := by
  cases h with
  | blank c rest => simp
  | lineComment rest =>
    have hle := (List.takeWhile_sublist (l := rest) (· != '\n')).length_le
    have hline : lineLength ('/' :: '/' :: rest) = (rest.takeWhile (· != '\n')).length + 2 := rfl
    simp only [hline, List.length_cons]
    omega
  | blockComment rest n newline hclosed =>
    obtain ⟨inner, tail, rfl, -, rfl, -⟩ := commentLength_eq_some hclosed
    simp only [List.length_cons, List.length_append]
    omega
  | string c rest n hclosed =>
    have hbounds := stringLength_bounds hclosed
    simp only [List.length_cons]
    omega
  | number c rest n hstart hlength => exact numberLength_bounds hstart hlength
  | word c rest hstart => exact wordLength_bounds hstart
  | punctuator chars text kind hfound =>
    have hlongest := longest_of_punctuator? hfound
    have hle := hlongest.starts.length_le
    rw [String.length_toList] at hle
    exact ⟨length_pos_of_mem_punctuators _ hlongest.mem, hle⟩

/-! ## Gaps -/

/-- Text that holds no token, with what stands behind it: blanks, comments to the end of their line, and
comments to their closing mark. -/
inductive Gap : (gap rest : List Char) → Prop
  | nil (rest : List Char) : Gap [] rest
  | blank {c : Char} {gap rest : List Char} (hblank : Text.isBlank c = true) (hgap : Gap gap rest) :
      Gap (c :: gap) rest
  | lineComment {inner gap rest : List Char} (hline : '\n' ∉ inner)
      (hend : ∀ c ∈ (gap ++ rest).head?, c = '\n') (hgap : Gap gap rest) :
      Gap ('/' :: '/' :: inner ++ gap) rest
  | blockComment {inner gap rest : List Char} (hopen : ¬ ['*', '/'] <:+: inner) (hgap : Gap gap rest) :
      Gap ('/' :: '*' :: inner ++ '*' :: '/' :: gap) rest

/-- A lexeme that is no token joins the gap behind it, and says whether a line ends in it. -/
theorem Lexes.exists_gap {chars : List Char} {l : Lexeme} (h : Lexes chars l) (hkind : l.kind = none) :
    ∃ skipped behind, chars = skipped ++ behind ∧ skipped.length = l.length ∧
      (l.newline = true ↔ '\n' ∈ skipped) ∧
      ∀ gap rest, behind = gap ++ rest → Gap gap rest → Gap (skipped ++ gap) rest := by
  cases h with
  | blank c tail hblank =>
    refine ⟨[c], tail, rfl, rfl, ?_, ?_⟩
    · rw [beq_iff_eq, List.mem_singleton, eq_comm]
    · intro gap rest hbehind hgap
      exact .blank hblank hgap
  | lineComment tail =>
    have hinner : '\n' ∉ tail.takeWhile (· != '\n') := by
      intro hmem
      have hline := List.all_takeWhile (p := (· != '\n')) (l := tail)
      simpa using List.all_eq_true.1 hline _ hmem
    refine ⟨'/' :: '/' :: tail.takeWhile (· != '\n'), tail.dropWhile (· != '\n'), ?_, ?_, ?_, ?_⟩
    · rw [List.cons_append, List.cons_append, List.takeWhile_append_dropWhile]
    · simp [lineLength]
    · simpa using hinner
    · intro gap rest hbehind hgap
      refine .lineComment hinner ?_ hgap
      intro c hc
      have hstop := List.head?_dropWhile_not (· != '\n') tail
      rw [hbehind, Option.mem_def.1 hc] at hstop
      simpa using hstop
  | blockComment tail n newline hclosed =>
    obtain ⟨inner, behind, rfl, hopen, rfl, hline⟩ := commentLength_eq_some hclosed
    refine ⟨'/' :: '*' :: inner ++ ['*', '/'], behind, by simp, by simp, ?_, ?_⟩
    · simpa using hline
    · intro gap rest hbehind hgap
      rw [List.append_assoc]
      exact .blockComment hopen hgap
  | string c tail n hclosed => cases hkind
  | number c tail n hstart hlength => cases hkind
  | word c tail hstart => cases hkind
  | punctuator chars text kind hfound => cases hkind

/-! ## Turns -/

/-- The loop that reads a text from a byte offset on: each turn takes one lexeme from the front, and what is
left is read next.  `newline` tells whether a line ended since the last token. -/
inductive Run : (offset : Nat) → (newline : Bool) → List Char → Except (String × Nat) (List Token) → Prop
  | done (offset : Nat) (newline : Bool) : Run offset newline [] (.ok [])
  | fault {offset : Nat} {newline : Bool} {c : Char} {cs : List Char} {fault : Fault}
      (hlexeme : lexeme c cs = .error fault) :
      Run offset newline (c :: cs)
        (.error (fault.message, offset + byteLength ((c :: cs).take fault.offset)))
  | skip {offset : Nat} {newline : Bool} {c : Char} {cs : List Char} {l : Lexeme}
      {result : Except (String × Nat) (List Token)}
      (hlexeme : lexeme c cs = .ok l) (hkind : l.kind = none)
      (hrest : Run (offset + byteLength ((c :: cs).take l.length)) (newline || l.newline)
        ((c :: cs).drop l.length) result) :
      Run offset newline (c :: cs) result
  | token {offset : Nat} {newline : Bool} {c : Char} {cs : List Char} {l : Lexeme} {kind : TokenKind}
      {result : Except (String × Nat) (List Token)}
      (hlexeme : lexeme c cs = .ok l) (hkind : l.kind = some kind)
      (hrest : Run (offset + byteLength ((c :: cs).take l.length)) false
        ((c :: cs).drop l.length) result) :
      Run offset newline (c :: cs) (result.map fun ts =>
        ⟨kind, ⟨offset, offset + byteLength ((c :: cs).take l.length)⟩, newline,
          String.ofList ((c :: cs).take l.length)⟩ :: ts)

/-- The tokens found so far stay in front. -/
theorem scan_found (skip : Nat) (cs : List Char) (offset : Nat) (newline : Bool) (found : List Token) :
    scan skip cs offset newline found = (scan skip cs offset newline []).map (found.reverse ++ ·) := by
  induction cs generalizing skip offset newline found with
  | nil =>
    have hnil (found : List Token) : scan skip [] offset newline found = .ok found.reverse := by
      cases skip <;> rfl
    rw [hnil, hnil]
    simp [Except.map]
  | cons c cs ih =>
    cases skip with
    | succ skip => exact ih skip (offset + c.utf8Size) newline found
    | zero =>
      rw [scan_cons, scan_cons]
      cases lexeme c cs with
      | error fault => rfl
      | ok l =>
        dsimp only
        cases l.kind with
        | none => exact ih _ _ _ found
        | some kind =>
          dsimp only
          rw [ih _ _ _ (_ :: found), ih _ _ _ [_]]
          cases scan (l.length - 1) cs (offset + c.utf8Size) false [] <;> simp [Except.map]

/-- One turn: the characters of the lexeme are passed one by one. -/
theorem scan_turn {c : Char} {cs : List Char} {l : Lexeme} (hlexeme : lexeme c cs = .ok l) (offset : Nat)
    (newline : Bool) (found : List Token) :
    scan (l.length - 1) cs (offset + c.utf8Size) newline found =
      scan 0 ((c :: cs).drop l.length) (offset + byteLength ((c :: cs).take l.length)) newline found := by
  obtain ⟨hpos, hle⟩ := (lexes_of_lexeme hlexeme).length_bounds
  obtain ⟨n, hn⟩ : ∃ n, l.length = n + 1 := ⟨l.length - 1, by omega⟩
  rw [hn, List.length_cons] at hle
  have hskip := scan_skip (cs.take n) (cs.drop n) (offset + c.utf8Size) newline found
  rw [List.length_take, Nat.min_eq_left (by omega), List.take_append_drop] at hskip
  rw [hn, List.take_succ_cons, List.drop_succ_cons, byteLength_cons, ← Nat.add_assoc]
  exact hskip

/-- Every text is read to its end or to a fault, turn by turn, and with the result of the scan. -/
theorem run_scan (offset : Nat) (newline : Bool) (cs : List Char) :
    Run offset newline cs (scan 0 cs offset newline []) := by
  -- every turn shortens the text
  induction hn : cs.length using Nat.strongRecOn generalizing offset newline cs with
  | _ n ih =>
    cases cs with
    | nil => exact .done offset newline
    | cons c cs =>
      rw [scan_cons]
      cases hlexeme : lexeme c cs with
      | error fault => exact .fault hlexeme
      | ok l =>
        have hshorter : ((c :: cs).drop l.length).length < n := by
          have := (lexes_of_lexeme hlexeme).length_bounds
          rw [List.length_drop]
          omega
        dsimp only
        cases hkind : l.kind with
        | none =>
          rw [scan_turn hlexeme]
          exact .skip hlexeme hkind (ih _ hshorter _ _ _ rfl)
        | some kind =>
          dsimp only
          rw [scan_turn hlexeme, scan_found]
          exact .token hlexeme hkind (ih _ hshorter _ _ _ rfl)

/-! ## Division -/

/-- Whether tokens of a kind are neither words nor literals. -/
def isPunctuator : TokenKind → Bool
  | .keyword | .identifier | .number | .string => false
  | _ => true

/-- A text that starts at a byte offset is gaps and tokens by turns, and the tokens say where they stand and
whether a line ends in the gap directly before them. -/
inductive Divides : (offset : Nat) → List Char → List Token → Prop
  | rest {offset : Nat} {gap : List Char} (hgap : Gap gap []) : Divides offset gap []
  | token {offset : Nat} {gap chars behind : List Char} {t : Token} {ts : List Token}
      (hgap : Gap gap (chars ++ behind)) (hnonempty : chars ≠ []) (htext : t.text = String.ofList chars)
      (hstart : t.span.start = offset + byteLength gap)
      (hstop : t.span.stop = t.span.start + byteLength chars)
      (hnewline : t.newlineBefore = true ↔ '\n' ∈ gap)
      (hlongest : isPunctuator t.kind = true → Longest (chars ++ behind) (t.text, t.kind))
      (hrest : Divides t.span.stop behind ts) :
      Divides offset (gap ++ (chars ++ behind)) (t :: ts)

/-- Where a token stands in a text. -/
structure Stands (text : String) (t : Token) : Prop where
  /-- It has a character. -/
  nonempty : t.span.start < t.span.stop
  /-- It starts between two characters. -/
  start_valid : (⟨t.span.start⟩ : String.Pos.Raw).IsValid text
  /-- It stops between two characters. -/
  stop_valid : (⟨t.span.stop⟩ : String.Pos.Raw).IsValid text
  /-- What stands there is its text. -/
  slice : ∃ before after, text = before ++ t.text ++ after ∧ before.utf8ByteSize = t.span.start ∧
    (before ++ t.text).utf8ByteSize = t.span.stop

/-- A punctuator that is read is the longest one that stands there. -/
theorem Lexes.longest {chars : List Char} {l : Lexeme} {kind : TokenKind} (h : Lexes chars l)
    (hkind : l.kind = some kind) (hpunctuator : isPunctuator kind = true) :
    Longest chars (String.ofList (chars.take l.length), kind) := by
  cases h with
  | blank => cases hkind
  | lineComment => cases hkind
  | blockComment => cases hkind
  | string =>
    cases hkind
    cases hpunctuator
  | number =>
    cases hkind
    cases hpunctuator
  | word c rest hstart =>
    obtain rfl := Option.some.inj hkind
    unfold wordKind at hpunctuator
    split at hpunctuator <;> cases hpunctuator
  | punctuator chars text kind hfound =>
    cases hkind
    have hlongest := longest_of_punctuator? hfound
    have htake : text.toList = chars.take text.length := by
      rw [← String.length_toList]
      exact List.prefix_iff_eq_take.1 hlongest.starts
    rwa [← htake, String.ofList_toList]

theorem byteLength_pos {cs : List Char} (h : cs ≠ []) : 0 < byteLength cs := by
  cases cs with
  | nil => exact absurd rfl h
  | cons c cs =>
    have := c.utf8Size_pos
    rw [byteLength_cons]
    omega

theorem utf8ByteSize_ofList (cs : List Char) : (String.ofList cs).utf8ByteSize = byteLength cs := by
  induction cs with
  | nil => rfl
  | cons c cs ih =>
    rw [String.ofList_cons, String.utf8ByteSize_append, String.utf8ByteSize_singleton, ih, byteLength_cons]

/-- What was skipped since the last token is a gap, wherever the next token starts. -/
theorem Run.divides {offset start : Nat} {newline : Bool} {skipped chars : List Char}
    {result : Except (String × Nat) (List Token)} {ts : List Token} (h : Run offset newline chars result)
    (hresult : result = .ok ts) (hoffset : offset = start + byteLength skipped)
    (hnewline : newline = true ↔ '\n' ∈ skipped)
    (hskipped : ∀ gap rest, chars = gap ++ rest → Gap gap rest → Gap (skipped ++ gap) rest) :
    Divides start (skipped ++ chars) ts := by
  induction h generalizing start skipped ts with
  | done offset newline =>
    cases hresult
    exact .rest (hskipped [] [] rfl (.nil []))
  | fault hlexeme => cases hresult
  | @skip offset newline c cs l result hlexeme hkind hrest ih =>
    obtain ⟨more, behind, hsplit, hlength, hline, hgap⟩ := (lexes_of_lexeme hlexeme).exists_gap hkind
    rw [hsplit, ← hlength, List.take_left, List.drop_left] at ih
    rw [hsplit, ← List.append_assoc]
    refine ih hresult ?_ ?_ ?_
    · rw [hoffset, byteLength_append, Nat.add_assoc]
    · rw [Bool.or_eq_true, hnewline, hline, List.mem_append]
    · intro gap rest hbehind hnext
      rw [List.append_assoc]
      apply hskipped
      · rw [hsplit, hbehind, List.append_assoc]
      · exact hgap gap rest hbehind hnext
  | @token offset newline c cs l kind result hlexeme hkind hrest ih =>
    have hlexes := lexes_of_lexeme hlexeme
    have hbounds := hlexes.length_bounds
    obtain ⟨taken, behind, hsplit, hlength⟩ :
        ∃ taken behind, c :: cs = taken ++ behind ∧ taken.length = l.length :=
      ⟨(c :: cs).take l.length, (c :: cs).drop l.length, (List.take_append_drop _ _).symm,
        by rw [List.length_take]; omega⟩
    cases result with
    | error fault => cases hresult
    | ok later =>
      cases hresult
      have hgap := hskipped [] (c :: cs) rfl (.nil _)
      have hnext : Divides (offset + byteLength ((c :: cs).take l.length))
          ([] ++ (c :: cs).drop l.length) later :=
        ih rfl rfl (by simp) (fun gap rest _ h => h)
      have hpunctuator := hlexes.longest hkind
      rw [hsplit, ← hlength, List.take_left] at hpunctuator
      rw [hsplit, ← hlength, List.take_left, List.drop_left] at hnext
      rw [hsplit, List.append_nil] at hgap
      rw [hsplit, ← hlength, List.take_left]
      refine .token hgap ?_ rfl hoffset rfl hnewline hpunctuator hnext
      rintro rfl
      simp only [List.length_nil] at hlength
      omega

theorem isValid_append (s t : String) : (⟨s.utf8ByteSize⟩ : String.Pos.Raw).IsValid (s ++ t) :=
  String.Pos.Raw.isValid_iff_exists_append.2 ⟨s, t, rfl, rfl⟩

/-- The tokens stand in the text, whatever stands before it. -/
theorem Divides.stands {offset : Nat} {chars before : List Char} {ts : List Token}
    (h : Divides offset chars ts) (hbefore : byteLength before = offset) :
    ∀ t ∈ ts, t.Stands (String.ofList (before ++ chars)) := by
  induction h generalizing before with
  | rest hgap => simp
  | @token offset gap chars behind t ts hgap hnonempty htext hstart hstop hnewline hlongest hrest ih =>
    have hsplit : String.ofList (before ++ (gap ++ (chars ++ behind))) =
        String.ofList (before ++ gap) ++ t.text ++ String.ofList behind := by
      rw [htext, ← String.ofList_append, ← String.ofList_append]
      simp
    have hfront : (String.ofList (before ++ gap)).utf8ByteSize = t.span.start := by
      rw [utf8ByteSize_ofList, byteLength_append, hbefore, hstart]
    have hback : (String.ofList (before ++ gap) ++ t.text).utf8ByteSize = t.span.stop := by
      rw [String.utf8ByteSize_append, hfront, htext, utf8ByteSize_ofList, hstop]
    intro u hu
    rcases List.mem_cons.1 hu with rfl | hu
    · have hpos := byteLength_pos hnonempty
      refine ⟨by omega, ?_, ?_, _, _, hsplit, hfront, hback⟩
      · rw [hsplit, ← hfront, String.append_assoc]
        exact isValid_append _ _
      · rw [hsplit, ← hback]
        exact isValid_append _ _
    · have hlater : byteLength (before ++ gap ++ chars) = t.span.stop := by
        rw [byteLength_append, byteLength_append]
        omega
      have hstands := ih hlater u hu
      rwa [List.append_assoc, List.append_assoc] at hstands

theorem Divides.start_le {offset : Nat} {chars : List Char} {ts : List Token}
    (h : Divides offset chars ts) : ∀ t ∈ ts, offset ≤ t.span.start := by
  induction h with
  | rest hgap => simp
  | token hgap hnonempty htext hstart hstop hnewline hlongest hrest ih =>
    intro u hu
    rcases List.mem_cons.1 hu with rfl | hu
    · omega
    · have := ih u hu
      omega

theorem Divides.increasing {offset : Nat} {chars : List Char} {ts : List Token}
    (h : Divides offset chars ts) : ts.Pairwise fun t u => t.span.stop ≤ u.span.start := by
  induction h with
  | rest hgap => exact .nil
  | token hgap hnonempty htext hstart hstop hnewline hlongest hrest ih =>
    exact List.pairwise_cons.2 ⟨hrest.start_le, ih⟩

end Whittle.Token

namespace Whittle.Source

open Token

/-- Every source is read to its end or to a fault.  Its tokens have characters, stand at character
boundaries and in order; what stands before, between and behind them is blanks and closed comments; a
token says whether a line ends directly before it; and a punctuator is the longest one that stands
there. -/
theorem tokens_divide (source : Source) :
    (∃ result, Run 0 false source.text.toList result ∧
      source.tokens = result.mapError fun e => source.errorAt e.1 e.2) ∧
    ∀ ts, source.tokens = .ok ts →
      Divides 0 source.text.toList ts ∧ (∀ t ∈ ts, t.Stands source.text) ∧
        ts.Pairwise fun t u => t.span.stop ≤ u.span.start := by
  have hrun := run_scan 0 false source.text.toList
  constructor
  · refine ⟨_, hrun, ?_⟩
    unfold tokens
    cases scan 0 source.text.toList 0 false [] <;> rfl
  · intro ts hts
    have hscan : scan 0 source.text.toList 0 false [] = .ok ts := by
      unfold tokens at hts
      cases hscan : scan 0 source.text.toList 0 false [] with
      | error fault => simp [hscan] at hts
      | ok found =>
        rw [hscan] at hts
        cases hts
        rfl
    have hdivides : Divides 0 ([] ++ source.text.toList) ts :=
      hrun.divides hscan rfl (by simp) (fun gap rest _ h => h)
    refine ⟨hdivides, ?_, hdivides.increasing⟩
    intro t ht
    have hstands : t.Stands (String.ofList ([] ++ source.text.toList)) := hdivides.stands rfl t ht
    rwa [List.nil_append, String.ofList_toList] at hstands

/-- A comment with a line end inside, the longest operator, a number that starts with its point, a comment to
the end of the line, and characters of two bytes. -/
def mixed : Source := .inMemory "/* é\n*/ a >>>= .5 // b\n\"é\""

theorem tokens_divide_mixed :
    ∃ ts, mixed.tokens = .ok ts ∧ ts.map (·.text) = ["a", ">>>=", ".5", "\"é\""] ∧
      Divides 0 mixed.text.toList ts ∧ (∀ t ∈ ts, t.Stands mixed.text) ∧
        ts.Pairwise fun t u => t.span.stop ≤ u.span.start := by
  have htokens : mixed.tokens = .ok
      [⟨.identifier, ⟨9, 10⟩, true, "a"⟩, ⟨.assignment, ⟨11, 15⟩, false, ">>>="⟩,
       ⟨.number, ⟨16, 18⟩, false, ".5"⟩, ⟨.string, ⟨24, 28⟩, true, "\"é\""⟩] := by
    decide +kernel
  exact ⟨_, htokens, rfl, (tokens_divide mixed).2 _ htokens⟩

end Whittle.Source
