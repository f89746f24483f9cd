import Mathlib.Tactic.Common
import Whittle.Token.Scan
import Whittle.Text.Quoted

/-!
# Scanning written text

What parsers see of a token is its kind and its text.  A text scans to such pieces when scanning takes
them from its front, whatever follows, as long as the next character may follow.  A word ends where no
character continues it, punctuation where no character makes a longer punctuator of it, and quoted text
with its quote.

Main statements: `scans_word`, `scans_punctuator`, `scans_quote`, `Text.unquote?_quote`.
-/

namespace Whittle

/-- What parsers see of a token: its kind and its text. -/
abbrev Piece := TokenKind × String

/-- The piece that a token is. -/
def Token.piece (t : Token) : Piece := (t.kind, t.text)

namespace Text

/-- Whether a text is a word. -/
def isWord (s : String) : Bool :=
  match s.toList with
  | [] => false
  | c :: cs => startsWord c && cs.all continuesWord

theorem continuesWord_of_startsWord {c : Char} (h : startsWord c = true) : continuesWord c = true := by
  simp only [startsWord, continuesWord, isAlphabetic, isAlphanumeric, Bool.or_eq_true] at h ⊢
  rcases h with (h | h) | h
  · left; left
    by_cases hascii : c.toNat < 128
    · rw [if_pos hascii] at h ⊢
      simp [Char.isAlphanum, h]
    · rw [if_neg hascii] at h ⊢
      simp [h]
  · exact .inl (.inr h)
  · exact .inr h

/-- No blank begins a word. -/
theorem startsWord_of_isBlank {c : Char} (h : isBlank c = true) : startsWord c = false := by
  have hblanks : ∀ n ∈ [9, 10, 11, 12, 13, 0x20, 0x85, 0xa0, 0x1680, 0x2000, 0x2001, 0x2002, 0x2003, 0x2004,
      0x2005, 0x2006, 0x2007, 0x2008, 0x2009, 0x200a, 0x2028, 0x2029, 0x202f, 0x205f, 0x3000],
      startsWord (Char.ofNat n) = false := by
    simp only [startsWord, isAlphabetic, inRanges, ← Array.any_toList]
    decide +kernel
  rw [← Char.ofNat_toNat c]
  apply hblanks
  simp only [isBlank, Bool.or_eq_true, Bool.and_eq_true, decide_eq_true_eq, beq_iff_eq] at h
  simp only [List.mem_cons, List.not_mem_nil, or_false]
  omega

/-- No digit begins a word. -/
theorem startsWord_of_isDigit {c : Char} (h : c.isDigit = true) : startsWord c = false := by
  have hdigits : ∀ n < 58, 48 ≤ n → startsWord (Char.ofNat n) = false := by decide +kernel
  simp only [Char.isDigit, Bool.and_eq_true, decide_eq_true_eq] at h
  rw [← Char.ofNat_toNat c]
  have hlow : 48 ≤ c.toNat := UInt32.le_iff_toNat_le.1 h.1
  have hhigh : c.toNat ≤ 57 := UInt32.le_iff_toNat_le.1 h.2
  exact hdigits _ (by omega) hlow

end Text

namespace Token

/-! ## Scanning -/

/-- Scanning takes the pieces from the front of the text, whatever follows. -/
def Scans (follows : Char → Prop) (text : String) (ps : List Piece) : Prop :=
  ∀ (rest : List Char) (offset : Nat) (found : List Token), (∀ c ∈ rest.head?, follows c) →
    ∃ (offset' : Nat) (tokens : List Token), tokens.map piece = ps ∧
      (∀ t ∈ tokens, t.newlineBefore = false) ∧
      scan 0 (text.toList ++ rest) offset false found =
        scan 0 rest offset' false (tokens.reverse ++ found)

/-- No word goes on with the character. -/
def EndsWord (c : Char) : Prop := Text.continuesWord c = false

/-- The text has a first character, and it satisfies the condition. -/
def Leads (follows : Char → Prop) (text : String) : Prop := ∃ c cs, text.toList = c :: cs ∧ follows c

theorem scan_cons (c : Char) (cs : List Char) (offset : Nat) (newline : Bool) (found : List Token) :
    scan 0 (c :: cs) offset newline found =
      match lexeme c cs with
      | .error fault => .error (fault.message, offset + byteLength ((c :: cs).take fault.offset))
      | .ok l => match l.kind with
        | none => scan (l.length - 1) cs (offset + c.utf8Size) (newline || l.newline) found
        | some kind => scan (l.length - 1) cs (offset + c.utf8Size) false
            (⟨kind, ⟨offset, offset + byteLength ((c :: cs).take l.length)⟩, newline,
              String.ofList ((c :: cs).take l.length)⟩ :: found) := (rfl)

theorem byteLength_append (cs ds : List Char) :
    byteLength (cs ++ ds) = byteLength cs + byteLength ds := by
  have hfold (n : Nat) :
      ds.foldl (fun n c => n + c.utf8Size) n = n + ds.foldl (fun n c => n + c.utf8Size) 0 := by
    induction ds generalizing n with
    | nil => rfl
    | cons d ds ih =>
      rw [List.foldl_cons, List.foldl_cons, ih, ih (0 + d.utf8Size)]
      omega
  rw [byteLength, List.foldl_append]
  exact hfold _

theorem byteLength_cons (c : Char) (cs : List Char) :
    byteLength (c :: cs) = c.utf8Size + byteLength cs := by
  rw [← List.singleton_append, byteLength_append]
  simp [byteLength]

theorem scan_skip (cs rest : List Char) (offset : Nat) (newline : Bool) (found : List Token) :
    scan cs.length (cs ++ rest) offset newline found =
      scan 0 rest (offset + byteLength cs) newline found := by
  induction cs generalizing offset with
  | nil => rfl
  | cons c cs ih =>
    rw [byteLength_cons, ← Nat.add_assoc]
    exact ih (offset + c.utf8Size)

namespace Scans

variable {follows follows' : Char → Prop} {text text' : String} {ps qs : List Piece}

theorem nil : Scans follows "" [] :=
  fun rest offset found _ => ⟨offset, [], rfl, by simp, rfl⟩

theorem mono (h : Scans follows text ps) (hfollows : ∀ c, follows' c → follows c) :
    Scans follows' text ps :=
  fun rest offset found hnext => h rest offset found fun c hc => hfollows c (hnext c hc)

theorem append (h : Scans follows text ps) (h' : Scans follows' text' qs) (hlead : Leads follows text') :
    Scans follows' (text ++ text') (ps ++ qs) := by
  obtain ⟨d, ds, htext', hd⟩ := hlead
  intro rest offset found hnext
  obtain ⟨offset₁, tokens₁, hpieces₁, hline₁, hscan₁⟩ :=
    h (text'.toList ++ rest) offset found (by simpa [htext'] using hd)
  obtain ⟨offset₂, tokens₂, hpieces₂, hline₂, hscan₂⟩ := h' rest offset₁ (tokens₁.reverse ++ found) hnext
  refine ⟨offset₂, tokens₁ ++ tokens₂, ?_, ?_, ?_⟩
  · rw [List.map_append, hpieces₁, hpieces₂]
  · exact fun t ht => (List.mem_append.1 ht).elim (hline₁ t) (hline₂ t)
  · rw [String.toList_append, List.append_assoc, hscan₁, hscan₂, List.reverse_append, List.append_assoc]

/-- A text that is one token. -/
theorem of_lexeme {c : Char} {cs : List Char} {kind : TokenKind} (htext : text.toList = c :: cs)
    (h : ∀ rest, (∀ d ∈ rest.head?, follows d) →
      lexeme c (cs ++ rest) = .ok ⟨some kind, text.length, false⟩) :
    Scans follows text [(kind, text)] := by
  intro rest offset found hnext
  -- the token is made at its first character, and the others are skipped
  have hlength : text.length = cs.length + 1 := by rw [← String.length_toList, htext, List.length_cons]
  have htake : (c :: (cs ++ rest)).take (cs.length + 1) = c :: cs := by
    rw [List.take_succ_cons, List.take_left]
  have hsame : String.ofList (c :: cs) = text := by rw [← htext, String.ofList_toList]
  have hskip := scan_skip cs rest (offset + c.utf8Size) false
    (⟨kind, ⟨offset, offset + byteLength (c :: cs)⟩, false, text⟩ :: found)
  refine ⟨offset + c.utf8Size + byteLength cs,
    [⟨kind, ⟨offset, offset + byteLength (c :: cs)⟩, false, text⟩], rfl, by simp, ?_⟩
  rw [htext, List.cons_append, scan_cons, h rest hnext]
  simp only [hlength, htake, hsame, Nat.add_sub_cancel]
  exact hskip

theorem blank : Scans (fun _ => True) " " [] :=
  fun rest offset found _ => ⟨offset + 1, [], rfl, by simp, rfl⟩

end Scans

/-- A word is scanned as a whole. -/
theorem scans_word {s : String} (h : Text.isWord s = true) :
    Scans EndsWord s [(wordKind s.toList, s)] := by
  rw [Text.isWord] at h
  split at h
  · cases h
  · next c cs hs =>
    rw [Bool.and_eq_true, List.all_eq_true] at h
    obtain ⟨hstart, hmore⟩ := h
    refine .of_lexeme hs fun rest hnext => ?_
    -- none of the cases before words is that of a character that starts one
    have hother {d : Char} (hd : Text.startsWord d = false) : (c == d) = false := by
      rw [beq_eq_false_iff_ne]
      rintro rfl
      rw [hd] at hstart
      cases hstart
    have hblank : Text.isBlank c = false := by
      by_contra hblank
      rw [Text.startsWord_of_isBlank (Bool.not_eq_false _ ▸ hblank)] at hstart
      cases hstart
    have hdigit : c.isDigit = false := by
      by_contra hdigit
      rw [Text.startsWord_of_isDigit (Bool.not_eq_false _ ▸ hdigit)] at hstart
      cases hstart
    have hall : ∀ d ∈ c :: cs, Text.continuesWord d = true :=
      List.forall_mem_cons.2 ⟨Text.continuesWord_of_startsWord hstart, hmore⟩
    have hrest : rest.takeWhile Text.continuesWord = [] := by
      cases rest with
      | nil => rfl
      | cons d rest => exact List.takeWhile_cons_of_neg (Bool.not_eq_true _ ▸ hnext d rfl)
    have hlength : wordLength (c :: (cs ++ rest)) = s.length := by
      rw [wordLength, ← List.cons_append, List.takeWhile_append_of_pos hall, hrest, List.append_nil, ← hs,
        String.length_toList]
    have htake : (c :: (cs ++ rest)).take s.length = s.toList := by
      rw [← List.cons_append, ← hs, ← String.length_toList, List.take_left]
    rw [lexeme]
    simp only [hblank, hdigit, hstart, hlength, htake, hother (d := '/') rfl, hother (d := '"') rfl,
      hother (d := '\x27') rfl, hother (d := '\x60') rfl, hother (d := '.') rfl]
    rfl

/-! ## Punctuation -/

/-- The characters that make a longer punctuator of a text. -/
def continuations (text : String) : List Char :=
  punctuators.filterMap fun p =>
    if text.toList.isPrefixOf p.1.toList then p.1.toList[text.length]? else none

theorem mem_continuations {text : String} {d : Char} {p : String × TokenKind} (hp : p ∈ punctuators)
    {cs : List Char} (h : p.1.toList = text.toList ++ d :: cs) : d ∈ continuations text := by
  refine List.mem_filterMap.2 ⟨p, hp, ?_⟩
  rw [h, if_pos (List.isPrefixOf_iff_prefix.2 (List.prefix_append _ _)), ← String.length_toList,
    List.getElem?_append_right (Nat.le_refl _), Nat.sub_self, List.getElem?_cons_zero]

/-- A character that makes no longer punctuator of a text does not change which one it starts with. -/
theorem punctuator?_append {text : String} {d : Char} (h : d ∉ continuations text) (rest : List Char) :
    punctuator? (text.toList ++ d :: rest) = punctuator? text.toList := by
  rw [punctuator?, punctuator?, ← List.head?_filter, ← List.head?_filter]
  refine congrArg _ (List.filter_congr fun p hp => ?_)
  rw [Bool.eq_iff_iff, List.isPrefixOf_iff_prefix, List.isPrefixOf_iff_prefix]
  refine ⟨fun hlong => ?_, fun hshort => hshort.trans (List.prefix_append _ _)⟩
  by_contra hshort
  -- otherwise the punctuator goes on behind the text, and the character is the next one
  obtain hle | hlt := Nat.le_total p.1.toList.length text.toList.length
  · exact hshort (List.prefix_of_prefix_length_le hlong (List.prefix_append _ _) hle)
  · obtain ⟨more, hmore⟩ := List.prefix_of_prefix_length_le (List.prefix_append _ _) hlong hlt
    cases more with
    | nil =>
      rw [List.append_nil] at hmore
      exact hshort (hmore ▸ List.prefix_rfl)
    | cons e es =>
      rw [← hmore, List.prefix_append_right_inj, List.cons_prefix_cons] at hlong
      exact h (mem_continuations hp (hlong.1 ▸ hmore.symm))

/-- Where a punctuator ends: nothing makes a longer one of it, and a slash opens no comment and a point no
number. -/
def EndsPunctuator (text : String) (d : Char) : Prop :=
  d ∉ continuations text ∧ (text = "/" → d ≠ '/' ∧ d ≠ '*') ∧ (text = "." → d.isDigit = false)

instance (text : String) (d : Char) : Decidable (EndsPunctuator text d) :=
  inferInstanceAs (Decidable (_ ∧ _))

/-- Whether characters are neither blank nor the start of a comment, a string, a number or a word. -/
def isPunctuation : List Char → Bool
  | [] => false
  | c :: cs =>
    !(Text.isBlank c || c == '"' || c == '\x27' || c == '\x60' || c.isDigit || Text.startsWord c ||
      c == '/' && (cs.head? == some '/' || cs.head? == some '*') || c == '.' && cs.head?.any Char.isDigit)

theorem isPunctuation_of_mem : ∀ p ∈ punctuators, isPunctuation p.1.toList = true := by decide +kernel

theorem punctuator?_of_mem : ∀ p ∈ punctuators, punctuator? p.1.toList = some p := by decide +kernel

theorem lexeme_of_isPunctuation {c : Char} {cs : List Char} (h : isPunctuation (c :: cs) = true)
    {text : String} {kind : TokenKind} (hp : punctuator? (c :: cs) = some (text, kind)) :
    lexeme c cs = .ok ⟨some kind, text.length, false⟩ := by
  simp only [isPunctuation, Bool.not_eq_true', Bool.or_eq_false_iff] at h
  obtain ⟨⟨⟨⟨⟨⟨⟨hblank, hquote⟩, hsingle⟩, hback⟩, hdigit⟩, hword⟩, hcomment⟩, hpoint⟩ := h
  rw [Bool.and_or_distrib_left, Bool.or_eq_false_iff] at hcomment
  simp only [lexeme, hblank, hquote, hsingle, hback, hdigit, hword, hcomment, hpoint, hp, Bool.or_false,
    Bool.false_eq_true, if_false]

/-- A character behind a punctuator that does not go on leaves it punctuation. -/
theorem isPunctuation_append {text : String} {d : Char} (h : isPunctuation text.toList = true)
    (hd : EndsPunctuator text d) (rest : List Char) : isPunctuation (text.toList ++ d :: rest) = true := by
  obtain ⟨-, hslash, hpoint⟩ := hd
  cases htext : text.toList with
  | nil => rw [htext] at h; cases h
  | cons c cs =>
    rw [htext] at h
    cases cs with
    | cons e es => exact h
    | nil =>
      have hsame {c' : Char} (hc : c = c') : text = String.ofList [c'] := by
        rw [← hc, ← htext, String.ofList_toList]
      have hcomment : (c == '/' && (some d == some '/' || some d == some '*')) = false := by
        by_cases hc : c = '/'
        · simp [hslash (hsame hc)]
        · simp [hc]
      have hnumber : (c == '.' && d.isDigit) = false := by
        by_cases hc : c = '.'
        · simp [hpoint (hsame hc)]
        · simp [hc]
      change isPunctuation (c :: d :: rest) = true
      simp only [isPunctuation, Bool.not_eq_true', Bool.or_eq_false_iff] at h ⊢
      exact ⟨⟨h.1.1, hcomment⟩, hnumber⟩

/-- A punctuator is scanned as a whole where it ends. -/
theorem scans_punctuator {text : String} {kind : TokenKind} (h : (text, kind) ∈ punctuators) :
    Scans (EndsPunctuator text) text [(kind, text)] := by
  have hchars := isPunctuation_of_mem _ h
  have hp := punctuator?_of_mem _ h
  cases htext : text.toList with
  | nil => rw [htext] at hchars; cases hchars
  | cons c cs =>
    refine .of_lexeme htext fun rest hnext => ?_
    cases rest with
    | nil =>
      rw [List.append_nil]
      exact lexeme_of_isPunctuation (htext ▸ hchars) (htext ▸ hp)
    | cons d rest =>
      have hd := hnext d rfl
      refine lexeme_of_isPunctuation ?_ ?_
      · rw [← List.cons_append, ← htext]
        exact isPunctuation_append hchars hd rest
      · rw [← List.cons_append, ← htext, punctuator?_append hd.1, hp]

end Token

/-! ## Quoted text -/

namespace Text

/-- A character that stands for itself between quotes. -/
def isPlain (c : Char) : Bool := c != '"' && c != '\\' && c != '\n'

theorem unescape_append (cs rest : List Char) : unescape cs.length (cs ++ rest) = unescape 0 rest := by
  induction cs with
  | nil => rfl
  | cons c cs ih => exact ih

/-- Control characters are written with four digits that stand for them. -/
theorem hex_control : ∀ n < 0x20, (hex 4 n).length = 4 ∧ (hex 4 n).all isPlain = true ∧
    hexEscape (hex 4 n) = [Char.ofNat n] := by
  decide +kernel

/-- The ways a character is written between quotes. -/
theorem quoteChar_cases (c : Char) :
    (∃ e, quoteChar c = ['\\', e] ∧ escapeWidth e = 1 ∧ ∀ rest, escaped e rest = [c]) ∨
    (c.toNat < 0x20 ∧ quoteChar c = '\\' :: 'u' :: hex 4 c.toNat) ∨
    (isPlain c = true ∧ quoteChar c = [c]) := by
  unfold quoteChar
  split_ifs with hquote hbackslash hline hreturn htab hcontrol
  · exact .inl ⟨'"', rfl, rfl, fun _ => congrArg ([·]) (eq_of_beq hquote).symm⟩
  · exact .inl ⟨'\\', rfl, rfl, fun _ => congrArg ([·]) (eq_of_beq hbackslash).symm⟩
  · exact .inl ⟨'n', rfl, rfl, fun _ => congrArg ([·]) (eq_of_beq hline).symm⟩
  · exact .inl ⟨'r', rfl, rfl, fun _ => congrArg ([·]) (eq_of_beq hreturn).symm⟩
  · exact .inl ⟨'t', rfl, rfl, fun _ => congrArg ([·]) (eq_of_beq htab).symm⟩
  · exact .inr (.inl ⟨hcontrol, rfl⟩)
  · exact .inr (.inr ⟨by simp [isPlain, bne, hquote, hbackslash, hline], rfl⟩)

theorem unescape_quoteChar (c : Char) (rest : List Char) :
    unescape 0 (quoteChar c ++ rest) = c :: unescape 0 rest := by
  obtain ⟨e, hwritten, hwidth, hescaped⟩ | ⟨hcontrol, hwritten⟩ | ⟨hplain, hwritten⟩ := quoteChar_cases c
  · rw [hwritten]
    change escaped e rest ++ unescape (escapeWidth e) (e :: rest) = _
    rw [hescaped, hwidth]
    rfl
  · obtain ⟨hlength, -, hescape⟩ := hex_control c.toNat hcontrol
    have hskip := unescape_append (hex 4 c.toNat) rest
    rw [hlength] at hskip
    rw [hwritten]
    change hexEscape ((hex 4 c.toNat ++ rest).take 4) ++ unescape 4 (hex 4 c.toNat ++ rest) = _
    rw [List.take_left' hlength, hskip, hescape, Char.ofNat_toNat]
    rfl
  · have hbackslash : ¬ (c == '\\') = true := by simp_all [isPlain]
    rw [hwritten]
    exact if_neg hbackslash

theorem unescape_flatMap_quoteChar (cs : List Char) : unescape 0 (cs.flatMap quoteChar) = cs := by
  induction cs with
  | nil => rfl
  | cons c cs ih => rw [List.flatMap_cons, unescape_quoteChar, ih]

theorem unquote?_enclosed {quote : Char} (hsize : quote.utf8Size = 1) (body : List Char) :
    unquote? (String.ofList (quote :: (body ++ [quote]))) = some (String.ofList (unescape 0 body)) := by
  obtain ⟨d, cs, hbody⟩ : ∃ d cs, body ++ [quote] = d :: cs := List.exists_cons_of_ne_nil (by simp)
  have hlast : (d :: cs).getLast (by simp) = quote := by simp [← hbody]
  have hfirst : (d :: cs).dropLast = body := by simp [← hbody]
  rw [unquote?, hbody, String.toList_ofList]
  simp only [hlast, hfirst, hsize]
  rfl

/-- What is quoted is read back. -/
theorem unquote?_quote (s : String) : unquote? (quote s) = some s := by
  rw [quote, List.cons_append, unquote?_enclosed rfl, unescape_flatMap_quoteChar, String.ofList_toList]

end Text

namespace Token

theorem stringLength_plain {cs : List Char} (h : cs.all Text.isPlain = true) (n : Nat) (rest : List Char) :
    stringLength '"' n (cs ++ rest) = stringLength '"' (n + cs.length) rest := by
  induction cs generalizing n with
  | nil => rfl
  | cons c cs ih =>
    rw [List.all_cons, Bool.and_eq_true] at h
    obtain ⟨⟨hquote, hbackslash⟩, hline⟩ : (c ≠ '"' ∧ c ≠ '\\') ∧ c ≠ '\n' := by
      simpa [Text.isPlain] using h.1
    rw [List.cons_append, stringLength, if_neg (by simpa using hquote), ih h.2, List.length_cons]
    · rw [Nat.add_right_comm, Nat.add_assoc]
    all_goals simp_all

theorem stringLength_quoteChar (c : Char) (n : Nat) (rest : List Char) :
    stringLength '"' n (Text.quoteChar c ++ rest) =
      stringLength '"' (n + (Text.quoteChar c).length) rest := by
  obtain ⟨e, hwritten, -⟩ | ⟨hcontrol, hwritten⟩ | ⟨hplain, hwritten⟩ := Text.quoteChar_cases c
  · rw [hwritten]
    rfl
  · obtain ⟨-, hplain, -⟩ := Text.hex_control c.toNat hcontrol
    rw [hwritten]
    change stringLength '"' (n + 2) (Text.hex 4 c.toNat ++ rest) = _
    rw [stringLength_plain hplain, Nat.add_assoc, Nat.add_comm 2]
    rfl
  · have hall : [c].all Text.isPlain = true := by simpa using hplain
    rw [hwritten]
    exact stringLength_plain hall n rest

theorem stringLength_flatMap_quoteChar (cs : List Char) (n : Nat) (rest : List Char) :
    stringLength '"' n (cs.flatMap Text.quoteChar ++ '"' :: rest) =
      .ok (n + (cs.flatMap Text.quoteChar).length + 1) := by
  induction cs generalizing n with
  | nil => rfl
  | cons c cs ih =>
    rw [List.flatMap_cons, List.append_assoc, stringLength_quoteChar, ih, List.length_append, Nat.add_assoc n]

/-- Quoted text is one token, whatever follows. -/
theorem scans_quote (s : String) : Scans (fun _ => True) (Text.quote s) [(.string, Text.quote s)] := by
  have htext : (Text.quote s).toList = '"' :: (s.toList.flatMap Text.quoteChar ++ ['"']) := by
    simp [Text.quote]
  refine .of_lexeme htext fun rest _ => ?_
  have hlength : (Text.quote s).length = 1 + (s.toList.flatMap Text.quoteChar).length + 1 := by
    rw [← String.length_toList, htext, List.length_cons, List.length_append, List.length_singleton]
    omega
  rw [List.append_assoc, List.singleton_append, hlength]
  change (stringLength '"' 1 _ >>= fun n => _) = _
  rw [stringLength_flatMap_quoteChar]
  rfl

/-! ## Texts put together -/

instance (c : Char) : Decidable (EndsWord c) := inferInstanceAs (Decidable (_ = _))

instance (follows : Char → Prop) [DecidablePred follows] (text : String) : Decidable (Leads follows text) :=
  match htext : text.toList with
  | [] => isFalse fun ⟨_, _, h, _⟩ => by rw [htext] at h; cases h
  | c :: cs => decidable_of_iff (follows c)
      ⟨fun h => ⟨c, cs, htext, h⟩, fun ⟨_, _, h, hc⟩ => by rw [htext] at h; cases h; exact hc⟩

theorem endsPunctuator_blank : ∀ p ∈ punctuators, EndsPunctuator p.1 ' ' := by decide +kernel

/-- Punctuation between blanks. -/
theorem scans_spaced {text : String} {kind : TokenKind} (h : (text, kind) ∈ punctuators) :
    Scans (· = ' ') text [(kind, text)] := by
  refine (scans_punctuator h).mono ?_
  rintro _ rfl
  exact endsPunctuator_blank (text, kind) h

theorem wordKind_eq_keyword {text : String} (h : text ∈ keywords) : wordKind text.toList = .keyword := by
  rw [wordKind, String.ofList_toList, if_pos (List.contains_iff_mem.2 h)]

theorem leads_word {text : String} (h : Text.isWord text = true) :
    Leads (fun c => Text.startsWord c = true) text := by
  rw [Text.isWord] at h
  split at h
  · cases h
  · next c cs htext => exact ⟨c, cs, htext, (Bool.and_eq_true_iff.1 h).1⟩

/-- A word before a blank. -/
theorem scans_keyword {text : String} (hword : Text.isWord text = true) (hkeyword : text ∈ keywords) :
    Scans (· = ' ') text [(.keyword, text)] := by
  rw [← wordKind_eq_keyword hkeyword]
  exact (scans_word hword).mono fun c hc => hc ▸ rfl

theorem wordKind_cases (text : String) :
    wordKind text.toList = .identifier ∨ wordKind text.toList = .keyword := by
  rw [wordKind]
  split <;> simp

/-- A point before a word. -/
theorem scans_point : Scans (fun d => Text.startsWord d = true) "." [(.dot, ".")] := by
  refine (scans_punctuator (by decide)).mono fun d hd => ⟨?_, nofun, fun _ => ?_⟩
  · have hgrows : continuations "." = ['.'] := by decide +kernel
    rw [hgrows, List.mem_singleton]
    rintro rfl
    cases hd
  · by_contra hdigit
    rw [Text.startsWord_of_isDigit (Bool.not_eq_false _ ▸ hdigit)] at hd
    cases hd

/-- Punctuation but a slash and a point. -/
theorem scans_growing {text : String} {kind : TokenKind} (h : (text, kind) ∈ punctuators)
    (hslash : text ≠ "/") (hpoint : text ≠ ".") : Scans (· ∉ continuations text) text [(kind, text)] :=
  (scans_punctuator h).mono fun _ hd => ⟨hd, fun h => absurd h hslash, fun h => absurd h hpoint⟩

/-- Punctuation that never grows. -/
theorem scans_closed (text : String) (kind : TokenKind) (h : (text, kind) ∈ punctuators)
    (hclosed : text ∈ ["(", ")", "[", "]", ",", ";", "~", "++", "--", "..."]) :
    Scans (fun _ => True) text [(kind, text)] := by
  have hnone : ∀ text ∈ ["(", ")", "[", "]", ",", ";", "~", "++", "--", "..."],
      continuations text = [] ∧ text ≠ "/" ∧ text ≠ "." := by
    decide +kernel
  obtain ⟨hnone, hslash, hpoint⟩ := hnone text hclosed
  refine (scans_growing h hslash hpoint).mono fun d _ => ?_
  rw [hnone]
  exact List.not_mem_nil

theorem Leads.append {follows : Char → Prop} {text : String} (h : Leads follows text) (text' : String) :
    Leads follows (text ++ text') := by
  obtain ⟨c, cs, htext, hc⟩ := h
  exact ⟨c, cs ++ text'.toList, by rw [String.toList_append, htext]; rfl, hc⟩

theorem Leads.mono {follows follows' : Char → Prop} {text : String} (h : Leads follows text)
    (hfollows : ∀ c, follows c → follows' c) : Leads follows' text :=
  h.imp fun c => Exists.imp fun _ hc => ⟨hc.1, hfollows c hc.2⟩

theorem leads_any {text : String} (h : text.toList ≠ []) : Leads (fun _ => True) text := by
  obtain ⟨c, cs, htext⟩ := List.exists_cons_of_ne_nil h
  exact ⟨c, cs, htext, trivial⟩

theorem Leads.any {follows : Char → Prop} {text : String} (h : Leads follows text) :
    Leads (fun _ => True) text :=
  h.mono fun _ _ => trivial

namespace Scans

variable {follows : Char → Prop} {text text' : String} {ps qs : List Piece} {x : Piece}

theorem ended (h : Scans (fun _ => True) text ps) : Scans EndsWord text ps := h.mono fun _ _ => trivial

/-- An operator with the blanks around it. -/
theorem gap (h : Scans (· = ' ') text [x]) (hleads : Leads (fun _ => True) text) :
    Scans (fun _ => True) (" " ++ text ++ " ") [x] :=
  (blank.append h hleads).append blank (by decide)

/-- An operator between blanks joins two texts. -/
theorem join (h : Scans EndsWord text ps) {operator : String} (hoperator : Scans (· = ' ') operator [x])
    (hleads : Leads (fun _ => True) operator) (h' : Scans follows text' qs)
    (hleads' : Leads (fun _ => True) text') :
    Scans follows (text ++ " " ++ operator ++ " " ++ text') (ps ++ x :: qs) := by
  have hsame : text ++ " " ++ operator ++ " " ++ text' = text ++ (" " ++ operator ++ " " ++ text') := by
    simp only [String.append_assoc]
  have hblank : Leads EndsWord " " := by decide
  rw [hsame]
  exact h.append ((hoperator.gap hleads).append h' hleads') (((hblank.append _).append _).append _)

end Scans

end Token

end Whittle
