import Whittle.Error
import Whittle.Text.CharClass
import Whittle.Token

/-!
# From text to tokens

Every character of a source either starts a lexeme or lies inside the one that started before it.
`lexeme` looks at the characters from a start on and says what stands there and how many characters
it takes; `scan` walks the text once and passes that many.
-/

namespace Whittle.Token

/-- What stands at the start of a text. -/
structure Lexeme where
  /-- The kind of token, or nothing for blanks and comments. -/
  kind : Option TokenKind
  /-- How many characters it takes. -/
  length : Nat
  /-- Whether it ends a line. -/
  newline : Bool
deriving DecidableEq

/-- Why no lexeme stands there, and after how many characters this shows. -/
structure Fault where
  /-- What is wrong. -/
  message : String
  /-- Characters before the place to report. -/
  offset : Nat
deriving DecidableEq

/-- Characters up to the end of the line. -/
def lineLength (cs : List Char) : Nat := (cs.takeWhile (· != '\n')).length

/-- Characters through the end of a comment and whether a line ends inside. -/
def commentLength : List Char → Option (Nat × Bool)
  | [] => none
  | c :: cs =>
    if c == '*' && cs.head? == some '/' then some (2, false)
    else (commentLength cs).map fun r => (r.1 + 1, r.2 || c == '\n')

/-- Characters through the closing quote, counted on from `n`.  A backslash hides the character
after it. -/
def stringLength (quote : Char) (n : Nat) : List Char → Except Fault Nat
  | [] => .error ⟨"reached end of file while reading string literal", n⟩
  | '\n' :: _ => .error ⟨"reached end of line while reading string literal", n⟩
  | ['\\'] => .error ⟨"reached end of file while reading string literal", n + 1⟩
  | '\\' :: _ :: cs => stringLength quote (n + 2) cs
  | c :: cs => if c == quote then .ok (n + 1) else stringLength quote (n + 1) cs

/-- Characters of a decimal literal: digits and separators, one point before any exponent, one
exponent with an optional sign. -/
def decimalLength (dot exponent : Bool) : List Char → Nat
  | [] => 0
  | c :: cs =>
    if c.isDigit || c == '_' then 1 + decimalLength dot exponent cs
    else if c == '.' && !dot && !exponent then 1 + decimalLength true exponent cs
    else if (c == 'e' || c == 'E') && !exponent then
      match cs with
      | s :: rest =>
        if s == '+' || s == '-' then 2 + decimalLength dot true rest
        else 1 + decimalLength dot true (s :: rest)
      | [] => 1
    else 0

/-- Whether a text starts with the mark of a radix. -/
def hasRadixMark : List Char → Bool
  | '0' :: c :: _ => ['x', 'X', 'b', 'B', 'o', 'O'].contains c
  | _ => false

/-- The length of a numeric literal. -/
def numberLength (cs : List Char) : Except Fault Nat :=
  if hasRadixMark cs then .ok (2 + ((cs.drop 2).takeWhile Char.isAlphanum).length)
  else
    let n := decimalLength false false cs
    match (cs.drop n).head? with
    | some c =>
      if Text.startsWord c then
        .error ⟨"identifier starts immediately after numeric literal", n⟩
      else .ok n
    | none => .ok n

/-- The length of a word. -/
def wordLength (cs : List Char) : Nat := (cs.takeWhile Text.continuesWord).length

/-- The kind of a word. -/
def wordKind (word : List Char) : TokenKind :=
  if keywords.contains (String.ofList word) then .keyword else .identifier

/-- The longest punctuator that a text starts with. -/
def punctuator? (cs : List Char) : Option (String × TokenKind) :=
  punctuators.find? fun p => p.1.toList.isPrefixOf cs

/-- What stands at the start of the text `c :: rest`. -/
def lexeme (c : Char) (rest : List Char) : Except Fault Lexeme :=
  let next := rest.head?
  if Text.isBlank c then .ok ⟨none, 1, c == '\n'⟩
  else if c == '/' && next == some '/' then .ok ⟨none, lineLength (c :: rest), false⟩
  else if c == '/' && next == some '*' then
    match commentLength rest.tail with
    | some (n, newline) => .ok ⟨none, n + 2, newline⟩
    | none => .error ⟨"unterminated block comment", rest.length + 1⟩
  else if c == '"' || c == '\x27' then do
    return ⟨some .string, ← stringLength c 1 rest, false⟩
  else if c == '\x60' then .error ⟨"template literals are not supported", 0⟩
  else if c.isDigit || (c == '.' && next.any Char.isDigit) then do
    return ⟨some .number, ← numberLength (c :: rest), false⟩
  else if Text.startsWord c then
    let n := wordLength (c :: rest)
    .ok ⟨some (wordKind ((c :: rest).take n)), n, false⟩
  else
    match punctuator? (c :: rest) with
    | some (text, kind) => .ok ⟨some kind, text.length, false⟩
    | none => .error ⟨"unexpected character `" ++ toString c ++ "`", 0⟩

/-- The number of bytes that characters take. -/
def byteLength (cs : List Char) : Nat := cs.foldl (fun n c => n + c.utf8Size) 0

/-- Walks a text.  `skip` characters still belong to the lexeme that started last; `offset` is the
byte reached; `newline` tells whether a line ended since the last token. -/
def scan : (skip : Nat) → List Char → (offset : Nat) → (newline : Bool) → (found : List Token) →
    Except (String × Nat) (List Token)
  | _, [], _, _, found => .ok found.reverse
  | skip + 1, c :: cs, offset, newline, found => scan skip cs (offset + c.utf8Size) newline found
  | 0, c :: cs, offset, newline, found =>
    match lexeme c cs with
    | .error fault => .error (fault.message, offset + byteLength ((c :: cs).take fault.offset))
    | .ok l =>
      match l.kind with
      | none => scan (l.length - 1) cs (offset + c.utf8Size) (newline || l.newline) found
      | some kind =>
        let chars := (c :: cs).take l.length
        let span : Span := ⟨offset, offset + byteLength chars⟩
        scan (l.length - 1) cs (offset + c.utf8Size) false
          (⟨kind, span, newline, String.ofList chars⟩ :: found)

end Whittle.Token

namespace Whittle.Source

/-- The error at a byte offset of a source. -/
def errorAt (source : Source) (message : String) (position : Nat) : Error :=
  let (line, column) := source.lineColumn position
  .malformed message source.origin line column

/-- The tokens of a source. -/
def tokens (source : Source) : Outcome (List Token) :=
  match Token.scan 0 source.text.toList 0 false [] with
  | .ok found => .ok found
  | .error (message, position) => .error (source.errorAt message position)

end Whittle.Source
