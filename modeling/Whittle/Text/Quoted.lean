import Whittle.Text.CharClass

/-!
# Quoted text

Two ways to write a string between quotes and one way to read it.

* `quote` is what programs contain: control characters are escaped, everything else stands for
  itself;
* `unquote?` reads a string literal of a program, with all escapes the language knows;
* `shown` is what dumps contain: every character without a shape is escaped by its code point.
-/

namespace Whittle.Text

/-- The value of a hexadecimal digit. -/
def hexDigit? (c : Char) : Option Nat :=
  if '0' ≤ c && c ≤ '9' then some (c.toNat - '0'.toNat)
  else if 'a' ≤ c && c ≤ 'f' then some (c.toNat - 'a'.toNat + 10)
  else if 'A' ≤ c && c ≤ 'F' then some (c.toNat - 'A'.toNat + 10)
  else none

/-- The value of digits in the given radix, most significant first. -/
def digits? (radix : Nat) : Nat → List Char → Option Nat
  | acc, [] => some acc
  | acc, c :: cs =>
    match hexDigit? c with
    | some d => if d < radix then digits? radix (radix * acc + d) cs else none
    | none => none

/-- A natural written in the given radix: one digit at least, a plus sign may stand in front. -/
def natural? (radix : Nat) (cs : List Char) : Option Nat :=
  let digits := match cs with
    | '+' :: rest => rest
    | _ => cs
  if digits.isEmpty then none else digits? radix 0 digits

/-- The hexadecimal digits of a natural, at least `width` of them. -/
def hex (width n : Nat) : List Char :=
  let digits := Nat.toDigits 16 n
  List.replicate (width - digits.length) '0' ++ digits

/-! ## Writing -/

/-- A character between the quotes of a program. -/
def quoteChar (c : Char) : List Char :=
  if c == '"' then ['\\', '"']
  else if c == '\\' then ['\\', '\\']
  else if c == '\n' then ['\\', 'n']
  else if c == '\r' then ['\\', 'r']
  else if c == '\t' then ['\\', 't']
  else if c.toNat < 0x20 then '\\' :: 'u' :: hex 4 c.toNat
  else [c]

/-- A string as programs write it. -/
def quote (s : String) : String :=
  String.ofList ('"' :: s.toList.flatMap quoteChar ++ ['"'])

/-- A character between the quotes of a dump. -/
def shownChar (c : Char) : List Char :=
  if c == '"' then ['\\', '"']
  else if c == '\\' then ['\\', '\\']
  else if c == '\n' then ['\\', 'n']
  else if c == '\r' then ['\\', 'r']
  else if c == '\t' then ['\\', 't']
  else if c == '\x00' then ['\\', '0']
  else if isUnprinted c then '\\' :: 'u' :: '\x7b' :: hex 1 c.toNat ++ ['\x7d']
  else [c]

/-- A string as dumps write it. -/
def shown (s : String) : String :=
  String.ofList ('"' :: s.toList.flatMap shownChar ++ ['"'])

/-! ## Reading -/

/-- The character with the given code point, if there is one. -/
def scalar? (n : Nat) : Option Char :=
  if n.isValidChar then some (Char.ofNat n) else none

/-- What a hexadecimal escape stands for; digits that name no character stand for themselves. -/
def hexEscape (digits : List Char) : List Char :=
  match (natural? 16 digits).bind scalar? with
  | some c => [c]
  | none => digits

/-- How many characters an escape takes after its backslash. -/
def escapeWidth (c : Char) : Nat := if c == 'u' then 5 else if c == 'x' then 3 else 1

/-- What the escape of `c` stands for; `rest` follows `c`. -/
def escaped (c : Char) (rest : List Char) : List Char :=
  match c with
  | 'n' => ['\n']
  | 't' => ['\t']
  | 'r' => ['\r']
  | '0' => ['\x00']
  | 'b' => ['\x08']
  | 'f' => ['\x0c']
  | 'v' => ['\x0b']
  | 'u' => hexEscape (rest.take 4)
  | 'x' => hexEscape (rest.take 2)
  | _ => [c]

/-- Resolves escapes.  The number counts the characters of the current escape still to pass. -/
def unescape : Nat → List Char → List Char
  | _, [] => []
  | skip + 1, _ :: cs => unescape skip cs
  | 0, c :: cs =>
    if c == '\\' then
      match cs with
      | [] => []
      | e :: rest => escaped e rest ++ unescape (escapeWidth e) cs
    else c :: unescape 0 cs

/-- The string that a literal stands for.  The first and the last byte are its quotes; a text that
cannot be cut there has no value. -/
def unquote? (literal : String) : Option String :=
  match literal.toList with
  | [] => none
  | [c] => if c.utf8Size == 1 then some "" else none
  | c :: d :: cs =>
    let last := (d :: cs).getLast (by simp)
    if c.utf8Size == 1 && last.utf8Size == 1 then
      some (String.ofList (unescape 0 (d :: cs).dropLast))
    else none

end Whittle.Text
