import Whittle.Number.Decimal
import Whittle.Text.Quoted

/-!
# Values of literal tokens
-/

namespace Whittle.Token

/-- The radix that the first two characters of a literal announce. -/
def radix? : List Char → Option Nat
  | '0' :: c :: _ =>
    match c.toLower with
    | 'x' => some 16
    | 'b' => some 2
    | 'o' => some 8
    | _ => none
  | _ => none

/-- The number that a literal stands for.  Separators are dropped first; a literal with a radix mark
must fit 64 bits. -/
def number? (literal : String) : Option Number :=
  let cs := literal.toList.filter (· != '_')
  match radix? cs with
  | some radix =>
    match Text.natural? radix (cs.drop 2) with
    | some n => if n < UInt64.size then some (Number.ofNat n) else none
    | none => none
  | none => Decimal.read? (String.ofList cs)

end Whittle.Token
