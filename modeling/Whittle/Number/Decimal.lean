import Whittle.Number

/-!
# Decimal text of numbers

`Decimal.shortest` finds the fewest decimal digits that read back as a given number: the interval of
reals that round to the number is taken exactly, and for one, two, … digits the number's two
neighbours on that decimal grid are tried.  Of two hits the nearer wins, a tie goes up.

`Decimal.read?` reads a decimal literal; the value is rounded once, from the exact rational.
-/

namespace Whittle

/-- The decimal `digits · 10 ^ exponent`. -/
structure Decimal where
  /-- The digits as an integer. -/
  digits : Nat
  /-- The power of ten. -/
  exponent : Int
deriving DecidableEq

namespace Decimal

/-- `num / den` divided by `10 ^ k`, as a fraction. -/
def overTen (num den : Nat) (k : Int) : Nat × Nat :=
  if 0 ≤ k then (num, den * Nat.pow 10 k.toNat) else (num * Nat.pow 10 (-k).toNat, den)

/-- The largest `p` with `10 ^ p ≤ num / den`, for positive `num` and `den`. -/
def leadingPower (num den : Nat) : Int :=
  let guess : Int := ((num.log2 : Int) - den.log2) * 1233 / 4096
  let fits (p : Int) : Bool :=
    let (a, b) := overTen num den (p + 1)
    a < b
  ([guess - 1, guess, guess + 1].find? fits).getD (guess + 2)

/-- The reals that round to a number, multiplied so that all ends are naturals over one
denominator. -/
structure Interval where
  /-- Lower end. -/
  low : Nat
  /-- The number itself. -/
  mid : Nat
  /-- Upper end. -/
  high : Nat
  /-- Common denominator. -/
  den : Nat
  /-- Whether the ends belong to it. -/
  closed : Bool

/-- The reals that round to a finite number other than zero.  Below a power of two the gap is half
as wide; a tie goes to the even significand. -/
def interval (x : Number) : Interval :=
  let m := x.significand
  let (a, b) := Number.powTwo (x.scale - 2)
  let below := if x.fractionField == 0 && 1 < x.exponentField then 1 else 2
  ⟨(4 * m - below) * a, 4 * m * a, (4 * m + 2) * a, b, m % 2 == 0⟩

/-- Whether `c · 10 ^ k` lies in an interval. -/
def Interval.holds (i : Interval) (c : Nat) (k : Int) : Bool :=
  let (lowNum, den) := overTen i.low i.den k
  let highNum := (overTen i.high i.den k).1
  if i.closed then lowNum ≤ c * den && c * den ≤ highNum
  else lowNum < c * den && c * den < highNum

/-- The neighbour of the number on the grid `10 ^ k` that reads back as it, if one does. -/
def Interval.onGrid? (i : Interval) (k : Int) : Option Nat :=
  let (num, den) := overTen i.mid i.den k
  let down := num / den
  let up := down + 1
  match i.holds down k, i.holds up k with
  | true, true => some (if 2 * (num % den) < den then down else up)
  | true, false => some down
  | false, true => some up
  | false, false => none

/-- Moves trailing zeros into the exponent; `fuel` bounds their number. -/
def trim : Nat → Decimal → Decimal
  | 0, d => d
  | fuel + 1, d =>
    if d.digits != 0 && d.digits % 10 == 0 then trim fuel ⟨d.digits / 10, d.exponent + 1⟩ else d

/-- The fewest digits that read back as a finite number other than zero. -/
def shortest (x : Number) : Decimal :=
  let i := interval x
  let p := leadingPower i.mid i.den
  let attempt (n : Nat) : Option Decimal := (i.onGrid? (p - n)).map fun c => ⟨c, p - n⟩
  trim 20 (((List.range 18).findSome? attempt).getD ⟨0, 0⟩)

/-- The decimal without exponent: zeros are added on either side of the digits as needed. -/
def positional (d : Decimal) : String :=
  let digits := toString d.digits
  if 0 ≤ d.exponent then digits ++ String.ofList (List.replicate d.exponent.toNat '0')
  else
    let places := (-d.exponent).toNat
    let cs := digits.toList
    if cs.length ≤ places then
      "0." ++ String.ofList (List.replicate (places - cs.length) '0') ++ digits
    else
      String.ofList (cs.take (cs.length - places)) ++ "." ++
        String.ofList (cs.drop (cs.length - places))

/-- The number nearest to a decimal. -/
def toNumber (d : Decimal) : Number :=
  if d.digits == 0 then Number.zero
  else
    let magnitude : Int := (toString d.digits).length + d.exponent
    -- far outside the range of doubles the power of ten is not worth computing
    if 400 < magnitude then Number.infinity false
    else if magnitude < -400 then Number.zero
    else
      let (num, den) := overTen d.digits 1 (-d.exponent)
      Number.round num den

/-- The value of a run of decimal digits. -/
def natOfDigits (cs : List Char) : Nat := cs.foldl (fun n c => 10 * n + (c.toNat - '0'.toNat)) 0

/-- An optional sign: whether it is a minus, and what follows. -/
def sign (cs : List Char) : Bool × List Char :=
  match cs with
  | '-' :: rest => (true, rest)
  | '+' :: rest => (false, rest)
  | _ => (false, cs)

/-- The exponent part that ends a literal: nothing, or a mark, an optional sign and digits. -/
def exponentPart? (cs : List Char) : Option Int :=
  match cs with
  | [] => some 0
  | c :: rest =>
    if c == 'e' || c == 'E' then
      let (negative, digits) := sign rest
      if digits.isEmpty || !digits.all Char.isDigit then none
      else some (if negative then -(natOfDigits digits : Int) else natOfDigits digits)
    else none

/-- An unsigned decimal literal: digits with at most one point and an optional exponent. -/
def readUnsigned? (cs : List Char) : Option Decimal :=
  let whole := cs.takeWhile Char.isDigit
  let afterWhole := cs.dropWhile Char.isDigit
  let (fraction, rest) := match afterWhole with
    | '.' :: more => (more.takeWhile Char.isDigit, more.dropWhile Char.isDigit)
    | _ => ([], afterWhole)
  if whole.isEmpty && fraction.isEmpty then none
  else (exponentPart? rest).map fun e => ⟨natOfDigits (whole ++ fraction), e - fraction.length⟩

/-- A number written in decimal, with an optional sign, or one of the words for infinity and
NaN in any case. -/
def read? (text : String) : Option Number :=
  let (negative, cs) := sign text.toList
  let magnitude : Option Number :=
    match String.ofList (cs.map Char.toLower) with
    | "inf" => some (Number.infinity false)
    | "infinity" => some (Number.infinity false)
    | "nan" => some Number.nan
    | _ => (readUnsigned? cs).map toNumber
  magnitude.map (Number.withSign negative)

end Decimal

namespace Number

/-- Digits without exponent, as intermediate code shows them. -/
def text (x : Number) : String :=
  if x.isNaN then "NaN"
  else
    let magnitude :=
      if !x.isFinite then "inf"
      else if x.isZero then "0"
      else (Decimal.shortest x).positional
    if x.isNegative then "-" ++ magnitude else magnitude

/-- The text of a number in programs: integers below `10 ^ 21` digit by digit, all else as the
shortest positional decimal.  Both zeros are written `0`. -/
def programText (x : Number) : String :=
  if x.isNaN then "NaN"
  else if !x.isFinite then (if x.isNegative then "-Infinity" else "Infinity")
  else if x.isZero then "0"
  else if x.isIntegral && x.truncate.natAbs < Nat.pow 10 21 then toString x.truncate
  else x.text

end Number

end Whittle
