/-!
# Numbers of the compiled language

A number is an IEEE 754 double, held as its 64 bits, so that two numbers are the same value of this
type exactly when no program can tell their representations apart.  The comparisons of the language
are separate functions: a NaN differs from itself there, and the two zeros are equal.

`Number.round` is the one place where a rational becomes a number: nearest, ties to even.  Reading
decimals, integer conversions and the remainder go through it in exact arithmetic.
-/

namespace Whittle

/-- An IEEE 754 double. -/
structure Number where
  /-- Sign, 11 bits of exponent, 52 bits of fraction. -/
  bits : UInt64
deriving DecidableEq, Inhabited

namespace Number

/-- Whether the sign bit is set. -/
def isNegative (x : Number) : Bool := x.bits >>> 63 == 1

/-- The biased exponent. -/
def exponentField (x : Number) : Nat := ((x.bits >>> 52) &&& 0x7ff).toNat

/-- The fraction bits. -/
def fractionField (x : Number) : Nat := (x.bits &&& 0xfffffffffffff).toNat

/-- Neither infinite nor a NaN. -/
def isFinite (x : Number) : Bool := x.exponentField != 0x7ff

/-- Not a number. -/
def isNaN (x : Number) : Bool := x.exponentField == 0x7ff && x.fractionField != 0

/-- One of the two zeros. -/
def isZero (x : Number) : Bool := x.exponentField == 0 && x.fractionField == 0

/-- The integer `m` of a finite number `± m · 2 ^ q`. -/
def significand (x : Number) : Nat :=
  if x.exponentField == 0 then x.fractionField else Nat.pow 2 52 + x.fractionField

/-- The exponent `q` of a finite number `± m · 2 ^ q`. -/
def scale (x : Number) : Int := (max x.exponentField 1 : Nat) - 1075

/-- The positive zero. -/
def zero : Number := ⟨0⟩

/-- The number one. -/
def one : Number := ⟨0x3ff0000000000000⟩

/-- The infinity of the given sign. -/
def infinity (negative : Bool) : Number :=
  ⟨if negative then 0xfff0000000000000 else 0x7ff0000000000000⟩

/-- The NaN that reading the word `nan` gives. -/
def nan : Number := ⟨0x7ff8000000000000⟩

/-- Flips the sign bit. -/
def neg (x : Number) : Number := ⟨x.bits ^^^ 0x8000000000000000⟩

/-- The given sign on a magnitude. -/
def withSign (negative : Bool) (x : Number) : Number := if negative then x.neg else x

/-- `2 ^ k` as a fraction. -/
def powTwo (k : Int) : Nat × Nat := if 0 ≤ k then (Nat.pow 2 k.toNat, 1) else (1, Nat.pow 2 (-k).toNat)

/-- The largest `k` with `2 ^ k ≤ num / den`, for positive `num` and `den`. -/
def binaryExponent (num den : Nat) : Int :=
  let k : Int := (num.log2 : Int) - den.log2
  let (a, b) := powTwo k
  if den * a ≤ num * b then k else k - 1

/-- The quotient rounded to nearest, a tie going to the even neighbour. -/
def divRound (num den : Nat) : Nat :=
  let q := num / den
  let r := num % den
  if 2 * r < den then q
  else if den < 2 * r then q + 1
  else if q % 2 == 0 then q else q + 1

/-- The number nearest to `num / den`, a tie going to the even significand. -/
def round (num den : Nat) : Number :=
  if num == 0 then zero
  else
    let q : Int := max (binaryExponent num den - 52) (-1074)
    let (a, b) := powTwo q
    let bits := (q + 1074).toNat * Nat.pow 2 52 + divRound (num * b) (den * a)
    if 0x7ff0000000000000 ≤ bits then infinity false else ⟨bits.toUInt64⟩

/-- The number nearest to a natural. -/
def ofNat (n : Nat) : Number := round n 1

/-- The number nearest to an integer. -/
def ofInt (i : Int) : Number := withSign (i < 0) (ofNat i.natAbs)

/-- The number as a machine float. -/
def toFloat (x : Number) : Float := Float.ofBits x.bits

/-- A machine float as a number. -/
def ofFloat (x : Float) : Number := ⟨x.toBits⟩

/-- Sum. -/
def add (x y : Number) : Number := ofFloat (x.toFloat + y.toFloat)

/-- Difference. -/
def sub (x y : Number) : Number := ofFloat (x.toFloat - y.toFloat)

/-- Product. -/
def mul (x y : Number) : Number := ofFloat (x.toFloat * y.toFloat)

/-- Quotient. -/
def div (x y : Number) : Number := ofFloat (x.toFloat / y.toFloat)

/-- Power. -/
def pow (x y : Number) : Number := ofFloat (Float.pow x.toFloat y.toFloat)

/-- The remainder of the truncated division; it has the sign of the dividend. -/
def rem (x y : Number) : Number :=
  if !x.isFinite || y.isNaN || y.isZero then nan
  else if !y.isFinite || x.isZero then x
  else
    let low := min x.scale y.scale
    let a := x.significand * Nat.pow 2 (x.scale - low).toNat
    let b := y.significand * Nat.pow 2 (y.scale - low).toNat
    let (p, d) := powTwo low
    withSign x.isNegative (round (a % b * p) d)

/-- Equality of the language: a NaN differs from all, the zeros are equal. -/
def same (x y : Number) : Bool := x.toFloat == y.toFloat

/-- Order of the language. -/
def lt (x y : Number) : Bool := x.toFloat < y.toFloat

/-- Order of the language, or equal. -/
def le (x y : Number) : Bool := x.toFloat ≤ y.toFloat

/-- The integer part of a finite number. -/
def truncate (x : Number) : Int :=
  let (a, b) := powTwo x.scale
  let n := x.significand * a / b
  if x.isNegative then -(n : Int) else n

/-- Whether a finite number has no fractional part. -/
def isIntegral (x : Number) : Bool :=
  let (a, b) := powTwo x.scale
  x.isFinite && x.significand * a % b == 0

/-- The residue of the integer part modulo `2 ^ 32`; infinities and NaN have none and count as `0`. -/
def toWord (x : Number) : UInt32 :=
  if x.isFinite then (x.truncate % UInt32.size).toNat.toUInt32 else 0

/-- A 32-bit word read as a signed integer. -/
def ofSigned (w : UInt32) : Number := ofInt (w.toNat.toUInt32.toBitVec.toInt)

/-- A 32-bit word read as an unsigned integer. -/
def ofUnsigned (w : UInt32) : Number := ofNat w.toNat

end Number

end Whittle
