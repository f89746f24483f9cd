import Whittle.Ir.Instr

/-!
# Operators on known values

What an operator gives for known operands, where that is certain and can be written as a literal: no
NaN, no infinity, no negative zero, and no conversion between kinds of values.
-/

namespace Whittle.Ir.Value

open Syntax (BinaryOp UnaryOp LogicalOp)

/-- Whether a value counts as true in a test. -/
def isTruthy : Value → Bool
  | .number n => !n.isZero && !n.isNaN
  | .string s => !s.isEmpty
  | .boolean b => b
  | .null => false
  | .undefined => false

/-- Whether a value is one of the two that stand for nothing. -/
def isNullish : Value → Bool
  | .null | .undefined => true
  | _ => false

/-- A number that can be written as a literal. -/
def writable? (n : Number) : Option Value :=
  if n.isFinite && !(n.isZero && n.isNegative) then some (.number n) else none

/-- Equality that keeps kinds apart. -/
def strictEqual : Value → Value → Bool
  | .number a, .number b => a.same b
  | .string a, .string b => a == b
  | .boolean a, .boolean b => a == b
  | .null, .null => true
  | .undefined, .undefined => true
  | _, _ => false

/-- Equality that takes `null` for `undefined`; between other kinds nothing is said. -/
def looseEqual? (a b : Value) : Option Bool :=
  if a.isNullish && b.isNullish then some true
  else if a.isNullish || b.isNullish then some false
  else
    match a, b with
    | .number _, .number _ | .string _, .string _ | .boolean _, .boolean _ =>
      some (strictEqual a b)
    | _, _ => none

/-- The UTF-16 code units of a character. -/
def unitsOfChar (c : Char) : List Nat :=
  let n := c.toNat
  if n < 0x10000 then [n]
  else [0xd800 + (n - 0x10000) / 0x400, 0xdc00 + (n - 0x10000) % 0x400]

/-- The UTF-16 code units of a text; texts are ordered by them. -/
def units (s : String) : List Nat := s.toList.flatMap unitsOfChar

/-- Whether a list of units stands before another. -/
def unitsLess : List Nat → List Nat → Bool
  | _, [] => false
  | [], _ :: _ => true
  | a :: as, b :: bs => a < b || (a == b && unitsLess as bs)

/-- Operators on two texts. -/
def binaryText? (op : BinaryOp) (a b : String) : Option Value :=
  match op with
  | .add => some (.string (a ++ b))
  | .less => some (.boolean (unitsLess (units a) (units b)))
  | .lessEqual => some (.boolean !(unitsLess (units b) (units a)))
  | .greater => some (.boolean (unitsLess (units b) (units a)))
  | .greaterEqual => some (.boolean !(unitsLess (units a) (units b)))
  | _ => none

/-- A word shifted to the right, its sign bit kept. -/
def shiftSigned (a b : UInt32) : UInt32 := (a.toInt32 >>> b.toInt32).toUInt32

/-- Operators on two numbers. -/
def binaryNumber? (op : BinaryOp) (a b : Number) : Option Value :=
  let count := b.toWord &&& 31
  match op with
  | .add => writable? (a.add b)
  | .sub => writable? (a.sub b)
  | .mul => writable? (a.mul b)
  | .div => writable? (a.div b)
  | .rem => writable? (a.rem b)
  | .pow => writable? (a.pow b)
  | .shiftLeft => writable? (.ofSigned (a.toWord <<< count))
  | .shiftRight => writable? (.ofSigned (shiftSigned a.toWord count))
  | .shiftRightUnsigned => writable? (.ofUnsigned (a.toWord >>> count))
  | .bitAnd => writable? (.ofSigned (a.toWord &&& b.toWord))
  | .bitOr => writable? (.ofSigned (a.toWord ||| b.toWord))
  | .bitXor => writable? (.ofSigned (a.toWord ^^^ b.toWord))
  | .less => some (.boolean (a.lt b))
  | .lessEqual => some (.boolean (a.le b))
  | .greater => some (.boolean (b.lt a))
  | .greaterEqual => some (.boolean (b.le a))
  | _ => none

/-- What a binary operator gives. -/
def binary? (op : BinaryOp) (a b : Value) : Option Value :=
  match op with
  | .strictEqual => some (.boolean (strictEqual a b))
  | .strictNotEqual => some (.boolean !(strictEqual a b))
  | .equal => (looseEqual? a b).map .boolean
  | .notEqual => (looseEqual? a b).map fun e => .boolean !e
  | op =>
    match a, b with
    | .string a, .string b => binaryText? op a b
    | .number a, .number b => binaryNumber? op a b
    | _, _ => none

/-- The word for the kind of a value. -/
def typeName : Value → String
  | .number _ => "number"
  | .string _ => "string"
  | .boolean _ => "boolean"
  | .null => "object"
  | .undefined => "undefined"

/-- What a unary operator gives. -/
def unary? (op : UnaryOp) (a : Value) : Option Value :=
  match op, a with
  | .not, a => some (.boolean !a.isTruthy)
  | .void, _ => some .undefined
  | .typeof, a => some (.string a.typeName)
  | .minus, .number n => writable? n.neg
  | .plus, .number n => writable? n
  | .bitNot, .number n => writable? (.ofSigned (~~~n.toWord))
  | _, _ => none

/-- What a logical operator gives: one of its operands. -/
def logical (op : LogicalOp) (a b : Value) : Value :=
  let takesLeft := match op with
    | .and => !a.isTruthy
    | .or => a.isTruthy
    | .nullish => !a.isNullish
  if takesLeft then a else b

end Whittle.Ir.Value
