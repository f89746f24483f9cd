/-!
# Operators

The operators of the language with their spelling and their binding power.  A larger precedence
binds tighter; parsing and printing use the same numbers.
-/

namespace Whittle.Syntax

/-- Operators written before their argument. -/
inductive UnaryOp where
  | minus
  | plus
  | not
  | bitNot
  | typeof
  | void
  | delete
deriving DecidableEq, Repr, Inhabited

/-- Operators that change a variable by one. -/
inductive UpdateOp where
  | increment
  | decrement
deriving DecidableEq, Repr, Inhabited

/-- Operators that evaluate both sides. -/
inductive BinaryOp where
  | add
  | sub
  | mul
  | div
  | rem
  | pow
  | shiftLeft
  | shiftRight
  | shiftRightUnsigned
  | bitAnd
  | bitOr
  | bitXor
  | equal
  | notEqual
  | strictEqual
  | strictNotEqual
  | less
  | lessEqual
  | greater
  | greaterEqual
  | isIn
  | instanceOf
deriving DecidableEq, Repr, Inhabited

/-- Operators that evaluate the right side only when needed. -/
inductive LogicalOp where
  | and
  | or
  | nullish
deriving DecidableEq, Repr, Inhabited

/-- Operators that store into their left side. -/
inductive AssignOp where
  | set
  | add
  | sub
  | mul
  | div
  | rem
  | pow
  | shiftLeft
  | shiftRight
  | shiftRightUnsigned
  | bitAnd
  | bitOr
  | bitXor
  | and
  | or
  | nullish
deriving DecidableEq, Repr, Inhabited

namespace UnaryOp

/-- Every unary operator. -/
def all : List UnaryOp := [.minus, .plus, .not, .bitNot, .typeof, .void, .delete]

/-- The spelling. -/
def text : UnaryOp → String
  | .minus => "-"
  | .plus => "+"
  | .not => "!"
  | .bitNot => "~"
  | .typeof => "typeof"
  | .void => "void"
  | .delete => "delete"

/-- The operator with the given spelling. -/
def ofText? (s : String) : Option UnaryOp := all.find? (·.text == s)

/-- Whether the operator is a word, which a blank must follow. -/
def isWord : UnaryOp → Bool
  | .typeof | .void | .delete => true
  | .minus | .plus | .not | .bitNot => false

end UnaryOp

namespace UpdateOp

/-- The spelling. -/
def text : UpdateOp → String
  | .increment => "++"
  | .decrement => "--"

end UpdateOp

namespace BinaryOp

/-- Every binary operator. -/
def all : List BinaryOp :=
  [.add, .sub, .mul, .div, .rem, .pow, .shiftLeft, .shiftRight, .shiftRightUnsigned, .bitAnd,
   .bitOr, .bitXor, .equal, .notEqual, .strictEqual, .strictNotEqual, .less, .lessEqual, .greater,
   .greaterEqual, .isIn, .instanceOf]

/-- The spelling. -/
def text : BinaryOp → String
  | .add => "+"
  | .sub => "-"
  | .mul => "*"
  | .div => "/"
  | .rem => "%"
  | .pow => "**"
  | .shiftLeft => "<<"
  | .shiftRight => ">>"
  | .shiftRightUnsigned => ">>>"
  | .bitAnd => "&"
  | .bitOr => "|"
  | .bitXor => "^"
  | .equal => "=="
  | .notEqual => "!="
  | .strictEqual => "==="
  | .strictNotEqual => "!=="
  | .less => "<"
  | .lessEqual => "<="
  | .greater => ">"
  | .greaterEqual => ">="
  | .isIn => "in"
  | .instanceOf => "instanceof"

/-- The operator with the given spelling. -/
def ofText? (s : String) : Option BinaryOp := all.find? (·.text == s)

/-- Binding power. -/
def precedence : BinaryOp → Nat
  | .bitOr => 6
  | .bitXor => 7
  | .bitAnd => 8
  | .equal | .notEqual | .strictEqual | .strictNotEqual => 9
  | .less | .lessEqual | .greater | .greaterEqual | .isIn | .instanceOf => 10
  | .shiftLeft | .shiftRight | .shiftRightUnsigned => 11
  | .add | .sub => 12
  | .mul | .div | .rem => 13
  | .pow => 14

/-- Whether a chain of the operator groups from the right. -/
def isRightAssociative (op : BinaryOp) : Bool := op == .pow

/-- Whether evaluating the operator on any values is unobservable. -/
def isPure : BinaryOp → Bool
  | .isIn | .instanceOf => false
  | _ => true

end BinaryOp

namespace LogicalOp

/-- The spelling. -/
def text : LogicalOp → String
  | .and => "&&"
  | .or => "||"
  | .nullish => "??"

/-- Binding power. -/
def precedence : LogicalOp → Nat
  | .nullish => 3
  | .or => 4
  | .and => 5

end LogicalOp

namespace AssignOp

/-- Every assignment operator. -/
def all : List AssignOp :=
  [.set, .add, .sub, .mul, .div, .rem, .pow, .shiftLeft, .shiftRight, .shiftRightUnsigned, .bitAnd,
   .bitOr, .bitXor, .and, .or, .nullish]

/-- The spelling. -/
def text : AssignOp → String
  | .set => "="
  | .add => "+="
  | .sub => "-="
  | .mul => "*="
  | .div => "/="
  | .rem => "%="
  | .pow => "**="
  | .shiftLeft => "<<="
  | .shiftRight => ">>="
  | .shiftRightUnsigned => ">>>="
  | .bitAnd => "&="
  | .bitOr => "|="
  | .bitXor => "^="
  | .and => "&&="
  | .or => "||="
  | .nullish => "??="

/-- The operator with the given spelling. -/
def ofText? (s : String) : Option AssignOp := all.find? (·.text == s)

/-- The operator that combines old and new value before the store, if any. -/
def binary? : AssignOp → Option BinaryOp
  | .add => some .add
  | .sub => some .sub
  | .mul => some .mul
  | .div => some .div
  | .rem => some .rem
  | .pow => some .pow
  | .shiftLeft => some .shiftLeft
  | .shiftRight => some .shiftRight
  | .shiftRightUnsigned => some .shiftRightUnsigned
  | .bitAnd => some .bitAnd
  | .bitOr => some .bitOr
  | .bitXor => some .bitXor
  | .set | .and | .or | .nullish => none

/-- Whether the store happens only for some old values. -/
def isLogical : AssignOp → Bool
  | .and | .or | .nullish => true
  | _ => false

end AssignOp

end Whittle.Syntax
