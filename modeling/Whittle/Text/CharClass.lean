import Whittle.Text.Ranges.Alphabetic
import Whittle.Text.Ranges.Numeric
import Whittle.Text.Ranges.Unprinted

/-!
# Character classes

The classes that tokens and quoted text are made of.  ASCII is decided directly; everything else by
the ranges of a Unicode property.
-/

namespace Whittle.Text

/-- Whether a code point lies in one of the ranges. -/
def inRanges (ranges : Array (Nat × Nat)) (n : Nat) : Bool :=
  ranges.any fun r => r.1 ≤ n && n ≤ r.2

/-- The property White_Space. -/
def isBlank (c : Char) : Bool :=
  let n := c.toNat
  (9 ≤ n && n ≤ 13) || n == 0x20 || n == 0x85 || n == 0xa0 || n == 0x1680 ||
    (0x2000 ≤ n && n ≤ 0x200a) || n == 0x2028 || n == 0x2029 || n == 0x202f || n == 0x205f ||
    n == 0x3000

/-- The property Alphabetic. -/
def isAlphabetic (c : Char) : Bool :=
  if c.toNat < 128 then c.isAlpha else inRanges Ranges.alphabetic c.toNat

/-- Letters and numbers of any script. -/
def isAlphanumeric (c : Char) : Bool :=
  if c.toNat < 128 then c.isAlphanum
  else inRanges Ranges.alphabetic c.toNat || inRanges Ranges.numeric c.toNat

/-- Characters without a shape of their own, the space apart. -/
def isUnprinted (c : Char) : Bool :=
  if c.toNat < 128 then c.toNat < 32 || c.toNat == 127 else inRanges Ranges.unprinted c.toNat

/-- A character that may begin a word. -/
def startsWord (c : Char) : Bool := isAlphabetic c || c == '_' || c == '$'

/-- A character that may continue a word. -/
def continuesWord (c : Char) : Bool := isAlphanumeric c || c == '_' || c == '$'

end Whittle.Text
