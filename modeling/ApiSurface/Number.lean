/-
The numbers of a model: integers of 64 bits, signed or unsigned, and finite doubles.

The two are never equal to one another, and doubles are compared as numbers, so the two zeros
are one value.
-/
import ApiSurface.Decimal.Notation

namespace ApiSurface

/-- An integer that a signed or an unsigned 64-bit word can hold: one from `-2 ^ 63` to
`2 ^ 64 - 1`. -/
structure WordInt where
  val : Int
  lower : -9223372036854775808 ≤ val
  upper : val < 18446744073709551616
  deriving DecidableEq

namespace WordInt

/-- The integer as a word, if it fits. -/
def ofInt? (i : Int) : Option WordInt :=
  if lower : -9223372036854775808 ≤ i then
    if upper : i < 18446744073709551616 then some ⟨i, lower, upper⟩ else none
  else none

/-- The decimal text, with a minus sign for a negative integer. -/
def write (i : WordInt) : List Char :=
  if i.val < 0 then '-' :: Nat.toDigits 10 i.val.natAbs else Nat.toDigits 10 i.val.natAbs

end WordInt

/-- A number in a document. -/
inductive Number where
  | integer (value : WordInt)
  | double (value : Double)
  deriving DecidableEq

namespace Number

/-- Numeric equality within each of the two kinds. -/
def same : Number → Number → Bool
  | .integer i, .integer j => i == j
  | .double x, .double y => x.same y
  | _, _ => false

instance : BEq Number := ⟨same⟩

/-- The text of a number in a notation. -/
def write (f : Notation) : Number → List Char
  | .integer i => i.write
  | .double x => f.write x

/-- The text of a number as a JSON document has it. -/
def toText (n : Number) : String := String.ofList (n.write Notation.json)

end Number

end ApiSurface
