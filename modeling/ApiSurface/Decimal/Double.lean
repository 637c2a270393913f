/-
Finite binary64 numbers in exact arithmetic.

A `Double` is a sign and a rank: its place in the increasing list of the nonnegative
finite doubles. The value of a rank is `significand * 2 ^ exponent`, and the rank of a
quotient is found by rounding to the nearest value, a tie going to the even significand
(`Double.rankOfRatio`). Multiplication and division round the exact result once, so
nothing here rests on the machine's floating point.
-/

namespace ApiSurface

namespace Double

/-- The number of doubles from one power of two to the next, `2 ^ 52`. -/
def binade : Nat := 4503599627370496

/-- The number of ranks: the first one that stands for an infinite value. -/
def limit : Nat := 2047 * binade

/-- The integer factor of the value at a rank. -/
def significand (rank : Nat) : Nat :=
  if rank < binade then rank else binade + rank % binade

/-- The binary exponent of the value at a rank. -/
def exponent (rank : Nat) : Int :=
  if rank < binade then -1074 else Int.ofNat (rank / binade) - 1075

/-- The value at a rank as a fraction of natural numbers. -/
def ratio (rank : Nat) : Nat × Nat :=
  let e := exponent rank
  if e < 0 then (significand rank, Nat.pow 2 (-e).toNat)
  else (significand rank * Nat.pow 2 e.toNat, 1)

/-- The quotient rounded to the nearest integer, a tie going to the even one. -/
def roundDiv (num den : Nat) : Nat :=
  let q := num / den
  let r := num % den
  if 2 * r < den then q
  else if den < 2 * r then q + 1
  else if q % 2 = 0 then q else q + 1

/-- The exponent at which `num / den` has a significand of 53 bits, or the least exponent. -/
def scaleOf (num den : Nat) : Int :=
  let e : Int := Int.ofNat num.log2 - Int.ofNat den.log2 - 52
  let below : Bool :=
    if e < 0 then num * Nat.pow 2 (-e).toNat < binade * den
    else num < binade * (den * Nat.pow 2 e.toNat)
  max (if below then e - 1 else e) (-1074)

/-- The rank nearest to `num / den`; a value past the last rank gives `limit` or more. -/
def rankOfRatio (num den : Nat) : Nat :=
  if num = 0 then 0
  else
    let e := scaleOf num den
    let m := if e < 0 then roundDiv (num * Nat.pow 2 (-e).toNat) den
      else roundDiv num (den * Nat.pow 2 e.toNat)
    (e + 1074).toNat * binade + m

end Double

/-- A finite double: a sign and the rank of its absolute value. -/
structure Double where
  negative : Bool
  rank : Nat
  finite : rank < Double.limit
  deriving DecidableEq

namespace Double

/-- The double nearest to a fraction, if it is finite. -/
def ofRatio? (negative : Bool) (num den : Nat) : Option Double :=
  let rank := rankOfRatio num den
  if finite : rank < limit then some ⟨negative, rank, finite⟩ else none

/-- Zero with the given sign. -/
def zero (negative : Bool) : Double := ⟨negative, 0, by decide⟩

/-- Numeric equality, for which the two zeros are one number. -/
def same (x y : Double) : Bool :=
  x.rank == y.rank && (x.negative == y.negative || x.rank == 0)

/-- The same absolute value with the given sign. -/
def withSign (x : Double) (negative : Bool) : Double := { x with negative }

/-- The rounded product of two absolute values, if it is finite. -/
def times? (x y : Double) : Option Double :=
  let (a, b) := ratio x.rank
  let (c, d) := ratio y.rank
  ofRatio? false (a * c) (b * d)

/-- The rounded quotient of two absolute values, if it is finite. -/
def over? (x y : Double) : Option Double :=
  let (a, b) := ratio x.rank
  let (c, d) := ratio y.rank
  ofRatio? false (a * d) (b * c)

/-- The double nearest to a power of ten. -/
def powerOfTen? (k : Nat) : Option Double := ofRatio? false (Nat.pow 10 k) 1

end Double

end ApiSurface
