/-
The shortest decimal that reads back as a given double.

For each number of digits from one to seventeen the two points of that decimal grid next to
the value are tested against the interval of reals that round to it. The first grid with a
hit wins, and of two hits the one nearer to the value; an exact tie goes to the even digit.
-/
import ApiSurface.Decimal.Double

namespace ApiSurface

/-- A positive decimal `0.d₁d₂… * 10 ^ point`; the digits neither start nor end with zero. -/
structure Digits where
  digits : List Char
  point : Int
  deriving DecidableEq

namespace Digits

/-- The digits of `n * 10 ^ k`, without trailing zeros. -/
def ofScaled (n : Nat) (k : Int) : Digits :=
  let all := Nat.toDigits 10 n
  let kept := (all.reverse.dropWhile (· == '0')).reverse
  ⟨kept, Int.ofNat all.length + k⟩

end Digits

namespace Double

/-- The least `j` up to a bound with `den ≤ num * 10 ^ j`. -/
def leadingZeros (num den : Nat) : Nat → Nat
  | 0 => 0
  | fuel + 1 => if den ≤ num then 0 else leadingZeros (num * 10) den fuel + 1

/-- The `p` with `10 ^ (p - 1) ≤ num / den < 10 ^ p`. -/
def decimalPoint (num den : Nat) : Int :=
  if den ≤ num then Int.ofNat (Nat.toDigits 10 (num / den)).length
  else 1 - Int.ofNat (leadingZeros num den 400)

/-- The interval of the reals that round to one rank, as the doubled bounds over one denominator. -/
structure Basin where
  low : Nat
  high : Nat
  den : Nat
  closed : Bool

/-- The interval of a positive rank; its ends belong to it when the significand is even. -/
def basin (rank : Nat) : Basin :=
  let (a, b) := ratio (rank - 1)
  let (c, d) := ratio rank
  let (e, f) := ratio (rank + 1)
  let den := max b (max d f)
  let mid := c * (den / d)
  ⟨a * (den / b) + mid, mid + e * (den / f), 2 * den, significand rank % 2 == 0⟩

/-- Whether a fraction lies in the interval. -/
def Basin.contains (i : Basin) (num den : Nat) : Bool :=
  let x := num * i.den
  if i.closed then i.low * den ≤ x && x ≤ i.high * den else i.low * den < x && x < i.high * den

/-- `n * 10 ^ k` as a fraction. -/
def scaled (n : Nat) (k : Int) : Nat × Nat :=
  if k < 0 then (n, Nat.pow 10 (-k).toNat) else (n * Nat.pow 10 k.toNat, 1)

/-- The point of the grid `10 ^ k` that reads back as the rank and is nearest to its value. -/
def gridPoint? (rank : Nat) (k : Int) : Option Nat :=
  let (num, den) := ratio rank
  let i := basin rank
  let (unitNum, unitDen) := scaled 1 k
  let n := num * unitDen / (den * unitNum)
  let low := let (a, b) := scaled n k; i.contains a b
  let high := let (a, b) := scaled (n + 1) k; i.contains a b
  let twice := 2 * (num * unitDen)
  let middle := (2 * n + 1) * (den * unitNum)
  let chooseLow := twice < middle || (twice == middle && n % 2 == 0)
  match low, high with
  | true, true => some (if chooseLow then n else n + 1)
  | true, false => some n
  | false, true => some (n + 1)
  | false, false => none

/-- Tries the grids from `count` digits on. -/
def shortestFrom (rank : Nat) (point : Int) (count : Nat) : Nat → Digits
  | 0 => Digits.ofScaled 0 0
  | fuel + 1 =>
    let k := point - Int.ofNat count
    match gridPoint? rank k with
    | some n => Digits.ofScaled n k
    | none => shortestFrom rank point (count + 1) fuel

/-- The fewest digits that read back as the positive rank. -/
def shortest (rank : Nat) : Digits :=
  let (num, den) := ratio rank
  shortestFrom rank (decimalPoint num den) 1 17

end Double

end ApiSurface
