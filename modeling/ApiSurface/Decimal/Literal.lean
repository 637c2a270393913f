/-
Reading a decimal literal as the nearest double.

The grammar is an optional sign, digits with an optional point (at least one digit in all), and an
optional exponent. The value is rounded once, from the exact fraction.
-/
import ApiSurface.Decimal.Double
import ApiSurface.Text.Digits

namespace ApiSurface.Literal

/-- An unsigned literal split into integer digits, fraction digits and exponent. -/
structure Parts where
  whole : List Char
  fraction : List Char
  exponent : Int

/-- The exponent after the letter `e`, which must end the literal. -/
def exponent? (cs : List Char) : Option Int :=
  let (sign, digits) : Int × List Char := match cs with
    | '+' :: r => (1, r)
    | '-' :: r => (-1, r)
    | r => (1, r)
  if digits.isEmpty || !digits.all Char.isDigit then none
  else some (sign * Int.ofNat (Text.decimal 0 digits))

/-- Splits an unsigned literal; nothing else may stand in the text. -/
def parts? (cs : List Char) : Option Parts :=
  let whole := cs.takeWhile Char.isDigit
  let rest := cs.dropWhile Char.isDigit
  let (fraction, rest) := match rest with
    | '.' :: r => (r.takeWhile Char.isDigit, r.dropWhile Char.isDigit)
    | r => ([], r)
  if whole.isEmpty && fraction.isEmpty then none
  else match rest with
    | [] => some ⟨whole, fraction, 0⟩
    | c :: r => if c == 'e' || c == 'E' then (exponent? r).map (⟨whole, fraction, ·⟩) else none

/-- The nearest double, if it is finite. An exponent far outside the range is not expanded. -/
def Parts.toDouble? (p : Parts) (negative : Bool) : Option Double :=
  let n := Text.decimal (Text.decimal 0 p.whole) p.fraction
  let e := p.exponent - Int.ofNat p.fraction.length
  let size := Int.ofNat (Nat.toDigits 10 n).length
  if n = 0 then some (Double.zero negative)
  else if 400 < e + size then none
  else if e + size < -400 then some (Double.zero negative)
  else if e < 0 then Double.ofRatio? negative n (Nat.pow 10 (-e).toNat)
  else Double.ofRatio? negative (n * Nat.pow 10 e.toNat) 1

/-- Reads a literal with an optional minus sign; an infinite value is refused. -/
def toDouble? (cs : List Char) : Option Double :=
  match cs with
  | '-' :: r => (parts? r).bind (·.toDouble? true)
  | '+' :: r => (parts? r).bind (·.toDouble? false)
  | r => (parts? r).bind (·.toDouble? false)

end ApiSurface.Literal
