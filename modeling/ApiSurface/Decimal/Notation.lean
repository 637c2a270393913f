/-
How the digits of a double are laid out as text.

A `Notation` says where positional writing ends and how an exponent is spelled. Three of them
are in use: `Notation.json` and `Notation.yaml` for documents, `Notation.plain` for messages
about documents.
-/
import ApiSurface.Decimal.Shortest

namespace ApiSurface

/-- Which decimals are written without an exponent, and how an exponent is written. -/
structure Notation where
  /-- The largest place of the point, counted from the first digit, that is written positionally. -/
  lastPoint : Option Int
  /-- The smallest such place. -/
  firstPoint : Option Int
  /-- The text before a nonnegative exponent. -/
  positiveExponent : String
  deriving DecidableEq

namespace Notation

/-- JSON documents: positional from `0.00001` to sixteen integer digits, `e+` after that. -/
def json : Notation := ⟨some 16, some (-4), "e+"⟩

/-- YAML documents: as in JSON, the exponent without a plus sign. -/
def yaml : Notation := ⟨some 16, some (-4), "e"⟩

/-- Messages about YAML documents: positional throughout. -/
def plain : Notation := ⟨none, none, "e"⟩

/-- Whether a decimal with its point at place `p` is written positionally. -/
def positional (f : Notation) (p : Int) : Bool :=
  (match f.lastPoint with | some l => p ≤ l | none => true) &&
    (match f.firstPoint with | some l => l ≤ p | none => true)

/-- The text of a positive decimal. -/
def writeDigits (f : Notation) (d : Digits) : List Char :=
  let n : Int := Int.ofNat d.digits.length
  if f.positional d.point then
    if d.point ≤ 0 then
      '0' :: '.' :: (List.replicate (-d.point).toNat '0' ++ d.digits)
    else if d.point < n then
      d.digits.take d.point.toNat ++ '.' :: d.digits.drop d.point.toNat
    else d.digits ++ List.replicate (d.point - n).toNat '0' ++ ['.', '0']
  else
    let head := match d.digits with
      | c :: r => if r.isEmpty then [c] else c :: '.' :: r
      | [] => []
    let e := d.point - 1
    head ++ if e < 0 then 'e' :: '-' :: Nat.toDigits 10 (-e).toNat
      else f.positiveExponent.toList ++ Nat.toDigits 10 e.toNat

/-- The text of a double. -/
def write (f : Notation) (x : Double) : List Char :=
  let body := if x.rank = 0 then ['0', '.', '0'] else f.writeDigits (Double.shortest x.rank)
  if x.negative then '-' :: body else body

end Notation

end ApiSurface
