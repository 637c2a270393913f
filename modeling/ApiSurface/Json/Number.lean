/-
Numbers in JSON text.

An integer that fits a word is exact. Any other number is a double: its digits are gathered in a
word for as long as they fit, and the word is then scaled by a power of ten in rounded arithmetic.
Digits that do not fit count by their number before the point and are dropped after it.
-/
import ApiSurface.Json.Reader
import ApiSurface.Decimal.Literal

namespace ApiSurface.Json

/-- Appends decimal digits to a number while it stays below a limit; gives the number and the
digits that are left. -/
def absorb (limit n : Nat) : List Char → Nat × List Char
  | [] => (n, [])
  | c :: cs =>
    let m := 10 * n + Text.digitValue c
    if m < limit then absorb limit m cs else (n, c :: cs)

/-- The first integer that a word cannot hold, `2 ^ 64`. -/
def wordLimit : Nat := 18446744073709551616

/-- The first exponent that is not worked out, `2 ^ 31`. -/
def exponentLimit : Nat := 2147483648

/-- The largest power of ten that is used as one factor. -/
def largestPower : Nat := 308

/-- A double divided by a power of ten, in steps of the largest power. -/
def divide : Nat → Double → Nat → Option Double
  | 0, x, _ => some x
  | fuel + 1, x, k =>
    if k ≤ largestPower then (Double.powerOfTen? k).bind x.over?
    else if x.rank = 0 then some x
    else ((Double.powerOfTen? largestPower).bind x.over?).bind (divide fuel · (k - largestPower))

/-- A word scaled by a power of ten; an infinite result is refused. -/
def scale? (n : Nat) (e : Int) : Option Double :=
  (Double.ofRatio? false n 1).bind fun x =>
    if e < 0 then divide 4 x (-e).toNat
    else if e.toNat ≤ largestPower then (Double.powerOfTen? e.toNat).bind x.times?
    else if x.rank = 0 then some x
    else none

namespace Reader

/-- The double for a word and an exponent. -/
def scaled (negative : Bool) (n : Nat) (e : Int) : Reader Number :=
  match scale? n e with
  | some x => pure (.double (x.withSign negative))
  | none => failHere .numberOutOfRange

/-- Reads an exponent, whose letter is next, and scales by it. -/
def exponent (negative : Bool) (n : Nat) (start : Int) : Reader Number := do
  skip
  let sign ← peek?
  if sign = some '+' ∨ sign = some '-' then skip
  let below := sign = some '-'
  let digits ← takeWhile Char.isDigit
  if digits.isEmpty then
    match ← peek? with
    | none => failHere .endInValue
    | some _ => failAhead .invalidNumber
  else
    match absorb exponentLimit 0 digits with
    | (e, []) => scaled negative n (if below then start - e else start + e)
    | (_, _ :: late) =>
      if n = 0 ∨ below then return .double (Double.zero negative)
      else fun s =>
        .error ⟨.fault .numberOutOfRange, some ⟨late ++ s.rest, 0⟩⟩ s

/-- Reads an exponent if there is one. -/
def optionalExponent (negative : Bool) (n : Nat) (start : Int) : Reader Number := do
  let c ← peek?
  if c = some 'e' ∨ c = some 'E' then exponent negative n start else scaled negative n start

/-- Reads a fraction, whose point is next, and what follows it. -/
def fraction (negative : Bool) (n : Nat) (start : Int) : Reader Number := do
  skip
  let digits ← takeWhile Char.isDigit
  if digits.isEmpty then
    match ← peek? with
    | none => failAhead .endInValue
    | some _ => failAhead .invalidNumber
  else
    let (m, late) := absorb wordLimit n digits
    optionalExponent negative m (start - (digits.length - late.length : Nat))

/-- Reads what follows the integer digits; `late` counts the digits that the word does not hold. -/
def afterInteger (negative : Bool) (n late : Nat) : Reader Number := do
  let c ← peek?
  if c = some '.' then fraction negative n late
  else if c = some 'e' ∨ c = some 'E' then exponent negative n late
  else if late = 0 then
    match WordInt.ofInt? (if negative then -(n : Int) else n) with
    | some i => if negative ∧ n = 0 then scaled true 0 0 else return .integer i
    | none => scaled negative n 0
  else scaled negative n late

/-- Reads a number after its sign. -/
def number (negative : Bool) : Reader Number := do
  match ← peek? with
  | none => failHere .endInValue
  | some c =>
    if c = '0' then
      skip
      match ← peek? with
      | some d => if d.isDigit then failAhead .invalidNumber else afterInteger negative 0 0
      | none => afterInteger negative 0 0
    else if c.isDigit then
      let (n, late) := absorb wordLimit 0 (← takeWhile Char.isDigit)
      afterInteger negative n late.length
    else failAhead .invalidNumber

end Reader

end ApiSurface.Json
