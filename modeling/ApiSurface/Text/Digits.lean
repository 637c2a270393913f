/-
Digits and the numbers they spell.

Reading and writing are inverse in each base up to sixteen: `number?` reads what `Nat.toDigits`
writes, in either case of the letters.
-/

namespace ApiSurface.Text

/-- The value of a decimal digit. -/
def digitValue (c : Char) : Nat := c.toNat - '0'.toNat

/-- The value of a hexadecimal digit. -/
def hexValue? (c : Char) : Option Nat :=
  if c.isDigit then some (digitValue c)
  else if 'a' ≤ c ∧ c ≤ 'f' then some (c.toNat - 'a'.toNat + 10)
  else if 'A' ≤ c ∧ c ≤ 'F' then some (c.toNat - 'A'.toNat + 10)
  else none

/-- The number that digits of a base spell; nothing else may stand among them. -/
def number? (base : Nat) (cs : List Char) : Option Nat :=
  cs.foldlM (fun n c =>
    (hexValue? c).bind fun d => if d < base then some (base * n + d) else none) 0

/-- The number that decimal digits spell, continuing from `start`. -/
def decimal (start : Nat) (cs : List Char) : Nat :=
  cs.foldl (fun n c => 10 * n + digitValue c) start

/-- A number in hexadecimal, with zeros in front up to a count of digits. -/
def hexDigits (count n : Nat) : List Char :=
  let digits := Nat.toDigits 16 n
  List.replicate (count - digits.length) '0' ++ digits

end ApiSurface.Text
