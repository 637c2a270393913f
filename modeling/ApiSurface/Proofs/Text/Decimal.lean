/-
Decimal digits and the number that they spell.

Digits spell less than the power of ten for their count (`decimal_lt`). Without a leading zero they
are the ones that their number is written with (`toDigits_append`, `toDigits_decimal`).
-/
import ApiSurface.Proofs.Text.Digits
import Mathlib

namespace ApiSurface.Text

theorem decimal_append (start : Nat) (cs ds : List Char) :
    decimal start (cs ++ ds) = decimal (decimal start cs) ds :=
  List.foldl_append

/-- Digits that go on from a number shift it by their number. -/
theorem decimal_eq_add (start : Nat) (cs : List Char) :
    decimal start cs = start * 10 ^ cs.length + decimal 0 cs := by
  rw [decimal_eq_ofDigitChars, decimal_eq_ofDigitChars, Nat.ofDigitChars_eq_ofDigitChars_zero,
    Nat.mul_comm]

theorem decimal_cons (start : Nat) (c : Char) (cs : List Char) :
    decimal start (c :: cs) = decimal (10 * start + digitValue c) cs := by
  rw [decimal, List.foldl_cons, ← decimal]

theorem decimal_zero_cons (c : Char) (cs : List Char) :
    decimal 0 (c :: cs) = decimal (digitValue c) cs := by
  rw [decimal_cons, Nat.mul_zero, Nat.zero_add]

theorem decimal_zeros (start k : Nat) : decimal start (List.replicate k '0') = start * 10 ^ k := by
  induction k generalizing start with
  | zero => simp [decimal]
  | succ k ih =>
    have hstep : decimal start (List.replicate (k + 1) '0')
        = decimal (10 * start) (List.replicate k '0') := rfl
    rw [hstep, ih, Nat.pow_succ']
    ring

theorem digitValue_spec {c : Char} (h : c.isDigit = true) :
    digitValue c < 10 ∧ (digitValue c).digitChar = c ∧ (c ≠ '0' → 0 < digitValue c) := by
  have hchars : ∀ n < 58, 48 ≤ n → digitValue (Char.ofNat n) < 10 ∧
      (digitValue (Char.ofNat n)).digitChar = Char.ofNat n ∧
        (Char.ofNat n ≠ '0' → 0 < digitValue (Char.ofNat n)) := by decide
  simp only [Char.isDigit, Bool.and_eq_true, decide_eq_true_eq] at h
  have hlow : 48 ≤ c.toNat := UInt32.le_iff_toNat_le.mp h.1
  have hhigh : c.toNat ≤ 57 := UInt32.le_iff_toNat_le.mp h.2
  have hspec := hchars c.toNat (by omega) hlow
  rwa [Char.ofNat_toNat] at hspec

/-- Digits spell less than the power of ten of their number. -/
theorem decimal_lt {cs : List Char} (h : ∀ c ∈ cs, c.isDigit = true) :
    decimal 0 cs < 10 ^ cs.length := by
  induction cs with
  | nil => exact Nat.one_pos
  | cons c cs ih =>
    obtain ⟨hc, hcs⟩ := List.forall_mem_cons.mp h
    have hvalue := (digitValue_spec hc).1
    have hrest := ih hcs
    rw [decimal_zero_cons, decimal_eq_add, List.length_cons, Nat.pow_succ]
    nlinarith

/-- Digits after a positive number go on with it. -/
theorem toDigits_append {n : Nat} (hn : 0 < n) {cs : List Char}
    (h : ∀ c ∈ cs, c.isDigit = true) : Nat.toDigits 10 n ++ cs = Nat.toDigits 10 (decimal n cs) := by
  induction cs generalizing n with
  | nil => exact List.append_nil _
  | cons c cs ih =>
    obtain ⟨hc, hcs⟩ := List.forall_mem_cons.mp h
    obtain ⟨hlt, hchar, -⟩ := digitValue_spec hc
    have hone := Nat.toDigits_append_toDigits (b := 10) (by decide) hn hlt
    rw [Nat.toDigits_of_lt_base hlt, hchar] at hone
    calc Nat.toDigits 10 n ++ c :: cs
        = (Nat.toDigits 10 n ++ [c]) ++ cs := by rw [List.append_assoc, List.singleton_append]
      _ = Nat.toDigits 10 (10 * n + digitValue c) ++ cs := by rw [hone]
      _ = Nat.toDigits 10 (decimal n (c :: cs)) := ih (by omega) hcs

/-- Digits without a leading zero are those of the number that they spell. -/
theorem toDigits_decimal {c : Char} {cs : List Char} (h : ∀ d ∈ c :: cs, d.isDigit = true)
    (first : c ≠ '0') :
    Nat.toDigits 10 (decimal 0 (c :: cs)) = c :: cs ∧ 0 < decimal 0 (c :: cs) := by
  obtain ⟨hc, hcs⟩ := List.forall_mem_cons.mp h
  obtain ⟨hlt, hchar, hpos⟩ := digitValue_spec hc
  rw [decimal_zero_cons, ← toDigits_append (hpos first) hcs, Nat.toDigits_of_lt_base hlt, hchar]
  exact ⟨rfl, Nat.lt_of_lt_of_le (hpos first) (le_decimal _ cs)⟩

end ApiSurface.Text
