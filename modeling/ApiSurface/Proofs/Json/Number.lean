/-
An integer of a JSON text is read as the integer.

`number_toDigits` reads the digits of a natural number, with the sign that was read before them, up
to a character that cannot go on.
-/
import ApiSurface.Json.Number
import ApiSurface.Proofs.Text.Digits
import ApiSurface.Proofs.Text.Run

namespace ApiSurface.Json

/-- The characters that can go on a number. -/
def isNumberPart (c : Char) : Bool := c.isDigit || c == '.' || c == 'e' || c == 'E'

/-- Whether the text after a value cannot belong to the value. -/
abbrev Ends (rest : List Char) : Prop := Text.Stops isNumberPart rest

theorem Ends.stops_digits {rest : List Char} (h : Ends rest) : Text.Stops Char.isDigit rest := by
  intro c hc
  have := h c hc
  simp only [isNumberPart, Bool.or_eq_false_iff] at this
  exact this.1.1.1

theorem Ends.head?_ne {rest : List Char} (h : Ends rest) {c : Char} (hc : isNumberPart c = true) :
    rest.head? ≠ some c := by
  intro hr
  rw [h c hr] at hc
  exact absurd hc (by decide)

/-- Digits of a number below the limit are all taken in. -/
theorem absorb_eq {limit n : Nat} {cs : List Char} (h : Text.decimal n cs < limit) :
    absorb limit n cs = (Text.decimal n cs, []) := by
  induction cs generalizing n with
  | nil => rfl
  | cons c cs ih =>
    have hc : Text.decimal n (c :: cs) = Text.decimal (10 * n + Text.digitValue c) cs := rfl
    have := Text.le_decimal (10 * n + Text.digitValue c) cs
    rw [absorb, if_pos (by omega), ih (by omega), hc]

theorem absorb_toDigits {n : Nat} (h : n < wordLimit) :
    absorb wordLimit 0 (Nat.toDigits 10 n) = (n, []) := by
  rw [absorb_eq (by rw [Text.decimal_toDigits]; exact h), Text.decimal_toDigits]

namespace Reader

/-- Nothing after the integer digits means that the number is an integer. -/
theorem afterInteger_zero {negative : Bool} {n : Nat} {i : WordInt} {rest : List Char}
    (hi : WordInt.ofInt? (if negative then -(n : Int) else n) = some i)
    (hn : ¬ (negative = true ∧ n = 0)) (h : Ends rest) (ignored : Nat) :
    afterInteger negative n 0 ⟨rest, ignored⟩ = .ok (.integer i) ⟨rest, ignored⟩ := by
  have hp : rest.head? ≠ some '.' := h.head?_ne (by decide)
  have he : ¬ (rest.head? = some 'e' ∨ rest.head? = some 'E') :=
    not_or.mpr ⟨h.head?_ne (by decide), h.head?_ne (by decide)⟩
  simp only [afterInteger, peek?, bind, EStateM.bind, if_neg hp, if_neg he, if_true, hi, if_neg hn]
  rfl

/-- The digits of a natural number are read as an integer. -/
theorem number_toDigits {negative : Bool} {n : Nat} {i : WordInt} {rest : List Char}
    (hi : WordInt.ofInt? (if negative then -(n : Int) else n) = some i)
    (hn : ¬ (negative = true ∧ n = 0)) (hl : n < wordLimit) (h : Ends rest) (ignored : Nat) :
    number negative ⟨Nat.toDigits 10 n ++ rest, ignored⟩ = .ok (.integer i) ⟨rest, ignored⟩ := by
  obtain ⟨c, cs, hcs, hc, hzero⟩ := Text.exists_toDigits n
  have hds : ∀ d ∈ Nat.toDigits 10 n, d.isDigit = true := fun d => Text.isDigit_of_mem_toDigits
  by_cases h0 : c = '0'
  · -- Only zero starts with a zero, and no digit may follow it.
    obtain ⟨rfl, rfl⟩ := hzero h0
    have hafter := afterInteger_zero hi hn h ignored
    simp only [number, hcs, h0, List.singleton_append, bind, EStateM.bind, peek?, skip,
      List.head?_cons, List.tail_cons, if_true]
    cases rest with
    | nil => exact hafter
    | cons d ds =>
      simp only [List.head?_cons, h.stops_digits d rfl, Bool.false_eq_true, if_false]
      exact hafter
  · have hafter := afterInteger_zero hi hn h ignored
    have htake := Text.takeWhile_append hds h.stops_digits
    have hdrop := Text.dropWhile_append hds h.stops_digits
    rw [hcs, List.cons_append] at htake hdrop
    simp only [number, hcs, List.cons_append, bind, EStateM.bind, peek?, takeWhile,
      List.head?_cons, if_neg h0, hc, if_true, htake, hdrop]
    rw [← hcs, absorb_toDigits hl]
    exact hafter

end Reader

end ApiSurface.Json
