/-
The digits of the shortest decimal of a double.

No grid point that reads back as a positive rank is zero (`gridPoint?_ne_zero`), because zero lies
below the interval of the rank (`low_pos`). So the digits of a shortest decimal start with one that is
not zero (`Digits.exists_isBare`).
-/
import ApiSurface.Decimal.Shortest
import ApiSurface.Proofs.Text.Digits
import Mathlib.Data.List.DropRight

namespace ApiSurface

/-- Whether the digits of a decimal are some that have no zero at either end. -/
structure Digits.IsBare (d : Digits) (c : Char) (cs : List Char) : Prop where
  digits : d.digits = c :: cs
  first : c ≠ '0'
  isDigit : ∀ e ∈ c :: cs, e.isDigit = true
  last : (c :: cs).getLast? ≠ some '0'

theorem Digits.exists_isBare {n : Nat} (hn : n ≠ 0) (k : Int) :
    ∃ c cs, (ofScaled n k).IsBare c cs := by
  obtain ⟨c, cs, hcs, -, hzero⟩ := Text.exists_toDigits n
  have hc : c ≠ '0' := fun h => hn (hzero h).1
  have hkept : (c :: cs).rdropWhile (· == '0') <+: c :: cs :=
    List.rdropWhile_prefix _ _
  have hne : (c :: cs).rdropWhile (· == '0') ≠ [] := fun h =>
    hc (by simpa using List.rdropWhile_eq_nil_iff.mp h c List.mem_cons_self)
  have hlast := List.rdropWhile_last_not _ _ hne
  have hdigits : (ofScaled n k).digits = (c :: cs).rdropWhile (· == '0') := by
    rw [ofScaled, hcs]
    rfl
  obtain ⟨d, ds, hd⟩ := List.exists_cons_of_ne_nil hne
  simp only [hd] at hkept hlast hdigits
  obtain ⟨rfl, -⟩ := List.cons_prefix_cons.mp hkept
  refine ⟨d, ds, hdigits, hc, fun e he => ?_, ?_⟩
  · exact Text.isDigit_of_mem_toDigits (n := n) (hcs ▸ hkept.subset he)
  · rw [List.getLast?_eq_some_getLast (List.cons_ne_nil d ds)]
    simpa using hlast

namespace Double

theorem significand_pos {rank : Nat} (h : 0 < rank) : 0 < significand rank := by
  rw [significand]
  split
  · exact h
  · have : 0 < binade := by decide
    omega

theorem ratio_pos {rank : Nat} (h : 0 < rank) : 0 < (ratio rank).1 := by
  have := significand_pos h
  rw [ratio]
  split
  · exact this
  · exact Nat.mul_pos this (Nat.pow_pos (by decide))

theorem ratio_den_pos (rank : Nat) : 0 < (ratio rank).2 := by
  rw [ratio]
  split
  · exact Nat.pow_pos (by decide)
  · exact Nat.one_pos

/-- Zero lies below the interval of a positive rank. -/
theorem low_pos {rank : Nat} (h : 0 < rank) : 0 < (basin rank).low := by
  have hnum := ratio_pos h
  have hden := ratio_den_pos rank
  have hle : (ratio rank).2 ≤ max (ratio (rank - 1)).2 (max (ratio rank).2 (ratio (rank + 1)).2) :=
    Nat.le_trans (Nat.le_max_left _ _) (Nat.le_max_right _ _)
  have hmid := Nat.mul_pos hnum (Nat.div_pos hle hden)
  exact Nat.lt_of_lt_of_le hmid (Nat.le_add_left _ _)

theorem contains_zero {rank : Nat} (h : 0 < rank) {den : Nat} (hden : 0 < den) :
    (basin rank).contains 0 den = false := by
  have hlow := Nat.mul_pos (low_pos h) hden
  rw [Basin.contains, Nat.zero_mul]
  split
  · rw [decide_eq_false (Nat.not_le.mpr hlow), Bool.false_and]
  · simp

theorem scaled_zero (k : Int) : (scaled 0 k).1 = 0 ∧ 0 < (scaled 0 k).2 := by
  rw [scaled]
  split
  · exact ⟨rfl, Nat.pow_pos (by decide)⟩
  · exact ⟨Nat.zero_mul _, Nat.one_pos⟩

/-- The last point of a grid below a value, as the search works it out. -/
def gridFloor (rank : Nat) (k : Int) : Nat :=
  (ratio rank).1 * (scaled 1 k).2 / ((ratio rank).2 * (scaled 1 k).1)

/-- A point of a grid that is chosen is next to the value and lies in the interval of its rank. -/
theorem gridPoint?_spec {rank n : Nat} {k : Int} (h : gridPoint? rank k = some n) :
    (n = gridFloor rank k ∨ n = gridFloor rank k + 1) ∧
      (basin rank).contains (scaled n k).1 (scaled n k).2 = true := by
  have hfloor : (ratio rank).1 * (scaled 1 k).2 / ((ratio rank).2 * (scaled 1 k).1)
      = gridFloor rank k := rfl
  unfold gridPoint? at h
  dsimp only at h
  rw [hfloor] at h
  generalize gridFloor rank k = q at h ⊢
  cases hlow : (basin rank).contains (scaled q k).1 (scaled q k).2 <;>
    cases hhigh : (basin rank).contains (scaled (q + 1) k).1 (scaled (q + 1) k).2 <;>
    rw [hlow, hhigh] at h
  · cases h
  · cases h
    exact ⟨.inr rfl, hhigh⟩
  · cases h
    exact ⟨.inl rfl, hlow⟩
  · obtain rfl := Option.some.inj h
    split
    · exact ⟨.inl rfl, hlow⟩
    · exact ⟨.inr rfl, hhigh⟩

/-- No grid point that reads back as a positive rank is zero. -/
theorem gridPoint?_ne_zero {rank : Nat} (h : 0 < rank) {k : Int} {n : Nat}
    (hn : gridPoint? rank k = some n) : n ≠ 0 := by
  rintro rfl
  obtain ⟨hnum, hden⟩ := scaled_zero k
  have hzero := (gridPoint?_spec hn).2
  rw [hnum, contains_zero h hden] at hzero
  cases hzero

end Double

end ApiSurface
