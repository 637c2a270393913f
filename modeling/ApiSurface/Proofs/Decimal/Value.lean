/-
The values of the doubles as rational numbers.

The value at a rank is a significand times a power of two, and every significand of at most 53 bits
has a rank at every exponent (`value_parts`). So the values grow with the rank, by one unit in the
last place at each step (`value_succ`), and how large that unit is against the value is all that
rounding and printing need to know of them (`value_lt_ulp`, `value_le_ulp_pred`, `ulp_le_value`).
-/
import ApiSurface.Decimal.Double
import Mathlib

namespace ApiSurface.Double

/-- The value of a unit in the last place at a rank. -/
def ulp (rank : Nat) : ℚ := (2 : ℚ) ^ exponent rank

/-- The value at a rank. -/
def value (rank : Nat) : ℚ := significand rank * ulp rank

theorem two_pow_le_ten_pow {i j : Nat} (h : i ≤ 3 * j) : 2 ^ i ≤ 10 ^ j := by
  refine (Nat.pow_le_pow_right (by decide) h).trans ?_
  rw [Nat.pow_mul]
  exact Nat.pow_le_pow_left (by decide) j

theorem two_pow_le_ten_pow_rat {i j : Nat} (h : i ≤ 3 * j) : (2 : ℚ) ^ i ≤ 10 ^ j := by
  exact_mod_cast two_pow_le_ten_pow h

theorem ulp_pos (rank : Nat) : 0 < ulp rank := zpow_pos (by norm_num) _

/-! ### Ranks and their parts -/

theorem binade_pos : 0 < binade := by decide

theorem exponent_ge (rank : Nat) : -1074 ≤ exponent rank := by
  rw [exponent]
  split
  · exact le_refl _
  · have hone : 1 ≤ rank / binade := (Nat.one_le_div_iff binade_pos).mpr (by omega)
    simp only [Int.ofNat_eq_natCast]
    omega

theorem significand_lt (rank : Nat) : significand rank < 2 * binade := by
  have := Nat.mod_lt rank binade_pos
  rw [significand]
  split <;> omega

/-- Above the least exponent the significand has 53 bits. -/
theorem significand_ge (rank : Nat) : binade ≤ significand rank ∨ exponent rank = -1074 := by
  rw [significand, exponent]
  split
  · exact .inr rfl
  · exact .inl (Nat.le_add_right _ _)

/-- A rank counts the significands before its own. -/
theorem rank_eq (rank : Nat) :
    rank = (exponent rank + 1074).toNat * binade + significand rank := by
  rw [significand, exponent]
  split
  · simp
  · have hone : 1 ≤ rank / binade := (Nat.one_le_div_iff binade_pos).mpr (by omega)
    have hdiv := Nat.div_add_mod rank binade
    have hexponent : (Int.ofNat (rank / binade) - 1075 + 1074).toNat = rank / binade - 1 := by
      simp only [Int.ofNat_eq_natCast]
      omega
    rw [hexponent, Nat.sub_mul, Nat.one_mul, Nat.mul_comm]
    have := Nat.mul_le_mul_left binade hone
    omega

/-- The value of a significand at an exponent; one that is too large by one is the next power. -/
theorem value_parts {e : Int} {m : Nat} (he : -1074 ≤ e) (hm : binade ≤ m ∨ e = -1074)
    (hle : m ≤ 2 * binade) : value ((e + 1074).toNat * binade + m) = m * (2 : ℚ) ^ e := by
  obtain ⟨j, rfl⟩ : ∃ j : Nat, e = j - 1074 := ⟨(e + 1074).toNat, by omega⟩
  have hj : ((j : Int) - 1074 + 1074).toNat = j := by omega
  rw [hj]
  obtain hlt | rfl := Nat.lt_or_eq_of_le hle
  · by_cases hsmall : m < binade
    · -- below the first binade, where the exponent is the least one
      obtain rfl : j = 0 := by omega
      have hsignificand : significand (0 * binade + m) = m := by
        rw [Nat.zero_mul, Nat.zero_add, significand, if_pos hsmall]
      have hexponent : exponent (0 * binade + m) = -1074 := by
        rw [Nat.zero_mul, Nat.zero_add, exponent, if_pos hsmall]
      rw [value, ulp, hsignificand, hexponent]
      norm_num
    · have hrank : ¬ j * binade + m < binade := by omega
      have hdiv : (j * binade + m) / binade = j + 1 := by
        rw [Nat.add_comm, Nat.add_mul_div_right _ _ binade_pos,
          Nat.div_eq_of_lt_le (k := 1) (by omega) (by omega), Nat.add_comm]
      have hmod : (j * binade + m) % binade = m - binade := by
        rw [Nat.add_comm, Nat.add_mul_mod_self_right, Nat.mod_eq_sub_mod (by omega),
          Nat.mod_eq_of_lt (by omega)]
      have hsignificand : significand (j * binade + m) = m := by
        rw [significand, if_neg hrank, hmod]
        omega
      have hexponent : exponent (j * binade + m) = j - 1074 := by
        rw [exponent, if_neg hrank, hdiv]
        simp only [Int.ofNat_eq_natCast]
        omega
      rw [value, ulp, hsignificand, hexponent]
  · have hrank : ¬ j * binade + 2 * binade < binade := by
      have := binade_pos
      omega
    have hdiv : (j * binade + 2 * binade) / binade = j + 2 := by
      rw [← Nat.add_mul, Nat.mul_div_cancel _ binade_pos]
    have hmod : (j * binade + 2 * binade) % binade = 0 := by
      rw [← Nat.add_mul, Nat.mul_mod_left]
    have hsignificand : significand (j * binade + 2 * binade) = binade := by
      rw [significand, if_neg hrank, hmod, Nat.add_zero]
    have hexponent : exponent (j * binade + 2 * binade) = (j - 1074) + 1 := by
      rw [exponent, if_neg hrank, hdiv]
      simp only [Int.ofNat_eq_natCast]
      omega
    rw [value, ulp, hsignificand, hexponent, zpow_add_one₀ (by norm_num)]
    push_cast
    ring

/-- Every number of at most 53 bits has a rank at every exponent. -/
theorem exists_value {m : Nat} (hm : m < 2 * binade) {e : Int} (he : -1074 ≤ e) :
    ∃ rank, value rank = m * (2 : ℚ) ^ e := by
  obtain ⟨j, rfl⟩ : ∃ j : Nat, e = j - 1074 := ⟨(e + 1074).toNat, by omega⟩
  induction j generalizing m with
  | zero => exact ⟨_, value_parts he (.inr rfl) hm.le⟩
  | succ j ih =>
    by_cases hlarge : binade ≤ m
    · exact ⟨_, value_parts he (.inl hlarge) hm.le⟩
    · -- a short significand has room for one more bit
      obtain ⟨rank, hrank⟩ := ih (m := 2 * m) (by omega) (by omega)
      refine ⟨rank, hrank.trans ?_⟩
      have hexponent : ((j + 1 : Nat) : Int) - 1074 = (j - 1074 : Int) + 1 := by
        push_cast
        ring
      rw [hexponent, zpow_add_one₀ (by norm_num)]
      push_cast
      ring

/-! ### Steps from one value to the next -/

theorem value_succ (rank : Nat) : value (rank + 1) = value rank + ulp rank := by
  have hnext : rank + 1 = (exponent rank + 1074).toNat * binade + (significand rank + 1) := by
    rw [← Nat.add_assoc, ← rank_eq]
  have hparts := value_parts (m := significand rank + 1) (exponent_ge rank)
    ((significand_ge rank).imp (fun h => by omega) id) (significand_lt rank)
  rw [hnext, hparts, value, ulp]
  push_cast
  ring

theorem value_zero : value 0 = 0 := by
  rw [value, significand, if_pos binade_pos, Nat.cast_zero, zero_mul]

theorem value_strictMono : StrictMono value :=
  strictMono_nat_of_lt_succ fun rank => by
    rw [value_succ]
    exact lt_add_of_pos_right _ (ulp_pos rank)

theorem value_nonneg (rank : Nat) : 0 ≤ value rank :=
  mul_nonneg (Nat.cast_nonneg _) (ulp_pos rank).le

theorem value_pos {rank : Nat} (h : 0 < rank) : 0 < value rank := by
  rw [← value_zero]
  exact value_strictMono h

theorem ulp_mono : Monotone ulp := by
  intro a b hab
  refine zpow_le_zpow_right₀ (by norm_num) ?_
  rw [exponent, exponent]
  have hdiv : a / binade ≤ b / binade := Nat.div_le_div_right hab
  split
  · exact exponent_ge b
  · rw [if_neg (by omega)]
    simp only [Int.ofNat_eq_natCast]
    omega

/-! ### A unit against the value -/

/-- Doubled, the binade is `2 ^ 53`. -/
theorem two_mul_binade : ((2 * binade : Nat) : ℚ) = 2 ^ 53 := by
  norm_num [binade]

theorem value_lt_ulp (rank : Nat) : value rank < 2 ^ 53 * ulp rank := by
  rw [← two_mul_binade]
  exact mul_lt_mul_of_pos_right (Nat.cast_lt.mpr (significand_lt rank)) (ulp_pos rank)

/-- The step that leads to a value is no smaller against it. -/
theorem value_le_ulp_pred (rank : Nat) : value (rank + 1) ≤ 2 ^ 53 * ulp rank := by
  have hle : ((significand rank + 1 : Nat) : ℚ) ≤ (2 * binade : Nat) :=
    Nat.cast_le.mpr (significand_lt rank)
  calc value (rank + 1)
      = (significand rank + 1 : Nat) * ulp rank := by rw [value_succ, value]; push_cast; ring
    _ ≤ (2 * binade : Nat) * ulp rank := mul_le_mul_of_nonneg_right hle (ulp_pos rank).le
    _ = 2 ^ 53 * ulp rank := by rw [two_mul_binade]

/-- From the first binade on a value has 53 bits. -/
theorem ulp_le_value {rank : Nat} (h : binade ≤ rank) : 2 ^ 52 * ulp rank ≤ value rank := by
  have hsignificand : binade ≤ significand rank := by
    rw [significand, if_neg (by omega)]
    exact Nat.le_add_right _ _
  have hle : (2 : ℚ) ^ 52 ≤ significand rank := by
    have hbinade : (2 : ℚ) ^ 52 = binade := by norm_num [binade]
    rw [hbinade]
    exact Nat.cast_le.mpr hsignificand
  exact mul_le_mul_of_nonneg_right hle (ulp_pos rank).le

/-! ### Fractions -/

/-- The fraction of a rank is its value. -/
theorem value_eq_ratio (rank : Nat) : value rank = (ratio rank).1 / (ratio rank).2 := by
  rw [value, ulp, ratio]
  split
  · rename_i he
    obtain ⟨k, hk⟩ : ∃ k : Nat, exponent rank = -k := ⟨(-exponent rank).toNat, by omega⟩
    have hnat : (-exponent rank).toNat = k := by omega
    rw [hnat, hk, zpow_neg, zpow_natCast]
    show _ = _ / ((2 ^ k : Nat) : ℚ)
    push_cast
    rw [div_eq_mul_inv]
  · rename_i he
    obtain ⟨k, hk⟩ : ∃ k : Nat, exponent rank = k := ⟨(exponent rank).toNat, by omega⟩
    have hnat : (exponent rank).toNat = k := by omega
    rw [hnat, hk, zpow_natCast]
    show _ = ((significand rank * 2 ^ k : Nat) : ℚ) / ((1 : Nat) : ℚ)
    push_cast
    rw [div_one]

/-- Neighbouring ranks have significands of different parity. -/
theorem significand_mod_two (rank : Nat) : significand rank % 2 = rank % 2 := by
  have heven : binade % 2 = 0 := by decide
  have hrank := rank_eq rank
  have hmul : (exponent rank + 1074).toNat * binade % 2 = 0 := by
    rw [Nat.mul_mod, heven, Nat.mul_zero, Nat.zero_mod]
  omega

end ApiSurface.Double
