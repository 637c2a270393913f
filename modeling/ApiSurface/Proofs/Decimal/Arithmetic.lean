/-
Arithmetic on doubles.

A fraction, a product and a quotient are rounded once (`ofRatio?_eq`, `times?_eq`, `over?_eq`), so a
result that some double has exactly is that double. Powers of ten up to the twenty-second are such
results (`exists_powerOfTen?_exact`), and up to the three hundred and eighth they are finite.
-/
import ApiSurface.Proofs.Decimal.Grid

namespace ApiSurface.Double

/-! ### Where a rank lies -/

section Bounds

variable {rank r : Nat} {x : ℚ}

/-- What is no larger than a value rounds to no larger a rank. -/
theorem Rounds.le_of_le (h : Rounds rank x) (hx : x ≤ value r) : rank ≤ r := by
  by_contra hlt
  obtain ⟨s, rfl⟩ : ∃ s, rank = s + 1 := ⟨rank - 1, by omega⟩
  have hlow := h.low s rfl
  have hmiddle := value_lt_middle s
  have hvalue := value_strictMono.monotone (show r ≤ s by omega)
  linarith

theorem Rounds.ge_of_ge (h : Rounds rank x) (hx : value r ≤ x) : r ≤ rank := by
  by_contra hlt
  have hhigh := h.high
  have hmiddle := middle_lt_value rank
  have hvalue := value_strictMono.monotone (show rank + 1 ≤ r by omega)
  linarith

end Bounds

/-- The largest double. -/
theorem value_largest : value (limit - 1) = ((2 ^ 53 - 1) * 2 ^ 971 : Nat) := by
  have hratio : ratio (limit - 1) = ((2 ^ 53 - 1) * 2 ^ 971, 1) := by decide +kernel
  rw [value_eq_ratio, hratio, Nat.cast_one, div_one]

theorem ten_pow_le_largest {k : Nat} (h : k ≤ 308) : (10 : ℚ) ^ k ≤ value (limit - 1) := by
  have hpow := Nat.pow_le_pow_right (n := 10) (by decide) h
  rw [value_largest, ← Nat.cast_ofNat, ← Nat.cast_pow, Nat.cast_le]
  refine hpow.trans ?_
  decide +kernel

theorem ulp_le_of_finite {rank : Nat} (finite : rank < limit) : ulp rank ≤ 2 ^ 971 := by
  rw [ulp, ← zpow_natCast]
  refine zpow_le_zpow_right₀ (by norm_num) ?_
  have hdiv : rank / binade < 2047 := Nat.div_lt_of_lt_mul (Nat.mul_comm 2047 binade ▸ finite)
  rw [exponent]
  split
  · decide
  · simp only [Int.ofNat_eq_natCast]
    omega

/-- What rounds to a finite double is not far above the largest one. -/
theorem Rounds.lt_of_finite {rank : Nat} {x : ℚ} (h : Rounds rank x) (finite : rank < limit)
    {j : Nat} (hj : 342 ≤ j) : x < 10 ^ j := by
  have hpow : (2 : ℚ) ^ 53 * 2 ^ 971 ≤ 10 ^ j := by
    rw [← pow_add]
    exact two_pow_le_ten_pow_rat (by omega)
  calc x ≤ middle rank := h.high
    _ < value (rank + 1) := middle_lt_value rank
    _ ≤ 2 ^ 53 * ulp rank := value_le_ulp_pred rank
    _ ≤ 2 ^ 53 * 2 ^ 971 := mul_le_mul_of_nonneg_left (ulp_le_of_finite finite) (by positivity)
    _ ≤ 10 ^ j := hpow

/-- What is far below the least double rounds to zero. -/
theorem rounds_zero {x : ℚ} (hx : 0 ≤ x) {j : Nat} (hj : 359 ≤ j) (h : x * 10 ^ j < 1) :
    Rounds 0 x := by
  obtain ⟨i, hi, hulp⟩ : ∃ i ≤ 1074, ulp 0 * 2 ^ i = 1 := by
    have hexponent : exponent 0 = -((1074 : Nat) : Int) := by decide
    refine ⟨1074, le_rfl, ?_⟩
    rw [ulp, hexponent, zpow_neg, zpow_natCast]
    exact inv_mul_cancel₀ (pow_pos (by norm_num) _).ne'
  have hmiddle : middle 0 * 2 ^ (i + 1) = 1 := by
    rw [middle_eq, value_zero, pow_succ]
    linarith
  refine rounds_of_value_le (by rwa [value_zero]) (lt_of_not_ge fun hle => ?_)
  have hpow := two_pow_le_ten_pow_rat (show i + 1 ≤ 3 * j by omega)
  have hmul : middle 0 * 2 ^ (i + 1) ≤ x * 10 ^ j := mul_le_mul hle hpow (by positivity) hx
  rw [hmiddle] at hmul
  exact absurd h (not_lt.mpr hmul)

/-! ### Operations -/

section Operations

variable {negative : Bool} {num den rank : Nat} {x y : Double}

/-- A fraction is the finite double that it rounds to. -/
theorem ofRatio?_eq (hden : 0 < den) (h : Rounds rank (num / den)) (finite : rank < limit) :
    ofRatio? negative num den = some ⟨negative, rank, finite⟩ := by
  obtain rfl := rankOfRatio_eq hden h
  exact dif_pos finite

/-- A fraction that is no larger than a double is a finite double. -/
theorem exists_ofRatio? (hden : 0 < den) (h : (num : ℚ) / den ≤ value (limit - 1)) :
    ∃ z, ofRatio? negative num den = some z ∧ Rounds z.rank (num / den) := by
  have hrounds := rounds_rankOfRatio num hden
  have hle := hrounds.le_of_le h
  have hlimit : 0 < limit := by decide
  have finite : rankOfRatio num den < limit := by omega
  exact ⟨_, ofRatio?_eq hden hrounds finite, hrounds⟩

theorem times_ratio (x y : Double) : 0 < (ratio x.rank).2 * (ratio y.rank).2 ∧
    (((ratio x.rank).1 * (ratio y.rank).1 : Nat) : ℚ) / ((ratio x.rank).2 * (ratio y.rank).2 : Nat)
      = value x.rank * value y.rank := by
  refine ⟨Nat.mul_pos (ratio_den_pos _) (ratio_den_pos _), ?_⟩
  rw [value_eq_ratio, value_eq_ratio, Nat.cast_mul, Nat.cast_mul, div_mul_div_comm]

/-- A product is the finite double that the exact product rounds to. -/
theorem times?_eq (h : Rounds rank (value x.rank * value y.rank)) (finite : rank < limit) :
    x.times? y = some ⟨false, rank, finite⟩ := by
  obtain ⟨hden, hvalue⟩ := times_ratio x y
  rw [← hvalue] at h
  exact ofRatio?_eq hden h finite

theorem over_ratio (x : Double) (hy : 0 < y.rank) : 0 < (ratio x.rank).2 * (ratio y.rank).1 ∧
    (((ratio x.rank).1 * (ratio y.rank).2 : Nat) : ℚ) / ((ratio x.rank).2 * (ratio y.rank).1 : Nat)
      = value x.rank / value y.rank := by
  refine ⟨Nat.mul_pos (ratio_den_pos _) (ratio_pos hy), ?_⟩
  rw [value_eq_ratio, value_eq_ratio, Nat.cast_mul, Nat.cast_mul, div_div_div_eq]

/-- A quotient is the finite double that the exact quotient rounds to. -/
theorem over?_eq (hy : 0 < y.rank) (h : Rounds rank (value x.rank / value y.rank))
    (finite : rank < limit) : x.over? y = some ⟨false, rank, finite⟩ := by
  obtain ⟨hden, hvalue⟩ := over_ratio x hy
  rw [← hvalue] at h
  exact ofRatio?_eq hden h finite

/-- A quotient by one or more is finite. -/
theorem exists_over? (hone : 1 ≤ value y.rank) :
    ∃ z, x.over? y = some z ∧ Rounds z.rank (value x.rank / value y.rank) := by
  have hy : 0 < y.rank := by
    refine Nat.pos_of_ne_zero fun hzero => ?_
    rw [hzero, value_zero] at hone
    linarith
  obtain ⟨hden, hvalue⟩ := over_ratio x hy
  have hle : value x.rank / value y.rank ≤ value (limit - 1) :=
    (div_le_self (value_nonneg _) hone).trans
      (value_strictMono.monotone (Nat.le_sub_one_of_lt x.finite))
  rw [← hvalue] at hle ⊢
  exact exists_ofRatio? hden hle

end Operations

/-! ### Integers and powers of ten -/

/-- An integer of 53 bits, with zeros after them in base two, is the value of some rank. -/
theorem exists_value_nat {m : Nat} (hm : m < 2 * binade) (j : Nat) :
    ∃ rank, value rank = (m * 2 ^ j : Nat) := by
  obtain ⟨rank, hrank⟩ := exists_value hm (e := j) (by omega)
  refine ⟨rank, ?_⟩
  rw [hrank, zpow_natCast]
  push_cast
  rfl

/-- Powers of ten are finite as far as they are one factor. -/
theorem exists_powerOfTen? {k : Nat} (h : k ≤ 308) :
    ∃ p, powerOfTen? k = some p ∧ Rounds p.rank (10 ^ k) := by
  have hcast : ((10 ^ k : Nat) : ℚ) / (1 : Nat) = 10 ^ k := by
    rw [Nat.cast_one, div_one]
    push_cast
    rfl
  obtain ⟨p, hp, hrounds⟩ := @exists_ofRatio? false (10 ^ k) 1 Nat.one_pos
    (hcast ▸ ten_pow_le_largest h)
  exact ⟨p, hp, hcast ▸ hrounds⟩

/-- A power of ten is one or more. -/
theorem one_le_value_of_rounds {rank k : Nat} (h : Rounds rank (10 ^ k)) : 1 ≤ value rank := by
  obtain ⟨one, hone⟩ := exists_value_nat (m := 1) (by decide) 0
  have hvalue : value one = 1 := by
    rw [hone]
    norm_num
  rw [← hvalue]
  refine value_strictMono.monotone (h.ge_of_ge ?_)
  rw [hvalue]
  exact one_le_pow₀ (by norm_num)

/-- The first powers of ten are exact. -/
theorem exists_powerOfTen?_exact {k : Nat} (h : k ≤ 22) :
    ∃ p, powerOfTen? k = some p ∧ value p.rank = 10 ^ k := by
  obtain ⟨p, hp, hrounds⟩ := exists_powerOfTen? (h.trans (by decide))
  have hfive : 5 ^ k < 2 * binade :=
    Nat.lt_of_le_of_lt (Nat.pow_le_pow_right (by decide) h) (by decide)
  obtain ⟨rank, hrank⟩ := exists_value_nat hfive k
  have hten : value rank = 10 ^ k := by
    rw [hrank, ← Nat.mul_pow]
    push_cast
    rfl
  refine ⟨p, hp, ?_⟩
  rw [← hten] at hrounds ⊢
  rw [hrounds.eq (rounds_value rank)]

end ApiSurface.Double
