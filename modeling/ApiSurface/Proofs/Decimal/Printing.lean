/-
The shortest decimal of a double.

The search for the shortest decimal of a rank always ends with a hit, at seventeen digits at the
latest, so its result rounds to the rank (`exists_shortest`). And a decimal of fifteen digits at most
that rounds to a rank of 53 bits is the one that the search finds (`shortest_eq`), because no second
point of a grid that fine lies in the interval of the rank.
-/
import ApiSurface.Proofs.Decimal.Grid

namespace ApiSurface

/-! ### Digits of a scaled number -/

/-- A zero at the end of a number is the same as a larger scale. -/
theorem Digits.ofScaled_mul_ten {n : Nat} (hn : 0 < n) (k : Int) :
    ofScaled (n * 10) k = ofScaled n (k + 1) := by
  have hdigits : Nat.toDigits 10 (n * 10) = Nat.toDigits 10 n ++ ['0'] := by
    rw [Nat.toDigits_of_base_le (by decide) (by omega), Nat.mul_div_cancel _ (by decide),
      Nat.mul_mod_left]
    rfl
  rw [ofScaled, ofScaled, hdigits]
  simp only [List.reverse_append, List.reverse_cons, List.reverse_nil, List.nil_append,
    List.singleton_append, List.dropWhile_cons, beq_self_eq_true, if_true, List.length_append,
    List.length_singleton, Int.ofNat_eq_natCast]
  congr 1
  push_cast
  ring

theorem Digits.ofScaled_mul_pow {n : Nat} (hn : 0 < n) (j : Nat) (k : Int) :
    ofScaled (n * 10 ^ j) k = ofScaled n (k + j) := by
  induction j generalizing k with
  | zero => simp
  | succ j ih =>
    have hpos : 0 < n * 10 ^ j := Nat.mul_pos hn (Nat.pow_pos (by decide))
    rw [Nat.pow_succ, ← Nat.mul_assoc, ofScaled_mul_ten hpos, ih]
    congr 1
    push_cast
    ring

/-- The digits depend on the scaled number only. -/
theorem Digits.ofScaled_eq {n m : Nat} {k l : Int} (hn : 0 < n) (hm : 0 < m)
    (h : (n : ℚ) * 10 ^ k = m * 10 ^ l) : ofScaled n k = ofScaled m l := by
  wlog hkl : k ≤ l generalizing n m k l
  · exact (this hm hn h.symm (by omega)).symm
  obtain ⟨j, rfl⟩ : ∃ j : Nat, l = k + j := ⟨(l - k).toNat, by omega⟩
  have hnm : n = m * 10 ^ j := by
    rw [Double.ten_zpow_add, ← mul_assoc] at h
    have hcancel := mul_right_cancel₀ (Double.ten_zpow_pos k).ne' h
    exact_mod_cast hcancel
  rw [hnm, ofScaled_mul_pow hm]

namespace Double

/-! ### The place of the point -/

theorem leadingZeros_spec {num den fuel : Nat} (h : den ≤ num * 10 ^ fuel) :
    den ≤ num * 10 ^ leadingZeros num den fuel ∧
      ∀ i < leadingZeros num den fuel, num * 10 ^ i < den := by
  induction fuel generalizing num with
  | zero => exact ⟨h, by simp [leadingZeros]⟩
  | succ fuel ih =>
    rw [leadingZeros]
    split
    · rename_i hle
      exact ⟨by simpa using hle, by simp⟩
    · rename_i hlt
      rw [Nat.pow_succ', ← Nat.mul_assoc] at h
      obtain ⟨hlast, hbefore⟩ := ih h
      rw [Nat.pow_succ', ← Nat.mul_assoc]
      refine ⟨hlast, fun i hi => ?_⟩
      cases i with
      | zero => omega
      | succ i =>
        rw [Nat.pow_succ', ← Nat.mul_assoc]
        exact hbefore i (by omega)

/-- The digits of a positive number are as many as the powers of ten around it say. -/
theorem toDigits_bounds {n : Nat} (h : 0 < n) :
    10 ^ ((Nat.toDigits 10 n).length - 1) ≤ n ∧ n < 10 ^ (Nat.toDigits 10 n).length := by
  have hpos : 0 < (Nat.toDigits 10 n).length := Nat.length_toDigits_pos
  refine ⟨?_, (Nat.length_toDigits_le_iff (by decide) hpos).mp (Nat.le_refl _)⟩
  obtain hone | hmore : (Nat.toDigits 10 n).length = 1 ∨ 1 < (Nat.toDigits 10 n).length := by omega
  · rw [hone]
    exact h
  · refine Nat.le_of_not_lt fun hlt => ?_
    have := (Nat.length_toDigits_le_iff (by decide) (by omega)).mpr hlt
    omega

/-- The place of the point is the power of ten next to a fraction. -/
theorem decimalPoint_spec {num den : Nat} (hden : 0 < den) (h : den ≤ num * 10 ^ 400) :
    (10 : ℚ) ^ (decimalPoint num den - 1) ≤ num / den ∧
      (num : ℚ) / den < 10 ^ decimalPoint num den := by
  have hden' : (0 : ℚ) < den := Nat.cast_pos.mpr hden
  rw [decimalPoint, le_div_iff₀ hden', div_lt_iff₀ hden']
  split
  · rename_i hle
    -- the whole part has as many digits as stand before the point
    have hpos : 0 < num / den := Nat.div_pos hle hden
    obtain ⟨hlow, hhigh⟩ := toDigits_bounds hpos
    have hlength : 0 < (Nat.toDigits 10 (num / den)).length := Nat.length_toDigits_pos
    generalize (Nat.toDigits 10 (num / den)).length = l at hlow hhigh hlength ⊢
    have hexponent : Int.ofNat l - 1 = ((l - 1 : Nat) : Int) := by
      simp only [Int.ofNat_eq_natCast]
      omega
    have hlow' : 10 ^ (l - 1) * den ≤ num :=
      (Nat.mul_le_mul_right den hlow).trans (Nat.div_mul_le_self num den)
    have hhigh' : num < 10 ^ l * den := (Nat.div_lt_iff_lt_mul hden).mp hhigh
    rw [hexponent, Int.ofNat_eq_natCast, zpow_natCast, zpow_natCast]
    exact ⟨by exact_mod_cast hlow', by exact_mod_cast hhigh'⟩
  · rename_i hlt
    -- the fraction is below one, and the zeros after the point are counted
    obtain ⟨hlast, hbefore⟩ := leadingZeros_spec h
    generalize leadingZeros num den 400 = j at hlast hbefore ⊢
    obtain ⟨i, rfl⟩ : ∃ i, j = i + 1 := by
      refine ⟨j - 1, ?_⟩
      obtain rfl | hj := Nat.eq_zero_or_pos j
      · omega
      · omega
    have hfirst : 1 - Int.ofNat (i + 1) - 1 = -((i + 1 : Nat) : Int) := by
      simp only [Int.ofNat_eq_natCast]
      omega
    have hsecond : 1 - Int.ofNat (i + 1) = -(i : Int) := by
      simp only [Int.ofNat_eq_natCast]
      omega
    have hlow : ((den : ℚ)) ≤ num * 10 ^ (i + 1) := by exact_mod_cast hlast
    have hhigh : (num : ℚ) * 10 ^ i < den := by exact_mod_cast hbefore i (Nat.lt_succ_self i)
    rw [hfirst, hsecond, zpow_neg, zpow_neg, zpow_natCast, zpow_natCast, inv_mul_le_iff₀ (by positivity),
      lt_inv_mul_iff₀ (by positivity)]
    exact ⟨by linarith, by linarith⟩

/-- The place of the point of a positive value. -/
theorem decimalPoint_ratio {rank : Nat} (h : 0 < rank) :
    (10 : ℚ) ^ (decimalPoint (ratio rank).1 (ratio rank).2 - 1) ≤ value rank ∧
      value rank < 10 ^ decimalPoint (ratio rank).1 (ratio rank).2 := by
  rw [value_eq_ratio]
  refine decimalPoint_spec (ratio_den_pos rank) ?_
  have hpos := ratio_pos h
  have hden (j : Nat) (hj : 358 ≤ j) : (ratio rank).2 ≤ 10 ^ j := by
    have hexponent := exponent_ge rank
    rw [ratio]
    split
    · exact two_pow_le_ten_pow (by omega)
    · exact Nat.pow_pos (by decide)
  exact (hden 400 (by decide)).trans (Nat.le_mul_of_pos_left _ hpos)

/-! ### The search -/

/-- The search finds the first grid with a hit. -/
theorem shortestFrom_spec {rank : Nat} {point : Int} {count fuel c : Nat} (hc : count ≤ c)
    (hfuel : c < count + fuel) (h : ∃ n, gridPoint? rank (point - c) = some n) :
    ∃ d n, d ≤ c ∧ gridPoint? rank (point - d) = some n ∧
      shortestFrom rank point count fuel = Digits.ofScaled n (point - d) := by
  induction fuel generalizing count with
  | zero => omega
  | succ fuel ih =>
    rw [shortestFrom]
    cases hn : gridPoint? rank (point - Int.ofNat count) with
    | some n => exact ⟨count, n, hc, hn, rfl⟩
    | none =>
      have hlt : count < c := by
        refine Nat.lt_of_le_of_ne hc ?_
        rintro rfl
        obtain ⟨n, h⟩ := h
        rw [Int.ofNat_eq_natCast, h] at hn
        cases hn
      exact ih hlt (by omega)

/-- The grid of seventeen digits has a hit, because it is finer than the values on both sides. -/
theorem exists_gridPoint?_seventeen {rank : Nat} (h : 0 < rank) {point : Int}
    (hpoint : (10 : ℚ) ^ (point - 1) ≤ value rank) :
    ∃ n, gridPoint? rank (point - 17) = some n := by
  obtain ⟨below, rfl⟩ : ∃ r, rank = r + 1 := ⟨rank - 1, by omega⟩
  have hvalue := value_pos h
  have hgrid : (10 : ℚ) ^ (point - 1) = 10 ^ 16 * 10 ^ (point - 17) := by
    rw [← ten_zpow_add]
    congr 1
    omega
  have hbelow := value_le_ulp_pred below
  have habove := value_lt_ulp (below + 1)
  have hmiddle := middle_eq_sub below
  have hmiddle' := middle_eq (below + 1)
  obtain ⟨hlow, hhigh⟩ := gridFloor_spec (below + 1) (point - 17)
  have hnext : ((gridFloor (below + 1) (point - 17) + 1 : Nat) : ℚ) * 10 ^ (point - 17)
      = gridFloor (below + 1) (point - 17) * 10 ^ (point - 17) + 10 ^ (point - 17) := by
    push_cast
    ring
  -- the nearer one of the two points next to the value
  obtain hnear | hfar := le_total (value (below + 1)
    - gridFloor (below + 1) (point - 17) * 10 ^ (point - 17)) (10 ^ (point - 17) / 2)
  · exact exists_gridPoint? h (rounds_of_le_value hlow (by linarith))
  · exact exists_gridPoint? h (rounds_of_value_le hhigh.le (by linarith))

theorem shortest_eq_from (rank : Nat) :
    shortest rank = shortestFrom rank (decimalPoint (ratio rank).1 (ratio rank).2) 1 17 :=
  rfl

/-- A point of a grid that is chosen has no more digits than the grid. -/
theorem gridPoint?_le {rank n : Nat} {point : Int} {d : Nat} (hhigh : value rank < 10 ^ point)
    (hn : gridPoint? rank (point - d) = some n) : n ≤ 10 ^ d := by
  have hlow := (gridFloor_spec rank (point - d)).1
  have hpow : (10 : ℚ) ^ point = 10 ^ d * 10 ^ (point - (d : Int)) := by
    rw [← ten_zpow_add]
    congr 1
    omega
  have hfloor : gridFloor rank (point - d) < 10 ^ d := by
    have hlt : (gridFloor rank (point - d) : ℚ) < (10 ^ d : Nat) := by
      refine lt_of_mul_lt_mul_right ?_ (ten_zpow_pos (point - d)).le
      push_cast
      linarith
    exact_mod_cast hlt
  obtain h | h := (gridPoint?_spec hn).1 <;> omega

/-- The shortest decimal of a rank rounds to the rank and has seventeen digits at most. -/
theorem exists_shortest {rank : Nat} (h : 0 < rank) :
    ∃ (n : Nat) (k : Int), 0 < n ∧ n ≤ 10 ^ 17 ∧ Rounds rank (n * 10 ^ k) ∧
      shortest rank = Digits.ofScaled n k := by
  obtain ⟨hlow, hhigh⟩ := decimalPoint_ratio h
  have hgrid := exists_gridPoint?_seventeen h hlow
  rw [shortest_eq_from]
  generalize decimalPoint (ratio rank).1 (ratio rank).2 = point at hgrid hhigh
  have hfirst : (1 : Nat) ≤ 17 := by decide
  obtain ⟨d, n, hd, hn, hshortest⟩ :=
    shortestFrom_spec hfirst (by decide : 17 < 1 + 17) hgrid
  exact ⟨n, point - d, Nat.pos_of_ne_zero (gridPoint?_ne_zero h hn),
    (gridPoint?_le hhigh hn).trans (Nat.pow_le_pow_right (by decide) hd), rounds_gridPoint? h hn,
    hshortest⟩

/-- Two points of a grid that is coarser than a unit in the last place round to different ranks. -/
theorem eq_of_rounds {rank a b : Nat} {k : Int} (hgrid : ulp rank < 10 ^ k)
    (ha : Rounds rank (a * 10 ^ k)) (hb : Rounds rank (b * 10 ^ k)) : a = b := by
  have hpow := ten_zpow_pos k
  have hle {a b : Nat} (ha : Rounds rank (a * 10 ^ k)) (hb : Rounds rank (b * 10 ^ k)) : a ≤ b := by
    have hwidth : (a : ℚ) * 10 ^ k < b * 10 ^ k + 10 ^ k := by
      have hhigh := ha.high
      rw [middle_eq] at hhigh
      obtain rfl | ⟨below, rfl⟩ : rank = 0 ∨ ∃ r, rank = r + 1 := by
        rcases rank with _ | r
        · exact .inl rfl
        · exact .inr ⟨r, rfl⟩
      · have hnonneg : (0 : ℚ) ≤ b * 10 ^ k := by positivity
        have hulp := ulp_pos 0
        rw [value_zero] at hhigh
        linarith
      · have hlow := hb.low below rfl
        have hulp := ulp_mono (Nat.le_succ below)
        rw [middle_eq_sub] at hlow
        linarith
    have hnext : (a : ℚ) < (b + 1 : Nat) := by
      refine lt_of_mul_lt_mul_right ?_ hpow.le
      push_cast
      linarith
    exact Nat.le_of_lt_succ (by exact_mod_cast hnext)
  exact Nat.le_antisymm (hle ha hb) (hle hb ha)

/-- A decimal of fifteen digits is the shortest one of the rank of 53 bits to which it rounds. -/
theorem shortest_eq {rank n : Nat} {k : Int} (hrank : binade ≤ rank) (hn : 0 < n)
    (hlt : n < 10 ^ 15) (h : Rounds rank (n * 10 ^ k)) : shortest rank = Digits.ofScaled n k := by
  have hpos : 0 < rank := Nat.lt_of_lt_of_le binade_pos hrank
  have hulp := ulp_le_value hrank
  obtain ⟨hlow, hhigh⟩ := decimalPoint_ratio hpos
  rw [shortest_eq_from]
  generalize decimalPoint (ratio rank).1 (ratio rank).2 = point at hlow hhigh
  -- the decimal lies on the grid of fifteen digits, although the value may have one digit more
  have hk : point - 15 ≤ k := by
    by_contra hk
    obtain ⟨below, rfl⟩ : ∃ r, rank = r + 1 := ⟨rank - 1, by omega⟩
    have hpow : (10 : ℚ) ^ 15 * 10 ^ k ≤ value (below + 1) := by
      rw [← ten_zpow_add]
      exact (zpow_le_zpow_right₀ (by norm_num) (by omega)).trans hlow
    have hdecimal : (n : ℚ) * 10 ^ k ≤ (10 ^ 15 - 1) * 10 ^ k := by
      refine mul_le_mul_of_nonneg_right ?_ (ten_zpow_pos k).le
      have hle : ((n + 1 : Nat) : ℚ) ≤ (10 ^ 15 : Nat) := Nat.cast_le.mpr hlt
      push_cast at hle
      linarith
    have hround := h.low below rfl
    have hmono := ulp_mono (Nat.le_succ below)
    have hvalue := value_pos hpos
    rw [middle_eq_sub] at hround
    linarith
  obtain ⟨j, rfl⟩ : ∃ j : Nat, k = point - 15 + j := ⟨(k - (point - 15)).toNat, by omega⟩
  have hgrid : (n : ℚ) * 10 ^ (point - 15 + (j : Int)) = (n * 10 ^ j : Nat) * 10 ^ (point - 15) := by
    rw [ten_zpow_add]
    push_cast
    ring
  have hfine : ulp rank < 10 ^ (point - 15) := by
    have hscale : (10 : ℚ) ^ point = 10 ^ 15 * 10 ^ (point - 15) := by
      rw [← ten_zpow_add]
      congr 1
      omega
    have hpow := ten_zpow_pos (point - 15)
    linarith
  rw [hgrid] at h
  have hfirst : (1 : Nat) ≤ 15 := by decide
  obtain ⟨d, m, hd, hm, hshortest⟩ := shortestFrom_spec hfirst (by decide : 15 < 1 + 17)
    (exists_gridPoint? hpos h)
  have hfound :
      (m : ℚ) * 10 ^ (point - (d : Int)) = (m * 10 ^ (15 - d) : Nat) * 10 ^ (point - 15) := by
    have hplace : point - (d : Int) = point - 15 + ((15 - d : Nat) : Int) := by omega
    rw [hplace, ten_zpow_add]
    push_cast
    ring
  have hrounds := rounds_gridPoint? hpos hm
  rw [hfound] at hrounds
  rw [hshortest]
  refine Digits.ofScaled_eq (Nat.pos_of_ne_zero (gridPoint?_ne_zero hpos hm)) hn ?_
  rw [hgrid, hfound, eq_of_rounds hfine hrounds h]

end Double

end ApiSurface
