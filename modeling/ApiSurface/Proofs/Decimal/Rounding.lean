/-
Rounding a fraction to the nearest double.

A number rounds to a rank if it lies between the two middles next to the value at the rank, and only
a rank with an even significand takes a middle itself (`Rounds`). No number rounds to two ranks
(`Rounds.eq`), and what `rankOfRatio` gives is the rank to which the fraction rounds
(`rounds_rankOfRatio`), so it depends on the fraction as a number alone (`rankOfRatio_eq`).
-/
import ApiSurface.Proofs.Decimal.Value

namespace ApiSurface.Double

/-- Half way from the value at a rank to the next one. -/
def middle (rank : Nat) : ℚ := (value rank + value (rank + 1)) / 2

/-- Whether a number is nearest to the value at a rank, a tie going to the even significand. -/
structure Rounds (rank : Nat) (x : ℚ) : Prop where
  low : ∀ r, r + 1 = rank → middle r ≤ x
  high : x ≤ middle rank
  tie : x = middle rank ∨ (∃ r, r + 1 = rank ∧ x = middle r) → rank % 2 = 0

theorem middle_strictMono : StrictMono middle := by
  intro a b hab
  have hvalue := value_strictMono hab
  have hnext := value_strictMono (Nat.succ_lt_succ hab)
  simp only [middle]
  linarith

theorem value_lt_middle (rank : Nat) : value rank < middle rank := by
  have := value_strictMono (Nat.lt_succ_self rank)
  rw [middle]
  linarith

theorem middle_lt_value (rank : Nat) : middle rank < value (rank + 1) := by
  have := value_strictMono (Nat.lt_succ_self rank)
  rw [middle]
  linarith

theorem middle_eq (rank : Nat) : middle rank = value rank + ulp rank / 2 := by
  rw [middle, value_succ]
  ring

theorem middle_eq_sub (rank : Nat) : middle rank = value (rank + 1) - ulp rank / 2 := by
  rw [middle, value_succ]
  ring

/-! ### What rounds to a rank -/

section Rounds

variable {rank r : Nat} {x y : ℚ}

theorem rounds_value (rank : Nat) : Rounds rank (value rank) where
  low r hr := by
    subst hr
    exact (middle_lt_value r).le
  high := (value_lt_middle rank).le
  tie := by
    rintro (h | ⟨r, rfl, h⟩)
    · exact absurd h (value_lt_middle rank).ne
    · exact absurd h (middle_lt_value r).ne'

/-- A number above a value and close to it rounds to it. -/
theorem rounds_of_value_le (h : value rank ≤ x) (hx : x < middle rank) : Rounds rank x := by
  refine ⟨fun r hr => ?_, hx.le, ?_⟩
  · subst hr
    exact (middle_lt_value r).le.trans h
  · rintro (heq | ⟨r, rfl, heq⟩)
    · exact absurd heq hx.ne
    · exact absurd heq ((middle_lt_value r).trans_le h).ne'

theorem rounds_of_le_value (h : x ≤ value (rank + 1)) (hx : middle rank < x) :
    Rounds (rank + 1) x := by
  refine ⟨fun r hr => ?_, h.trans (value_lt_middle _).le, ?_⟩
  · obtain rfl := Nat.succ.inj hr
    exact hx.le
  · rintro (heq | ⟨r, hr, heq⟩)
    · exact absurd heq (h.trans_lt (value_lt_middle _)).ne
    · obtain rfl := Nat.succ.inj hr
      exact absurd heq hx.ne'

/-- What lies between the value and a number that rounds to it rounds to it too. -/
theorem Rounds.of_le (h : Rounds rank y) (hx : value rank ≤ x) (hxy : x ≤ y) : Rounds rank x where
  low r hr := ((rounds_value rank).low r hr).trans hx
  high := hxy.trans h.high
  tie := by
    rintro (hmiddle | ⟨r, rfl, hmiddle⟩)
    · exact h.tie (.inl (le_antisymm h.high (hmiddle ▸ hxy)))
    · have := middle_lt_value r
      linarith

theorem Rounds.of_ge (h : Rounds rank y) (hx : x ≤ value rank) (hxy : y ≤ x) : Rounds rank x where
  low r hr := (h.low r hr).trans hxy
  high := hx.trans (rounds_value rank).high
  tie := by
    rintro (hmiddle | ⟨r, rfl, hmiddle⟩)
    · have := value_lt_middle rank
      linarith
    · exact h.tie (.inr ⟨r, rfl, le_antisymm (hmiddle ▸ hxy) (h.low r rfl)⟩)

/-- No number rounds to a rank and to a later one. -/
theorem Rounds.not_lt (h : Rounds rank x) (h' : Rounds r x) : ¬ rank < r := by
  intro hlt
  obtain ⟨s, rfl⟩ : ∃ s, r = s + 1 := ⟨r - 1, by omega⟩
  have hle : middle rank ≤ middle s := middle_strictMono.monotone (Nat.le_of_lt_succ hlt)
  -- the number is the middle between the two, which only one of them takes
  have heq : middle rank = middle s := le_antisymm hle ((h'.low s rfl).trans h.high)
  obtain rfl := middle_strictMono.injective heq
  have hx : x = middle rank := le_antisymm h.high (h'.low rank rfl)
  have heven := h.tie (.inl hx)
  have heven' := h'.tie (.inr ⟨rank, rfl, hx⟩)
  omega

theorem Rounds.eq (h : Rounds rank x) (h' : Rounds r x) : rank = r :=
  Nat.le_antisymm (Nat.le_of_not_lt (h'.not_lt h)) (Nat.le_of_not_lt (h.not_lt h'))

end Rounds

/-! ### Integers -/

/-- A rounded quotient is off by one half at most, and is even where it is off by that much. -/
theorem roundDiv_spec {num den : Nat} (h : 0 < den) :
    (roundDiv num den : ℚ) - 1 / 2 ≤ num / den ∧ (num : ℚ) / den ≤ roundDiv num den + 1 / 2 ∧
      ((num : ℚ) / den = roundDiv num den + 1 / 2 ∨ (num : ℚ) / den = roundDiv num den - 1 / 2 →
        roundDiv num den % 2 = 0) := by
  have hden : (0 : ℚ) < den := Nat.cast_pos.mpr h
  have hparts := Nat.div_add_mod num den
  have hmod := Nat.mod_lt num h
  rw [le_div_iff₀ hden, div_le_iff₀ hden, div_eq_iff hden.ne', div_eq_iff hden.ne']
  -- twice each bound, in whole numbers
  have hbounds : 2 * (roundDiv num den * den) ≤ 2 * num + den ∧
      2 * num ≤ 2 * (roundDiv num den * den) + den ∧
      (2 * num = 2 * (roundDiv num den * den) + den ∨
        2 * num + den = 2 * (roundDiv num den * den) → roundDiv num den % 2 = 0) := by
    have hnext : (num / den + 1) * den = den * (num / den) + den := by ring
    have hsame : num / den * den = den * (num / den) := by ring
    rw [roundDiv]
    split
    · rw [hsame]
      omega
    split
    · rw [hnext]
      omega
    split
    · rw [hsame]
      omega
    · rw [hnext]
      omega
  obtain ⟨hlow, hhigh, htie⟩ := hbounds
  have hlow' : (2 : ℚ) * (roundDiv num den * den) ≤ 2 * num + den := by exact_mod_cast hlow
  have hhigh' : (2 : ℚ) * num ≤ 2 * (roundDiv num den * den) + den := by exact_mod_cast hhigh
  refine ⟨by linarith, by linarith, fun h => htie (h.imp (fun h => ?_) fun h => ?_)⟩
  · have : (2 : ℚ) * num = 2 * (roundDiv num den * den) + den := by linarith
    exact_mod_cast this
  · have : (2 : ℚ) * num + den = 2 * (roundDiv num den * den) := by linarith
    exact_mod_cast this

/-- The binary logarithm of a positive number brackets it. -/
theorem log2_bounds {n : Nat} (h : n ≠ 0) :
    (2 : ℚ) ^ (n.log2 : Int) ≤ n ∧ (n : ℚ) < 2 ^ ((n.log2 : Int) + 1) := by
  constructor
  · rw [zpow_natCast]
    exact_mod_cast Nat.log2_self_le h
  · rw [← Nat.cast_succ, zpow_natCast]
    exact_mod_cast Nat.lt_log2_self

/-! ### The exponent of a fraction -/

/-- A fraction scaled by a power of two. -/
theorem scaled_eq {num den : Nat} (hden : 0 < den) (e : Int) :
    (if e < 0 then ((num * Nat.pow 2 (-e).toNat : Nat) : ℚ) / den
      else (num : ℚ) / (den * Nat.pow 2 e.toNat : Nat)) = num / den / 2 ^ e := by
  have hne : (den : ℚ) ≠ 0 := (Nat.cast_pos.mpr hden).ne'
  split
  · obtain ⟨k, rfl⟩ : ∃ k : Nat, e = -k := ⟨(-e).toNat, by omega⟩
    have hnat : (-(-(k : Int))).toNat = k := by omega
    rw [hnat, zpow_neg, zpow_natCast]
    show ((num * 2 ^ k : Nat) : ℚ) / den = _
    push_cast
    field_simp
  · obtain ⟨k, rfl⟩ : ∃ k : Nat, e = k := ⟨e.toNat, by omega⟩
    rw [Int.toNat_natCast, zpow_natCast]
    show (num : ℚ) / (den * 2 ^ k : Nat) = _
    push_cast
    rw [div_div]

/-- A fraction has less than 53 bits at an exponent if it does in whole numbers. -/
theorem below_iff {num den : Nat} (hden : 0 < den) (e : Int) :
    (if e < 0 then decide (num * Nat.pow 2 (-e).toNat < binade * den)
      else decide (num < binade * (den * Nat.pow 2 e.toNat))) = true
      ↔ (num : ℚ) / den < 2 ^ 52 * 2 ^ e := by
  have hbinade : (2 : ℚ) ^ 52 = binade := by norm_num [binade]
  have hpow : (0 : ℚ) < 2 ^ e := zpow_pos (by norm_num) e
  rw [← div_lt_iff₀ hpow, ← scaled_eq hden, hbinade]
  split
  · rw [div_lt_iff₀ (Nat.cast_pos.mpr hden), decide_eq_true_iff]
    exact_mod_cast Iff.rfl
  · have hscaled : 0 < den * Nat.pow 2 e.toNat := Nat.mul_pos hden (Nat.two_pow_pos _)
    rw [div_lt_iff₀ (Nat.cast_pos.mpr hscaled), decide_eq_true_iff]
    exact_mod_cast Iff.rfl

theorem scaleOf_eq {num den : Nat} (hden : 0 < den) :
    scaleOf num den = max (if (num : ℚ) / den < 2 ^ 52 * 2 ^ ((num.log2 : Int) - den.log2 - 52)
      then (num.log2 : Int) - den.log2 - 52 - 1 else num.log2 - den.log2 - 52) (-1074) := by
  rw [scaleOf]
  simp only [Int.ofNat_eq_natCast, below_iff hden]

/-- At its exponent a fraction has 53 bits, or fewer at the least exponent. -/
theorem scaleOf_spec {num den : Nat} (hnum : num ≠ 0) (hden : 0 < den) :
    -1074 ≤ scaleOf num den ∧ (num : ℚ) / den < 2 ^ 53 * 2 ^ scaleOf num den ∧
      ((2 : ℚ) ^ 52 * 2 ^ scaleOf num den ≤ num / den ∨ scaleOf num den = -1074) := by
  have hpos : (0 : ℚ) < den := Nat.cast_pos.mpr hden
  obtain ⟨hnumlow, hnumhigh⟩ := log2_bounds hnum
  obtain ⟨hdenlow, hdenhigh⟩ := log2_bounds hden.ne'
  have hscale := @scaleOf_eq num den hden
  generalize hfirst : (num.log2 : Int) - den.log2 - 52 = e at hscale
  -- the first guess is at most one too large
  have hhigh : (num : ℚ) / den < 2 ^ 53 * 2 ^ e := by
    rw [div_lt_iff₀ hpos]
    calc (num : ℚ) < 2 ^ ((num.log2 : Int) + 1) := hnumhigh
      _ = 2 ^ 53 * 2 ^ e * 2 ^ (den.log2 : Int) := by
        rw [← zpow_natCast, ← zpow_add₀ (by norm_num), ← zpow_add₀ (by norm_num)]
        congr 1
        push_cast
        omega
      _ ≤ 2 ^ 53 * 2 ^ e * den := mul_le_mul_of_nonneg_left hdenlow (by positivity)
  have hlow : (2 : ℚ) ^ 52 * 2 ^ (e - 1) ≤ num / den := by
    rw [le_div_iff₀ hpos]
    calc (2 : ℚ) ^ 52 * 2 ^ (e - 1) * den
        ≤ 2 ^ 52 * 2 ^ (e - 1) * 2 ^ ((den.log2 : Int) + 1) :=
          mul_le_mul_of_nonneg_left hdenhigh.le (by positivity)
      _ = 2 ^ (num.log2 : Int) := by
        rw [← zpow_natCast, ← zpow_add₀ (by norm_num), ← zpow_add₀ (by norm_num)]
        congr 1
        push_cast
        omega
      _ ≤ num := hnumlow
  have hmono {a b : Int} (h : a ≤ b) : (2 : ℚ) ^ 53 * 2 ^ a ≤ 2 ^ 53 * 2 ^ b :=
    mul_le_mul_of_nonneg_left (zpow_le_zpow_right₀ (by norm_num) h) (by positivity)
  rw [hscale]
  by_cases hbelow : (num : ℚ) / den < 2 ^ 52 * 2 ^ e
  · rw [if_pos hbelow]
    have hnext : (2 : ℚ) ^ 52 * 2 ^ e = 2 ^ 53 * 2 ^ (e - 1) := by
      rw [zpow_sub_one₀ (by norm_num)]
      ring
    refine ⟨le_max_right _ _, hbelow.trans_le (hnext.trans_le (hmono (le_max_left _ _))), ?_⟩
    obtain h | h := le_total (e - 1) (-1074)
    · exact .inr (max_eq_right h)
    · rw [max_eq_left h]
      exact .inl hlow
  · rw [if_neg hbelow]
    refine ⟨le_max_right _ _, hhigh.trans_le (hmono (le_max_left _ _)), ?_⟩
    obtain h | h := le_total e (-1074)
    · exact .inr (max_eq_right h)
    · rw [max_eq_left h]
      exact .inl (not_lt.mp hbelow)

/-! ### The rank of a fraction -/

section Parts

variable {x : ℚ} {e : Int} {m : Nat}

/-- A number that is close to a significand and has no more than 53 bits leaves it no more than the
next power of two. -/
theorem le_of_near (hhigh : x < 2 ^ 53 * 2 ^ e) (above : (m - 1 / 2) * 2 ^ e ≤ x) :
    m ≤ 2 * binade := by
  have hpow : (0 : ℚ) < 2 ^ e := zpow_pos (by norm_num) e
  have hlt : (m : ℚ) - 1 / 2 < (2 * binade : Nat) := by
    rw [two_mul_binade]
    exact lt_of_mul_lt_mul_right (above.trans_lt hhigh) hpow.le
  have hlt' : (m : ℚ) < (2 * binade + 1 : Nat) := by
    push_cast at hlt ⊢
    linarith
  exact Nat.le_of_lt_succ (by exact_mod_cast hlt')

theorem ge_of_near (hlow : (2 : ℚ) ^ 52 * 2 ^ e ≤ x) (below : x ≤ (m + 1 / 2) * 2 ^ e) :
    binade ≤ m := by
  have hpow : (0 : ℚ) < 2 ^ e := zpow_pos (by norm_num) e
  have hbinade : (2 : ℚ) ^ 52 = binade := by norm_num [binade]
  have hlt : (binade : ℚ) ≤ m + 1 / 2 := by
    rw [← hbinade]
    exact le_of_mul_le_mul_right (hlow.trans below) hpow
  have hlt' : (binade : ℚ) < (m + 1 : Nat) := by
    push_cast
    linarith
  exact Nat.le_of_lt_succ (by exact_mod_cast hlt')

/-- The middle after a significand is half a unit away. -/
theorem middle_parts (he : -1074 ≤ e) (hge : binade ≤ m ∨ e = -1074) (hlt : m < 2 * binade) :
    middle ((e + 1074).toNat * binade + m) = (m + 1 / 2) * 2 ^ e := by
  have hnext := value_parts he (hge.imp_left Nat.le_succ_of_le) hlt
  rw [Nat.succ_eq_add_one, ← Nat.add_assoc] at hnext
  rw [middle, value_parts he hge hlt.le, hnext]
  push_cast
  ring

/-- The next value is one unit away, unless the significand is the next power of two. -/
theorem middle_parts_or (he : -1074 ≤ e) (hge : binade ≤ m ∨ e = -1074) (hle : m ≤ 2 * binade)
    (hhigh : x < 2 ^ 53 * 2 ^ e) : middle ((e + 1074).toNat * binade + m) = (m + 1 / 2) * 2 ^ e ∨
      x < middle ((e + 1074).toNat * binade + m) := by
  obtain hlt | rfl := Nat.lt_or_eq_of_le hle
  · exact .inl (middle_parts he hge hlt)
  · have hvalue := value_parts he hge hle
    rw [two_mul_binade] at hvalue
    rw [← hvalue] at hhigh
    exact .inr (hhigh.trans (value_lt_middle _))

/-- The value before is one unit away, unless the significand is the least of 53 bits. -/
theorem middle_before_or (he : -1074 ≤ e) (hge : binade ≤ m ∨ e = -1074) (hle : m ≤ 2 * binade)
    (hlow : (2 : ℚ) ^ 52 * 2 ^ e ≤ x ∨ e = -1074) {r : Nat}
    (hr : r + 1 = (e + 1074).toNat * binade + m) :
    middle r = (m - 1 / 2) * 2 ^ e ∨ middle r < x := by
  by_cases hshort : binade < m ∨ e = -1074
  · obtain ⟨k, rfl⟩ : ∃ k, m = k + 1 := by
      refine ⟨m - 1, ?_⟩
      obtain hlt | rfl := hshort
      · omega
      · simp only [Int.reduceNeg, Int.add_left_neg, Int.toNat_zero, Nat.zero_mul] at hr
        omega
    obtain rfl : r = (e + 1074).toNat * binade + k := by omega
    refine .inl ?_
    rw [middle_parts he (hshort.imp_left Nat.le_of_lt_succ) (Nat.lt_of_succ_le hle)]
    push_cast
    ring
  · obtain rfl : m = binade := by omega
    have hbinade : (2 : ℚ) ^ 52 = binade := by norm_num [binade]
    have hx : value (r + 1) ≤ x := by
      rw [hr, value_parts he hge hle, ← hbinade]
      exact hlow.resolve_right fun h => hshort (.inr h)
    exact .inr ((middle_lt_value r).trans_le hx)

/-- A number near a significand at an exponent rounds to its rank. -/
theorem rounds_parts (he : -1074 ≤ e) (hhigh : x < 2 ^ 53 * 2 ^ e)
    (hlow : (2 : ℚ) ^ 52 * 2 ^ e ≤ x ∨ e = -1074) (above : (m - 1 / 2) * 2 ^ e ≤ x)
    (below : x ≤ (m + 1 / 2) * 2 ^ e)
    (tie : x = (m + 1 / 2) * 2 ^ e ∨ x = (m - 1 / 2) * 2 ^ e → m % 2 = 0) :
    Rounds ((e + 1074).toNat * binade + m) x := by
  have hle := le_of_near hhigh above
  have hge := hlow.imp_left fun hlow => ge_of_near hlow below
  have hparity : ((e + 1074).toNat * binade + m) % 2 = m % 2 := by
    have heven : binade % 2 = 0 := by decide
    rw [Nat.add_mod, Nat.mul_mod, heven]
    simp
  -- a middle is half a unit away, or on the far side of the number and then no tie
  have hmiddle := middle_parts_or he hge hle hhigh
  have hbefore (r : Nat) (hr : r + 1 = (e + 1074).toNat * binade + m) :=
    middle_before_or he hge hle hlow hr
  exact {
    low := fun r hr => (hbefore r hr).elim (fun h => h ▸ above) le_of_lt
    high := hmiddle.elim (fun h => h ▸ below) le_of_lt
    tie := by
      rw [hparity]
      rintro (h | ⟨r, hr, h⟩)
      · obtain heq | hlt := hmiddle
        · exact tie (.inl (h.trans heq))
        · exact absurd h hlt.ne
      · obtain heq | hlt := hbefore r hr
        · exact tie (.inr (h.trans heq))
        · exact absurd h hlt.ne' }

end Parts

/-- The rank of a fraction is the one to which the fraction rounds. -/
theorem rounds_rankOfRatio (num : Nat) {den : Nat} (hden : 0 < den) :
    Rounds (rankOfRatio num den) (num / den) := by
  by_cases hnum : num = 0
  · subst hnum
    rw [rankOfRatio, if_pos rfl, Nat.cast_zero, zero_div, ← value_zero]
    exact rounds_value 0
  · obtain ⟨he, hhigh, hlow⟩ := scaleOf_spec hnum hden
    rw [rankOfRatio, if_neg hnum]
    generalize scaleOf num den = e at he hhigh hlow
    have hpow : (0 : ℚ) < 2 ^ e := zpow_pos (by norm_num) e
    have hround : ∃ m, (if e < 0 then roundDiv (num * Nat.pow 2 (-e).toNat) den
        else roundDiv num (den * Nat.pow 2 e.toNat)) = m ∧
        (m : ℚ) - 1 / 2 ≤ num / den / 2 ^ e ∧ (num : ℚ) / den / 2 ^ e ≤ m + 1 / 2 ∧
        ((num : ℚ) / den / 2 ^ e = m + 1 / 2 ∨ (num : ℚ) / den / 2 ^ e = m - 1 / 2 → m % 2 = 0) := by
      refine ⟨_, rfl, ?_⟩
      rw [← scaled_eq hden]
      split
      · exact roundDiv_spec hden
      · exact roundDiv_spec (Nat.mul_pos hden (Nat.two_pow_pos _))
    obtain ⟨m, hm, above, below, tie⟩ := hround
    rw [le_div_iff₀ hpow] at above
    rw [div_le_iff₀ hpow] at below
    rw [div_eq_iff hpow.ne', div_eq_iff hpow.ne'] at tie
    show Rounds ((e + 1074).toNat * binade + _) _
    rw [hm]
    exact rounds_parts he hhigh hlow above below tie

/-- The rank of a fraction is the only one to which the fraction rounds. -/
theorem rankOfRatio_eq {num den rank : Nat} (hden : 0 < den) (h : Rounds rank (num / den)) :
    rankOfRatio num den = rank :=
  (rounds_rankOfRatio num hden).eq h

end ApiSurface.Double
