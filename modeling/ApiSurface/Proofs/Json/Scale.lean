/-
Scaling a word by a power of ten.

The digits of a number are scaled in rounded arithmetic. Where the word is a double and the power of
ten is one too, only the last step rounds, and the result is the nearest double (`scale?_eq`). A word
that is scaled down always gives some double (`exists_scale?`).
-/
import ApiSurface.Json.Number
import ApiSurface.Proofs.Decimal.Arithmetic

namespace ApiSurface.Json

open Double (value Rounds)

/-- A word is finite as a double. -/
theorem exists_ofRatio?_word {n : Nat} (hn : n < wordLimit) :
    ∃ x, Double.ofRatio? false n 1 = some x ∧ Rounds x.rank n := by
  have hcast : (n : ℚ) / (1 : Nat) = n := by rw [Nat.cast_one, div_one]
  have hle : (n : ℚ) ≤ value (Double.limit - 1) := by
    refine le_trans ?_ (Double.ten_pow_le_largest (k := 20) (by decide))
    have hlt : n ≤ 10 ^ 20 := hn.le.trans (by decide)
    exact_mod_cast hlt
  rw [← hcast] at hle
  obtain ⟨x, hx, hrounds⟩ := @Double.exists_ofRatio? false n 1 Nat.one_pos hle
  exact ⟨x, hx, hcast ▸ hrounds⟩

/-- A word that is a double, scaled by a power of ten that is one, is the nearest double. -/
theorem scale?_eq {n rank : Nat} {e : Int} (hn : n < wordLimit) (exact : ∃ r, value r = n)
    (he : e.natAbs ≤ 22) (h : Rounds rank (n * 10 ^ e)) (finite : rank < Double.limit) :
    scale? n e = some ⟨false, rank, finite⟩ := by
  obtain ⟨r, hr⟩ := exact
  obtain ⟨x, hx, hrounds⟩ := exists_ofRatio?_word hn
  have hvalue : value x.rank = n := by
    rw [← hr] at hrounds ⊢
    rw [hrounds.eq (Double.rounds_value r)]
  rw [scale?, hx, Option.bind_some]
  split
  · obtain ⟨k, rfl⟩ : ∃ k : Nat, e = -k := ⟨e.natAbs, by omega⟩
    have hk : (-(-(k : Int))).toNat = k := by omega
    obtain ⟨p, hp, hten⟩ := Double.exists_powerOfTen?_exact (k := k) (by omega)
    have hpos : 0 < p.rank := by
      refine Nat.pos_of_ne_zero fun hzero => ?_
      rw [hzero, Double.value_zero] at hten
      exact absurd hten (pow_pos (by norm_num) k).ne
    rw [zpow_neg, zpow_natCast, ← div_eq_mul_inv, ← hvalue, ← hten] at h
    rw [hk, divide, if_pos (show k ≤ largestPower from (by omega : k ≤ 22).trans (by decide)), hp,
      Option.bind_some, Double.over?_eq hpos h finite]
  · obtain ⟨k, rfl⟩ : ∃ k : Nat, e = k := ⟨e.natAbs, by omega⟩
    obtain ⟨p, hp, hten⟩ := Double.exists_powerOfTen?_exact (k := k) (by omega)
    rw [zpow_natCast, ← hvalue, ← hten] at h
    rw [Int.toNat_natCast, if_pos (show k ≤ largestPower from (by omega : k ≤ 22).trans (by decide)),
      hp, Option.bind_some, Double.times?_eq h finite]

theorem eq_zero_of_rounds {rank : Nat} {x : ℚ} (h : Rounds rank x) (hx : x = 0) : rank = 0 := by
  rw [hx, ← Double.value_zero] at h
  exact h.eq (Double.rounds_value 0)

/-- A quotient by a power of ten is finite, however many steps it takes, and that of zero is zero. -/
theorem exists_divide (fuel : Nat) (x : Double) (k : Nat) :
    ∃ z, divide fuel x k = some z ∧ (x.rank = 0 → z.rank = 0) := by
  have hstep (x : Double) {k : Nat} (hk : k ≤ largestPower) :
      ∃ z, (Double.powerOfTen? k).bind x.over? = some z ∧ (x.rank = 0 → z.rank = 0) := by
    obtain ⟨p, hp, hrounds⟩ := Double.exists_powerOfTen? hk
    obtain ⟨z, hz, hquotient⟩ :=
      @Double.exists_over? x p (Double.one_le_value_of_rounds hrounds)
    refine ⟨z, by rw [hp, Option.bind_some, hz], fun hzero => eq_zero_of_rounds hquotient ?_⟩
    rw [hzero, Double.value_zero, zero_div]
  induction fuel generalizing x k with
  | zero => exact ⟨x, rfl, id⟩
  | succ fuel ih =>
    rw [divide]
    split
    · rename_i hk
      exact hstep x hk
    split
    · exact ⟨x, rfl, id⟩
    · obtain ⟨z, hz, -⟩ := hstep x (Nat.le_refl largestPower)
      obtain ⟨w, hw, -⟩ := ih z (k - largestPower)
      rename_i hrank
      exact ⟨w, by rw [hz, Option.bind_some, hw], fun hzero => absurd hzero hrank⟩

/-- A word that is not scaled up is finite, and zero stays zero. -/
theorem exists_scale? {n : Nat} {e : Int} (hn : n < wordLimit) (he : e ≤ 0) :
    ∃ z, scale? n e = some z ∧ (n = 0 → z.rank = 0) := by
  obtain ⟨x, hx, hrounds⟩ := exists_ofRatio?_word hn
  have hzero (h : n = 0) : x.rank = 0 := eq_zero_of_rounds hrounds (by rw [h, Nat.cast_zero])
  rw [scale?, hx, Option.bind_some]
  split
  · obtain ⟨z, hz, hrank⟩ := exists_divide 4 x (-e).toNat
    exact ⟨z, hz, hrank ∘ hzero⟩
  · obtain rfl : e = 0 := by omega
    obtain ⟨p, hp, hten⟩ := Double.exists_powerOfTen?_exact (k := 0) (by decide)
    have hproduct : value x.rank * value p.rank = value x.rank := by rw [hten, pow_zero, mul_one]
    have hrounds := hproduct ▸ Double.rounds_value x.rank
    rw [Int.toNat_zero, if_pos (Nat.zero_le _), hp, Option.bind_some,
      Double.times?_eq hrounds x.finite]
    exact ⟨_, rfl, hzero⟩

end ApiSurface.Json
