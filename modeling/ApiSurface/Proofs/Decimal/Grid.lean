/-
The decimal grids around a value.

The interval that the search for a shortest decimal tests is that of the numbers which round to the
rank (`contains_iff`). A grid has a hit as soon as it has any point that rounds to the rank
(`exists_gridPoint?`), because the two points next to the value are at least as near to it. Seventeen
digits always suffice (`exists_gridPoint?_seventeen`).
-/
import ApiSurface.Proofs.Decimal.Rounding
import ApiSurface.Proofs.Decimal.Shortest

namespace ApiSurface.Double

/-! ### The interval of a rank -/

theorem ratio_den (rank : Nat) : ∃ k, (ratio rank).2 = 2 ^ k := by
  rw [ratio]
  split
  · exact ⟨_, rfl⟩
  · exact ⟨0, rfl⟩

/-- The common denominator of three ranks is a multiple of each of theirs. -/
theorem dvd_den (a b c : Nat) :
    (ratio a).2 ∣ max (ratio a).2 (max (ratio b).2 (ratio c).2) ∧
      (ratio b).2 ∣ max (ratio a).2 (max (ratio b).2 (ratio c).2) ∧
      (ratio c).2 ∣ max (ratio a).2 (max (ratio b).2 (ratio c).2) := by
  obtain ⟨i, hi⟩ := ratio_den a
  obtain ⟨j, hj⟩ := ratio_den b
  obtain ⟨k, hk⟩ := ratio_den c
  have hmono : Monotone fun n : Nat => 2 ^ n := fun _ _ h => Nat.pow_le_pow_right (by decide) h
  have hmax : max (2 ^ i) (max (2 ^ j) (2 ^ k)) = 2 ^ max i (max j k) := by
    rw [← hmono.map_max, ← hmono.map_max]
  rw [hi, hj, hk, hmax]
  refine ⟨pow_dvd_pow 2 ?_, pow_dvd_pow 2 ?_, pow_dvd_pow 2 ?_⟩ <;> simp

/-- A fraction over a common denominator. -/
theorem value_eq_over {rank d : Nat} (hdvd : (ratio rank).2 ∣ d) (hd : 0 < d) :
    value rank = ((ratio rank).1 * (d / (ratio rank).2) : Nat) / (d : ℚ) := by
  have hden : ((ratio rank).2 : ℚ) ≠ 0 := (Nat.cast_pos.mpr (ratio_den_pos rank)).ne'
  have hd' : (d : ℚ) ≠ 0 := (Nat.cast_pos.mpr hd).ne'
  rw [value_eq_ratio, Nat.cast_mul, Nat.cast_div hdvd hden]
  field_simp

/-- The bounds of the interval are the middles next to the value. -/
theorem basin_bounds (rank : Nat) : 0 < (basin (rank + 1)).den ∧
    ((basin (rank + 1)).low : ℚ) / (basin (rank + 1)).den = middle rank ∧
    ((basin (rank + 1)).high : ℚ) / (basin (rank + 1)).den = middle (rank + 1) := by
  obtain ⟨ha, hb, hc⟩ := dvd_den rank (rank + 1) (rank + 2)
  have hpos : 0 < max (ratio rank).2 (max (ratio (rank + 1)).2 (ratio (rank + 2)).2) :=
    Nat.lt_of_lt_of_le (ratio_den_pos rank) (Nat.le_max_left _ _)
  have hbefore := value_eq_over ha hpos
  have hvalue := value_eq_over hb hpos
  have hafter := value_eq_over hc hpos
  rw [basin, middle, middle, hbefore, hvalue, hafter]
  dsimp only
  rw [Nat.add_sub_cancel]
  generalize max (ratio rank).2 (max (ratio (rank + 1)).2 (ratio (rank + 2)).2) = d at hpos ⊢
  have hd : (d : ℚ) ≠ 0 := (Nat.cast_pos.mpr hpos).ne'
  refine ⟨by omega, ?_, ?_⟩
  · push_cast
    field_simp
  · push_cast
    field_simp

/-- The numbers that round to a rank, by its parity. -/
theorem rounds_succ_iff {rank : Nat} {x : ℚ} : Rounds (rank + 1) x ↔
    if (rank + 1) % 2 = 0 then middle rank ≤ x ∧ x ≤ middle (rank + 1)
    else middle rank < x ∧ x < middle (rank + 1) := by
  split
  · rename_i heven
    constructor
    · intro h
      exact ⟨h.low rank rfl, h.high⟩
    · rintro ⟨hlow, hhigh⟩
      exact ⟨fun r hr => by obtain rfl := Nat.succ.inj hr; exact hlow, hhigh, fun _ => heven⟩
  · rename_i hodd
    constructor
    · intro h
      refine ⟨lt_of_le_of_ne (h.low rank rfl) fun heq => ?_, lt_of_le_of_ne h.high fun heq => ?_⟩
      · exact hodd (h.tie (.inr ⟨rank, rfl, heq.symm⟩))
      · exact hodd (h.tie (.inl heq))
    · rintro ⟨hlow, hhigh⟩
      refine ⟨fun r hr => by obtain rfl := Nat.succ.inj hr; exact hlow.le, hhigh.le, ?_⟩
      rintro (heq | ⟨r, hr, heq⟩)
      · exact absurd heq hhigh.ne
      · obtain rfl := Nat.succ.inj hr
        exact absurd heq hlow.ne'

/-- The interval of a positive rank is that of the numbers that round to it. -/
theorem contains_iff {rank : Nat} (h : 0 < rank) {num den : Nat} (hden : 0 < den) :
    (basin rank).contains num den = true ↔ Rounds rank (num / den) := by
  obtain ⟨rank, rfl⟩ : ∃ r, rank = r + 1 := ⟨rank - 1, by omega⟩
  obtain ⟨hpos, hlow, hhigh⟩ := basin_bounds rank
  have hclosed : (basin (rank + 1)).closed = ((rank + 1) % 2 == 0) := by
    rw [← significand_mod_two]
    rfl
  rw [rounds_succ_iff, ← hlow, ← hhigh, Basin.contains, hclosed]
  generalize basin (rank + 1) = i at hpos
  have hpos' : (0 : ℚ) < i.den := Nat.cast_pos.mpr hpos
  have hden' : (0 : ℚ) < den := Nat.cast_pos.mpr hden
  rw [div_le_div_iff₀ hpos' hden', div_le_div_iff₀ hden' hpos', div_lt_div_iff₀ hpos' hden',
    div_lt_div_iff₀ hden' hpos']
  by_cases hparity : (rank + 1) % 2 = 0
  · simp only [hparity, beq_self_eq_true, if_true, Bool.and_eq_true, decide_eq_true_eq]
    exact_mod_cast Iff.rfl
  · have hne : ((rank + 1) % 2 == 0) = false := by simpa using hparity
    simp only [hne, hparity, Bool.false_eq_true, if_false, Bool.and_eq_true, decide_eq_true_eq]
    exact_mod_cast Iff.rfl

/-! ### The points of a grid -/

theorem scaled_value (n : Nat) (k : Int) :
    0 < (scaled n k).2 ∧ ((scaled n k).1 : ℚ) / (scaled n k).2 = n * 10 ^ k := by
  rw [scaled]
  split
  · obtain ⟨j, rfl⟩ : ∃ j : Nat, k = -j := ⟨(-k).toNat, by omega⟩
    have hnat : (-(-(j : Int))).toNat = j := by omega
    rw [hnat, zpow_neg, zpow_natCast]
    refine ⟨Nat.pow_pos (by decide), ?_⟩
    show (n : ℚ) / ((10 ^ j : Nat) : ℚ) = _
    push_cast
    rw [div_eq_mul_inv]
  · obtain ⟨j, rfl⟩ : ∃ j : Nat, k = j := ⟨k.toNat, by omega⟩
    rw [Int.toNat_natCast, zpow_natCast]
    refine ⟨Nat.one_pos, ?_⟩
    show ((n * 10 ^ j : Nat) : ℚ) / ((1 : Nat) : ℚ) = _
    push_cast
    rw [div_one]

theorem ten_zpow_pos (k : Int) : (0 : ℚ) < 10 ^ k := zpow_pos (by norm_num) k

theorem ten_zpow_add (k : Int) (j : Nat) : (10 : ℚ) ^ (k + j) = 10 ^ j * 10 ^ k := by
  rw [zpow_add₀ (by norm_num), zpow_natCast, mul_comm]

theorem gridFloor_spec (rank : Nat) (k : Int) :
    (gridFloor rank k : ℚ) * 10 ^ k ≤ value rank ∧
      value rank < (gridFloor rank k + 1 : Nat) * 10 ^ k := by
  have hden : ((ratio rank).2 : ℚ) ≠ 0 := (Nat.cast_pos.mpr (ratio_den_pos rank)).ne'
  obtain ⟨hunit, hunitvalue⟩ := scaled_value 1 k
  have hunit' : ((scaled 1 k).2 : ℚ) ≠ 0 := (Nat.cast_pos.mpr hunit).ne'
  have hpow := ten_zpow_pos k
  have hquotient : (((ratio rank).1 * (scaled 1 k).2 : Nat) : ℚ)
      / ((ratio rank).2 * (scaled 1 k).1 : Nat) = value rank / 10 ^ k := by
    rw [Nat.cast_one, one_mul] at hunitvalue
    rw [value_eq_ratio, ← hunitvalue]
    push_cast
    rw [div_div_div_eq]
  have hfloor : gridFloor rank k = ⌊value rank / (10 : ℚ) ^ k⌋₊ := by
    rw [← hquotient, Nat.floor_div_eq_div]
    rfl
  have hnonneg : 0 ≤ value rank / 10 ^ k := div_nonneg (value_nonneg rank) hpow.le
  rw [hfloor, ← le_div_iff₀ hpow, ← div_lt_iff₀ hpow]
  refine ⟨Nat.floor_le hnonneg, ?_⟩
  push_cast
  exact Nat.lt_floor_add_one _

/-- A point of a grid that is chosen is next to the value, and rounds to the rank. -/
theorem rounds_gridPoint? {rank n : Nat} {k : Int} (h : 0 < rank) (hn : gridPoint? rank k = some n) :
    Rounds rank (n * 10 ^ k) := by
  obtain ⟨hden, hvalue⟩ := scaled_value n k
  rw [← hvalue]
  exact (contains_iff h hden).mp (gridPoint?_spec hn).2

/-- A grid with a point next to the value that rounds to the rank has a hit. -/
theorem exists_gridPoint?_of_floor {rank n : Nat} {k : Int} (h : 0 < rank)
    (hn : n = gridFloor rank k ∨ n = gridFloor rank k + 1) (hrounds : Rounds rank (n * 10 ^ k)) :
    ∃ m, gridPoint? rank k = some m := by
  obtain ⟨hden, hvalue⟩ := scaled_value n k
  rw [← hvalue, ← contains_iff h hden] at hrounds
  have hfloor : (ratio rank).1 * (scaled 1 k).2 / ((ratio rank).2 * (scaled 1 k).1)
      = gridFloor rank k := rfl
  unfold gridPoint?
  dsimp only
  rw [hfloor]
  cases hlow : (basin rank).contains (scaled (gridFloor rank k) k).1 (scaled (gridFloor rank k) k).2
    <;> cases hhigh : (basin rank).contains (scaled (gridFloor rank k + 1) k).1
      (scaled (gridFloor rank k + 1) k).2
  · obtain rfl | rfl := hn
    · rw [hlow] at hrounds
      cases hrounds
    · rw [hhigh] at hrounds
      cases hrounds
  · exact ⟨_, rfl⟩
  · exact ⟨_, rfl⟩
  · exact ⟨_, rfl⟩

/-- A grid with any point that rounds to the rank has a hit. -/
theorem exists_gridPoint? {rank n : Nat} {k : Int} (h : 0 < rank)
    (hrounds : Rounds rank (n * 10 ^ k)) : ∃ m, gridPoint? rank k = some m := by
  have hpow := ten_zpow_pos k
  obtain ⟨hlow, hhigh⟩ := gridFloor_spec rank k
  obtain hle | hlt := Nat.lt_or_ge (gridFloor rank k) n
  · -- the point is past the value, and the next one above the value is no farther
    have hnext : ((gridFloor rank k + 1 : Nat) : ℚ) * 10 ^ k ≤ n * 10 ^ k :=
      mul_le_mul_of_nonneg_right (Nat.cast_le.mpr hle) hpow.le
    exact exists_gridPoint?_of_floor h (.inr rfl) (hrounds.of_le hhigh.le hnext)
  · have hbefore : (n : ℚ) * 10 ^ k ≤ gridFloor rank k * 10 ^ k :=
      mul_le_mul_of_nonneg_right (Nat.cast_le.mpr hlt) hpow.le
    exact exists_gridPoint?_of_floor h (.inl rfl) (hrounds.of_ge hlow hbefore)

end ApiSurface.Double
