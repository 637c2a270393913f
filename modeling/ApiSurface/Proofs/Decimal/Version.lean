/-
Version numbers and the texts that they become.

A version that is written as a number with a point is read as a double, and the text of the double
takes its place. A double has one text, without zeros at its end, so a version with zeros there does
not come back (`Text.trimmed_of_magnitude`). Any other one of fifteen digits at most does: it is the
shortest decimal of its double (`Double.digits_value_eq`) and is written with a point
(`Notation.magnitude_eq`).
-/
import ApiSurface.Number
import ApiSurface.Proofs.Decimal.Arithmetic
import ApiSurface.Proofs.Decimal.Literal

namespace ApiSurface

/-! ### Fractions -/

namespace Text

/-- A fraction without the zeros at its end, of which one stays where there is nothing else. -/
def trim (fraction : List Char) : List Char :=
  let kept := fraction.rdropWhile (· == '0')
  if kept.isEmpty then ['0'] else kept

section Trim

variable {fraction : List Char}

theorem trim_ne_nil (fraction : List Char) : trim fraction ≠ [] := by
  rw [trim]
  split
  · simp
  · rename_i h
    exact fun hnil => h (by simp [hnil])

theorem isTrimmed_trim (fraction : List Char) : IsTrimmed (trim fraction) := by
  rw [trim]
  split
  · exact .inl rfl
  · rename_i h
    have hne : fraction.rdropWhile (· == '0') ≠ [] := by simpa using h
    have hlast := List.rdropWhile_last_not _ _ hne
    refine .inr ?_
    rw [List.getLast?_eq_some_getLast hne]
    simpa using hlast

theorem isDigit_trim (isDigit : ∀ c ∈ fraction, c.isDigit = true) :
    ∀ c ∈ trim fraction, c.isDigit = true := by
  rw [trim]
  split
  · simp
  · exact fun c hc => isDigit c ((List.rdropWhile_prefix _ _).subset hc)

/-- A fraction that has no zeros at its end stays as it is. -/
theorem trim_eq_self (nonempty : fraction ≠ []) (trimmed : IsTrimmed fraction) :
    trim fraction = fraction := by
  obtain rfl | hlast := trimmed
  · rfl
  · have hkept : fraction.rdropWhile (· == '0') = fraction := by
      rw [List.rdropWhile_eq_self_iff]
      intro hne
      rw [List.getLast?_eq_some_getLast hne] at hlast
      simpa using hlast
    rw [trim, hkept, if_neg (by simpa using nonempty)]

/-- The zeros at its end add nothing to a number. -/
theorem decimal_trim (w : Nat) (fraction : List Char) :
    (decimal w (trim fraction) : ℚ) * 10 ^ (-((trim fraction).length : Int))
      = decimal w fraction * 10 ^ (-(fraction.length : Int)) := by
  obtain ⟨j, hsplit⟩ : ∃ j, fraction.rdropWhile (· == '0') ++ List.replicate j '0' = fraction := by
    refine ⟨(fraction.rtakeWhile (· == '0')).length, ?_⟩
    rw [← List.eq_replicate_of_mem fun c hc => by simpa using List.mem_rtakeWhile_imp hc]
    exact List.rdropWhile_append_rtakeWhile
  -- both sides are the number of the digits that are kept
  have hzeros (ds : List Char) (k : Nat) : (decimal w (ds ++ List.replicate k '0') : ℚ)
      * 10 ^ (-((ds ++ List.replicate k '0').length : Int)) = decimal w ds * 10 ^ (-(ds.length : Int)) := by
    have hlength : (-(ds.length : Int)) = -((ds ++ List.replicate k '0').length : Int) + k := by
      simp
    rw [hlength, Double.ten_zpow_add, decimal_append, decimal_zeros]
    push_cast
    ring
  rw [trim]
  split
  · rename_i h
    rw [List.isEmpty_iff.mp h] at hsplit
    have hone := hzeros [] 1
    have hall := hzeros [] j
    rw [hsplit] at hall
    exact hone.trans hall.symm
  · have hall := hzeros (fraction.rdropWhile (· == '0')) j
    rw [hsplit] at hall
    exact hall.symm

end Trim

end Text

/-! ### Doubles -/

section Doubles

variable {rank w : Nat} {fraction : List Char}

/-- A value between the smallest and the largest that are written with a point is written so. -/
theorem Notation.magnitude_eq {x : ℚ} (hvalue : (Double.digits rank).value = x)
    (low : x = 0 ∨ 10 ^ (-5 : Int) ≤ x) (high : x < 10 ^ (16 : Int)) (nonempty : fraction ≠ [])
    (isDigit : ∀ c ∈ fraction, c.isDigit = true) (trimmed : Text.IsTrimmed fraction)
    (hx : x = Text.decimal w fraction * 10 ^ (-(fraction.length : Int))) :
    json.magnitude rank = Nat.toDigits 10 w ++ '.' :: fraction := by
  have hwritten := (Double.digits rank).written_value
  have hlays := @lays_magnitude json rfl rank
  generalize json.magnitude rank = text at hlays ⊢
  cases hlays with
  | @point w' fraction' nonempty' isDigit' trimmed' written =>
    rw [written, hvalue, hx, zpow_neg, zpow_neg, zpow_natCast, zpow_natCast, ← div_eq_mul_inv,
      ← div_eq_mul_inv, div_eq_div_iff (by positivity) (by positivity)] at hwritten
    obtain ⟨rfl, rfl⟩ := Text.eq_of_isTrimmed isDigit' isDigit nonempty' nonempty trimmed' trimmed
      (by exact_mod_cast hwritten)
    rfl
  | @exponent c cs first isDigit' place written =>
    rw [written, hvalue] at hwritten
    obtain ⟨hlow, hhigh⟩ := Text.decimal_bounds isDigit' first ((Double.digits rank).point - 1)
    rw [hwritten] at hlow hhigh
    have hpositive := (Double.ten_zpow_pos _).trans_le hlow
    have hfive := (low.resolve_left hpositive.ne').trans_lt hhigh
    have hsixteen := hlow.trans_lt high
    rw [zpow_lt_zpow_iff_right₀ (by norm_num)] at hfive hsixteen
    exact absurd (positional_json.mpr ⟨by omega, by omega⟩) place

/-- The text of a double has no zeros at the end of its fraction. -/
theorem Text.trimmed_of_magnitude (isDigit : ∀ c ∈ fraction, c.isDigit = true)
    (h : Notation.json.magnitude rank = Nat.toDigits 10 w ++ '.' :: fraction) :
    IsTrimmed fraction := by
  have hlays := @Notation.lays_magnitude .json rfl rank
  rw [h] at hlays
  generalize htext : Nat.toDigits 10 w ++ '.' :: fraction = text at hlays
  cases hlays with
  | @point w' fraction' nonempty' isDigit' trimmed' written =>
    have hsplit (n : Nat) (ds : List Char) :
        (Nat.toDigits 10 n ++ '.' :: ds).dropWhile Char.isDigit = '.' :: ds :=
      dropWhile_append (Literal.isDigit_toDigits n) (Literal.stops_of_not_isDigit rfl ds)
    have hdrop := congrArg (List.dropWhile Char.isDigit) htext
    rw [hsplit, hsplit] at hdrop
    rwa [(List.cons.inj hdrop).2]
  | @exponent c cs first isDigit' place written =>
    have hletter : 'e' ∈ Nat.toDigits 10 w ++ '.' :: fraction := by
      have hexponent : 'e' ∈ Notation.json.exponentText ((Double.digits rank).point - 1) := by
        rw [Notation.exponentText]
        split <;> exact List.mem_cons_self
      rw [htext]
      exact List.mem_append_right _ hexponent
    obtain hmem | hmem := List.mem_append.mp hletter
    · exact absurd (isDigit_of_mem_toDigits hmem) (by decide)
    · obtain hmem | hmem := List.mem_cons.mp hmem
      · cases hmem
      · exact absurd (isDigit _ hmem) (by decide)

/-- A decimal of fifteen digits, not far below one, is the text of its double. -/
theorem Double.digits_value_eq {n : Nat} {k : Int} (hn : n < 10 ^ 15)
    (low : n = 0 ∨ 10 ^ (-5 : Int) ≤ (n : ℚ) * 10 ^ k) (h : Rounds rank (n * 10 ^ k)) :
    (digits rank).value = n * 10 ^ k := by
  obtain rfl | hpos := Nat.eq_zero_or_pos n
  · have hzero : ((0 : Nat) : ℚ) * 10 ^ k = value 0 := by rw [Nat.cast_zero, zero_mul, value_zero]
    rw [hzero] at h ⊢
    rw [h.eq (rounds_value 0), digits_value_zero, value_zero]
  · have hlow := low.resolve_left hpos.ne'
    have hrank : binade ≤ rank := by
      refine h.ge_of_ge (le_trans ?_ hlow)
      have hulp : ulp binade = 2 ^ (-1074 : Int) := rfl
      calc value binade ≤ 2 ^ (53 : Int) * 2 ^ (-1074 : Int) := hulp ▸ (value_lt_ulp binade).le
        _ = 2 ^ (53 + -1074 : Int) := (zpow_add₀ (by norm_num) _ _).symm
        _ ≤ 2 ^ (-17 : Int) := zpow_le_zpow_right₀ (by norm_num) (by decide)
        _ ≤ 10 ^ (-5 : Int) := by norm_num
    rw [digits, if_neg (Nat.lt_of_lt_of_le binade_pos hrank).ne', shortest_eq hrank hpos hn h,
      Digits.value_ofScaled]

end Doubles

/-! ### Versions -/

/-- A version that is written as a number: an integer that a word holds, and the digits after the
point, if there is one. -/
structure VersionNumber where
  whole : Nat
  fraction : List Char
  bound : whole < 18446744073709551616
  isDigit : ∀ c ∈ fraction, c.isDigit = true

namespace VersionNumber

/-- The text of a version. -/
def spelling (v : VersionNumber) : List Char :=
  Nat.toDigits 10 v.whole ++ if v.fraction.isEmpty then [] else '.' :: v.fraction

/-- The number of all its digits. -/
def digits (v : VersionNumber) : Nat := Text.decimal v.whole v.fraction

/-- Whether a version has fifteen digits at most, zeros before them apart, and is zero or one
hundred-thousandth at least. -/
def IsShort (v : VersionNumber) : Prop :=
  v.digits < 10 ^ 15 ∧ (v.digits = 0 ∨ 10 ^ v.fraction.length ≤ v.digits * 10 ^ 5)

/-- What becomes of a version that is read as a number and turned into a text again: an integer
stays as it is, a short version loses the zeros at its end, and no version with zeros there stays. -/
structure Becomes (v : VersionNumber) (s : String) : Prop where
  kept : v.fraction = [] ∨ v.IsShort ∧ Text.IsTrimmed v.fraction → s.toList = v.spelling
  short : v.fraction ≠ [] → v.IsShort →
    s.toList = Nat.toDigits 10 v.whole ++ '.' :: Text.trim v.fraction
  trimmed : v.fraction ≠ [] → s.toList = v.spelling → Text.IsTrimmed v.fraction
  nonempty : s ≠ ""

variable {v : VersionNumber}

theorem spelling_integer (h : v.fraction = []) : v.spelling = Nat.toDigits 10 v.whole := by
  rw [spelling, h, List.isEmpty_nil, if_pos rfl, List.append_nil]

theorem spelling_pointed (h : v.fraction ≠ []) :
    v.spelling = Nat.toDigits 10 v.whole ++ '.' :: v.fraction := by
  rw [spelling, if_neg (by simpa using h)]

/-- The integer before the point. -/
def integer (v : VersionNumber) : WordInt :=
  ⟨v.whole, by omega, Int.ofNat_lt.mpr v.bound⟩

theorem write_integer (h : v.fraction = []) : v.integer.write = v.spelling := by
  have hpositive : ¬ v.integer.val < 0 := Int.not_lt.mpr (Int.natCast_nonneg v.whole)
  rw [spelling_integer h, WordInt.write, if_neg hpositive]
  rfl

theorem becomes_integer (h : v.fraction = []) : v.Becomes (Number.integer v.integer).toText := by
  have htext : (Number.integer v.integer).toText.toList = v.spelling := by
    rw [Number.toText, String.toList_ofList, Number.write, write_integer h]
  refine ⟨fun _ => htext, fun hf => absurd h hf, fun hf => absurd h hf, fun hempty => ?_⟩
  obtain ⟨c, cs, hcs, -⟩ := Text.exists_toDigits v.whole
  rw [hempty, spelling_integer h, hcs] at htext
  cases htext

/-- A version with a point becomes the text of the nearest double. -/
theorem becomes_double (hf : v.fraction ≠ []) {x : Double} (positive : x.negative = false)
    (h : v.IsShort → Double.Rounds x.rank (v.digits * 10 ^ (-(v.fraction.length : Int)))) :
    v.Becomes (Number.double x).toText := by
  have htext : (Number.double x).toText.toList = Notation.json.magnitude x.rank := by
    rw [Number.toText, String.toList_ofList, Number.write, Notation.write_eq, if_neg (by simp [positive])]
  have short (hshort : v.IsShort) : (Number.double x).toText.toList
      = Nat.toDigits 10 v.whole ++ '.' :: Text.trim v.fraction := by
    -- short digits lie between the bounds within which numbers are written with a point
    have low : v.digits = 0 ∨
        10 ^ (-5 : Int) ≤ (v.digits : ℚ) * 10 ^ (-(v.fraction.length : Int)) := by
      refine hshort.2.imp_right fun hlow => ?_
      have hcast : (10 : ℚ) ^ v.fraction.length ≤ v.digits * 10 ^ 5 := by exact_mod_cast hlow
      rw [zpow_neg _ (v.fraction.length : Int), zpow_natCast, ← div_eq_mul_inv,
        le_div_iff₀ (by positivity)]
      norm_num at hcast ⊢
      linarith
    have high : (v.digits : ℚ) * 10 ^ (-(v.fraction.length : Int)) < 10 ^ (16 : Int) := by
      have hlt : (v.digits : ℚ) < (10 ^ 15 : Nat) := Nat.cast_lt.mpr hshort.1
      have hone : (10 : ℚ) ^ (-(v.fraction.length : Int)) ≤ 1 :=
        zpow_le_one_of_nonpos₀ (by norm_num) (by omega)
      calc (v.digits : ℚ) * 10 ^ (-(v.fraction.length : Int)) ≤ v.digits * 1 :=
            mul_le_mul_of_nonneg_left hone (Nat.cast_nonneg _)
        _ < 10 ^ (16 : Int) := by
          rw [mul_one]
          exact hlt.trans (by norm_num)
    rw [htext]
    exact Notation.magnitude_eq (Double.digits_value_eq hshort.1 low (h hshort))
      (low.imp_left fun hzero => by rw [hzero, Nat.cast_zero, zero_mul]) high
      (Text.trim_ne_nil _) (Text.isDigit_trim v.isDigit) (Text.isTrimmed_trim _)
      (Text.decimal_trim v.whole v.fraction).symm
  refine ⟨fun hkept => ?_, fun _ => short, fun _ hsame => ?_, fun hempty => ?_⟩
  · obtain ⟨hshort, trimmed⟩ := hkept.resolve_left hf
    rw [short hshort, Text.trim_eq_self hf trimmed, spelling_pointed hf]
  · rw [htext, spelling_pointed hf] at hsame
    exact Text.trimmed_of_magnitude v.isDigit hsame
  · obtain ⟨c, cs, hcs, -⟩ := (@Notation.lays_magnitude .json rfl x.rank).exists_cons
    rw [hempty, hcs] at htext
    cases htext

end VersionNumber

end ApiSurface
