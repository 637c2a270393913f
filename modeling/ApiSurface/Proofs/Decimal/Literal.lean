/-
Decimal literals are rounded correctly.

A literal is the double that its value rounds to (`Parts.toDouble?_eq`): the bounds beyond which an
exponent is not expanded lie outside the range of the doubles. So the text of a double is read as the
double, whichever way it is laid out (`toDouble?_write`).
-/
import ApiSurface.Decimal.Literal
import ApiSurface.Proofs.Decimal.Arithmetic
import ApiSurface.Proofs.Decimal.Layout
import ApiSurface.Proofs.Text.Run

namespace ApiSurface.Literal

open Double (Rounds)

/-- The value of an unsigned literal. -/
def Parts.value (p : Parts) : ℚ :=
  Text.decimal (Text.decimal 0 p.whole) p.fraction * 10 ^ (p.exponent - p.fraction.length)

/-- A literal is the finite double that its value rounds to. -/
theorem Parts.toDouble?_eq {p : Parts} {rank : Nat} (h : Rounds rank p.value)
    (finite : rank < Double.limit) (negative : Bool) :
    p.toDouble? negative = some ⟨negative, rank, finite⟩ := by
  rw [value] at h
  rw [toDouble?]
  simp only [Int.ofNat_eq_natCast]
  generalize Text.decimal (Text.decimal 0 p.whole) p.fraction = n at h ⊢
  generalize p.exponent - (p.fraction.length : Int) = e at h ⊢
  split
  · rename_i hzero
    rw [hzero, Nat.cast_zero, zero_mul, ← Double.value_zero] at h
    obtain rfl := h.eq (Double.rounds_value 0)
    rfl
  rename_i hn
  obtain ⟨hlow, hhigh⟩ := Double.toDigits_bounds (Nat.pos_of_ne_zero hn)
  have hlength : 0 < (Nat.toDigits 10 n).length := Nat.length_toDigits_pos
  generalize (Nat.toDigits 10 n).length = size at hlow hhigh hlength ⊢
  have hpow := Double.ten_zpow_pos e
  split
  · -- the value is above all finite doubles
    rename_i hlarge
    obtain ⟨j, hj⟩ : ∃ j : Nat, e + ((size - 1 : Nat) : Int) = j :=
      ⟨(e + ((size - 1 : Nat) : Int)).toNat, by omega⟩
    have hle : (10 : ℚ) ^ j ≤ n * 10 ^ e := by
      rw [← zpow_natCast, ← hj, Double.ten_zpow_add]
      exact mul_le_mul_of_nonneg_right (by exact_mod_cast hlow) hpow.le
    exact absurd (h.lt_of_finite finite (j := j) (by omega)) (not_lt.mpr hle)
  split
  · -- the value is below one half of the least double
    rename_i hsmall
    obtain ⟨j, hj⟩ : ∃ j : Nat, e + (size : Int) = -j := ⟨(-(e + (size : Int))).toNat, by omega⟩
    have hlt : (n : ℚ) * 10 ^ e < 10 ^ (-(j : Int)) := by
      rw [← hj, Double.ten_zpow_add]
      exact mul_lt_mul_of_pos_right (by exact_mod_cast hhigh) hpow
    rw [zpow_neg, zpow_natCast, ← one_div, lt_div_iff₀ (by positivity)] at hlt
    have hzero := Double.rounds_zero (by positivity) (j := j) (by omega) hlt
    obtain rfl := h.eq hzero
    rfl
  · obtain ⟨hden, hvalue⟩ := Double.scaled_value n e
    rw [← hvalue] at h
    have hratio := @Double.ofRatio?_eq negative _ _ _ hden h finite
    rw [Double.scaled] at hratio
    split at hratio
    · rename_i he
      rw [if_pos he, hratio]
    · rename_i he
      rw [if_neg he, hratio]

/-! ### Literals that are written -/

section Written

variable {w : Nat} {c : Char} {fraction cs : List Char}

theorem stops_of_not_isDigit (hc : c.isDigit = false) (rest : List Char) :
    Text.Stops Char.isDigit (c :: rest) := by
  rintro d ⟨⟩
  exact hc

theorem isDigit_toDigits (n : Nat) : ∀ c ∈ Nat.toDigits 10 n, c.isDigit = true :=
  fun _ => Text.isDigit_of_mem_toDigits

theorem exponent?_digits {d : Char} {ds : List Char} (hds : ∀ e ∈ d :: ds, e.isDigit = true) :
    exponent? (d :: ds) = some (Text.decimal 0 (d :: ds) : Int) ∧
      exponent? ('-' :: d :: ds) = some (-(Text.decimal 0 (d :: ds) : Int)) := by
  have hd : d.isDigit = true := hds d List.mem_cons_self
  have hplus : d ≠ '+' := Text.ne_of_isDigit hd (by decide)
  have hminus : d ≠ '-' := Text.ne_of_isDigit hd (by decide)
  have hall : (d :: ds).all Char.isDigit = true := List.all_eq_true.mpr hds
  constructor
  · rw [exponent?]
    · simp [hall]
    · simp [hplus]
    · simp [hminus]
  · simp [exponent?, hall]

/-- A literal with a point is split at it. -/
theorem parts?_point (isDigit : ∀ d ∈ fraction, d.isDigit = true) :
    parts? (Nat.toDigits 10 w ++ '.' :: fraction) = some ⟨Nat.toDigits 10 w, fraction, 0⟩ := by
  have hwhole := Text.takeWhile_append (isDigit_toDigits w) (stops_of_not_isDigit (c := '.') rfl fraction)
  have hrest := Text.dropWhile_append (isDigit_toDigits w) (stops_of_not_isDigit (c := '.') rfl fraction)
  have hfraction := List.takeWhile_eq_self_iff.mpr isDigit
  have hnothing := List.dropWhile_eq_nil_iff.mpr isDigit
  rw [parts?, hwhole, hrest]
  simp only [hfraction, hnothing]
  rw [if_neg]
  simp

theorem exists_exponentText (e : Int) :
    ∃ tail, Notation.yaml.exponentText e = 'e' :: tail ∧ exponent? tail = some e := by
  have hread (n : Nat) : exponent? (Nat.toDigits 10 n) = some (n : Int) ∧
      exponent? ('-' :: Nat.toDigits 10 n) = some (-(n : Int)) := by
    obtain ⟨d, ds, hds, -⟩ := Text.exists_toDigits n
    have hspec := exponent?_digits (hds ▸ isDigit_toDigits n)
    rwa [← hds, Text.decimal_toDigits] at hspec
  rw [Notation.exponentText]
  split
  · refine ⟨_, rfl, ?_⟩
    rw [(hread _).2]
    congr 1
    omega
  · refine ⟨Nat.toDigits 10 e.toNat, rfl, ?_⟩
    rw [(hread _).1]
    congr 1
    omega

/-- A literal with an exponent is split at its letter. -/
theorem parts?_exponent (isDigit : ∀ d ∈ c :: cs, d.isDigit = true) (e : Int) :
    parts? ((if cs.isEmpty then [c] else c :: '.' :: cs) ++ Notation.yaml.exponentText e)
      = some ⟨[c], cs, e⟩ := by
  obtain ⟨tail, htail, hexponent⟩ := exists_exponentText e
  obtain ⟨hc, hcs⟩ := List.forall_mem_cons.mp isDigit
  have hstop := stops_of_not_isDigit (c := 'e') rfl tail
  rw [htail]
  cases cs with
  | nil => simp [parts?, hc, hexponent]
  | cons d ds =>
    have hfraction := Text.takeWhile_append hcs hstop
    have hrest := Text.dropWhile_append hcs hstop
    simp only [List.isEmpty_cons, Bool.false_eq_true, if_false, List.cons_append] at hfraction hrest ⊢
    simp [parts?, hc, hfraction, hrest, hexponent]

/-- The text of a decimal is a literal of its value. -/
theorem exists_parts? {d : Digits} {text : List Char} (h : Notation.yaml.Lays d text) :
    ∃ p, parts? text = some p ∧ p.value = d.value := by
  cases h with
  | @point w fraction nonempty isDigit trimmed written =>
    refine ⟨_, parts?_point isDigit, ?_⟩
    rw [← d.written_value, written, Parts.value, Text.decimal_toDigits, zero_sub]
  | @exponent c cs first isDigit place written =>
    refine ⟨_, parts?_exponent isDigit _, ?_⟩
    have hdigits := Text.decimal_append 0 [c] cs
    rw [← d.written_value, written, Parts.value, ← hdigits]
    rfl

end Written

/-- A literal that starts with a digit has no sign. -/
theorem toDouble?_unsigned {c : Char} {cs : List Char} (hc : c.isDigit = true) :
    toDouble? (c :: cs) = (parts? (c :: cs)).bind (·.toDouble? false) := by
  have hplus : c ≠ '+' := Text.ne_of_isDigit hc (by decide)
  have hminus : c ≠ '-' := Text.ne_of_isDigit hc (by decide)
  rw [toDouble?]
  · simp [hminus]
  · simp [hplus]

/-- The text of a double is read as the double. -/
theorem toDouble?_write (x : Double) : toDouble? (Notation.yaml.write x) = some x := by
  have hlays := @Notation.lays_magnitude .yaml rfl x.rank
  obtain ⟨c, rest, hcons, hc⟩ := hlays.exists_cons
  obtain ⟨p, hp, hvalue⟩ := exists_parts? hlays
  have hrounds := hvalue ▸ (Double.digits_spec x.rank).1
  have hread (negative : Bool) := Parts.toDouble?_eq hrounds x.finite negative
  rw [Notation.write_eq]
  cases hnegative : x.negative with
  | true => rw [if_pos rfl, toDouble?, hp, Option.bind_some, hread, ← hnegative]
  | false =>
    rw [if_neg (by simp), hcons, toDouble?_unsigned hc, ← hcons, hp, Option.bind_some, hread,
      ← hnegative]

end ApiSurface.Literal
