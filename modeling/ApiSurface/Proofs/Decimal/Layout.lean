/-
How the digits of a decimal are laid out.

A decimal is written with a point or with an exponent (`Notation.lays_writeDigits`), and the digits
that stand in the text, scaled by their place, are the decimal again (`Digits.written_value`). With a
point there is no zero at the end of the fraction unless the fraction is zero alone, so that a number
has only one such text (`Text.eq_of_isTrimmed`).
-/
import ApiSurface.Decimal.Notation
import ApiSurface.Proofs.Decimal.Printing
import ApiSurface.Proofs.Text.Decimal

namespace ApiSurface

/-! ### Fractions -/

namespace Text

/-- Whether digits are the shortest fraction of their value: without a zero at the end, unless they
are zero alone. -/
def IsTrimmed (fraction : List Char) : Prop := fraction = ['0'] ∨ fraction.getLast? ≠ some '0'

/-- Digits of one length that spell one number are equal. -/
theorem eq_of_decimal_eq {w w' : Nat} {cs ds : List Char} (hlength : cs.length = ds.length)
    (hcs : ∀ c ∈ cs, c.isDigit = true) (hds : ∀ d ∈ ds, d.isDigit = true)
    (h : decimal w cs = decimal w' ds) : w = w' ∧ cs = ds := by
  induction cs generalizing w w' ds with
  | nil =>
    obtain rfl := List.eq_nil_of_length_eq_zero hlength.symm
    exact ⟨h, rfl⟩
  | cons c cs ih =>
    cases ds with
    | nil => cases hlength
    | cons d ds =>
      obtain ⟨hc, hcs⟩ := List.forall_mem_cons.mp hcs
      obtain ⟨hd, hds⟩ := List.forall_mem_cons.mp hds
      obtain ⟨hcvalue, hcchar, -⟩ := digitValue_spec hc
      obtain ⟨hdvalue, hdchar, -⟩ := digitValue_spec hd
      rw [decimal_cons, decimal_cons] at h
      obtain ⟨hfirst, rfl⟩ := ih (Nat.succ.inj hlength) hcs hds h
      have hvalue : digitValue c = digitValue d := by omega
      rw [← hcchar, ← hdchar, hvalue]
      exact ⟨by omega, rfl⟩

theorem isDigit_zeros (k : Nat) : ∀ c ∈ List.replicate k '0', c.isDigit = true := by
  intro c hc
  rw [List.eq_of_mem_replicate hc]
  rfl

/-- A number has one fraction that is trimmed. -/
theorem eq_of_isTrimmed {w w' : Nat} {f f' : List Char} (hf : ∀ c ∈ f, c.isDigit = true)
    (hf' : ∀ c ∈ f', c.isDigit = true) (nonempty : f ≠ []) (nonempty' : f' ≠ [])
    (trimmed : IsTrimmed f) (trimmed' : IsTrimmed f')
    (h : decimal w f * 10 ^ f'.length = decimal w' f' * 10 ^ f.length) : w = w' ∧ f = f' := by
  wlog hle : f.length ≤ f'.length generalizing w w' f f'
  · obtain ⟨hw, hf⟩ := this hf' hf nonempty' nonempty trimmed' trimmed h.symm (by omega)
    exact ⟨hw.symm, hf.symm⟩
  -- with zeros at its end the shorter one is the longer one
  obtain ⟨j, hj⟩ : ∃ j, f'.length = f.length + j := ⟨f'.length - f.length, by omega⟩
  have hpadded : decimal w (f ++ List.replicate j '0') = decimal w' f' := by
    rw [decimal_append, decimal_zeros]
    refine Nat.eq_of_mul_eq_mul_right (Nat.pow_pos (n := f.length) (by decide : 0 < 10)) ?_
    rw [← h, hj, Nat.pow_add]
    ring
  have hdigits : ∀ c ∈ f ++ List.replicate j '0', c.isDigit = true := fun c hc =>
    (List.mem_append.mp hc).elim (hf c) (isDigit_zeros j c)
  obtain ⟨hw, hpad⟩ := eq_of_decimal_eq (by simp [hj]) hdigits hf' hpadded
  refine ⟨hw, ?_⟩
  cases j with
  | zero => simpa using hpad
  | succ j =>
    have hlast : f'.getLast? = some '0' := by
      rw [← hpad, List.replicate_succ', ← List.append_assoc, List.getLast?_concat]
    obtain rfl | hnot := trimmed'
    · have hlength : f.length + (j + 1) = 1 := hj.symm
      exact absurd (List.length_eq_zero_iff.mp (by omega)) nonempty
    · exact absurd hlast hnot

/-- Digits without a leading zero spell a number between the powers of ten around it. -/
theorem decimal_bounds {c : Char} {cs : List Char} (isDigit : ∀ d ∈ c :: cs, d.isDigit = true)
    (first : c ≠ '0') (k : Int) : (10 : ℚ) ^ k ≤ decimal 0 (c :: cs) * 10 ^ (k - cs.length) ∧
      decimal 0 (c :: cs) * 10 ^ (k - cs.length) < (10 : ℚ) ^ (k + 1) := by
  obtain ⟨hdigits, hpos⟩ := toDigits_decimal isDigit first
  obtain ⟨hlow, hhigh⟩ := Double.toDigits_bounds hpos
  rw [hdigits, List.length_cons] at hlow hhigh
  have hpow := Double.ten_zpow_pos (k - cs.length)
  constructor
  · have hk : k = k - cs.length + cs.length := by omega
    nth_rewrite 1 [hk]
    rw [Double.ten_zpow_add]
    exact mul_le_mul_of_nonneg_right (by exact_mod_cast hlow) hpow.le
  · have hk : k + 1 = k - cs.length + (cs.length + 1 : Nat) := by omega
    rw [hk, Double.ten_zpow_add]
    exact mul_lt_mul_of_pos_right (by exact_mod_cast hhigh) hpow

end Text

/-! ### The digits of a decimal -/

namespace Digits

/-- The value of a decimal. -/
def value (d : Digits) : ℚ := Text.decimal 0 d.digits * 10 ^ (d.point - d.digits.length)

/-- The digits of a number are those that are kept of it and zeros. -/
theorem ofScaled_append_zeros (n : Nat) (k : Int) :
    ∃ j, Nat.toDigits 10 n = (ofScaled n k).digits ++ List.replicate j '0' ∧
      (ofScaled n k).point = (ofScaled n k).digits.length + j + k := by
  have hkept : (ofScaled n k).digits = (Nat.toDigits 10 n).rdropWhile (· == '0') := rfl
  have hsplit : (Nat.toDigits 10 n).rdropWhile (· == '0')
      ++ (Nat.toDigits 10 n).rtakeWhile (· == '0') = Nat.toDigits 10 n :=
    List.rdropWhile_append_rtakeWhile
  have hzeros : (Nat.toDigits 10 n).rtakeWhile (· == '0')
      = List.replicate ((Nat.toDigits 10 n).rtakeWhile (· == '0')).length '0' :=
    List.eq_replicate_of_mem fun c hc => by simpa using List.mem_rtakeWhile_imp hc
  rw [hzeros] at hsplit
  refine ⟨_, by rw [hkept, hsplit], ?_⟩
  have hlength := congrArg List.length hsplit
  rw [List.length_append, List.length_replicate] at hlength
  rw [hkept, ofScaled]
  simp only [Int.ofNat_eq_natCast]
  omega

/-- A scaled number is the value of its digits. -/
theorem value_ofScaled (n : Nat) (k : Int) : (ofScaled n k).value = n * 10 ^ k := by
  obtain ⟨j, hall, hpoint⟩ := ofScaled_append_zeros n k
  have hn : n = Text.decimal 0 (ofScaled n k).digits * 10 ^ j := by
    rw [← Text.decimal_zeros, ← Text.decimal_append, ← hall, Text.decimal_toDigits]
  have hplace : (ofScaled n k).point - (ofScaled n k).digits.length = k + j := by omega
  rw [value, hplace, Double.ten_zpow_add]
  nth_rewrite 2 [hn]
  push_cast
  ring

/-- The number that the digits of a decimal spell as a document has them, and the power of ten that
scales it: zeros up to the point and one after it are digits too. -/
def written (d : Digits) : Nat × Int :=
  if Notation.json.positional d.point ∧ (d.digits.length : Int) ≤ d.point then
    (Text.decimal 0 d.digits * 10 ^ ((d.point - d.digits.length).toNat + 1), -1)
  else (Text.decimal 0 d.digits, d.point - d.digits.length)

theorem written_value (d : Digits) : (d.written.1 : ℚ) * 10 ^ d.written.2 = d.value := by
  rw [written, value]
  split
  · rename_i h
    obtain ⟨j, hj⟩ : ∃ j : Nat, d.point - d.digits.length = j :=
      ⟨(d.point - d.digits.length).toNat, by omega⟩
    rw [hj, Int.toNat_natCast, zpow_natCast]
    push_cast
    rw [pow_succ, zpow_neg_one]
    field_simp
  · rfl

end Digits

/-! ### Texts -/

namespace Notation

theorem positional_json {p : Int} : json.positional p = true ↔ -4 ≤ p ∧ p ≤ 16 := by
  simp only [positional, json, Bool.and_eq_true, decide_eq_true_eq]
  exact and_comm

/-- The text of an exponent. -/
def exponentText (f : Notation) (e : Int) : List Char :=
  if e < 0 then 'e' :: '-' :: Nat.toDigits 10 (-e).toNat
  else f.positiveExponent.toList ++ Nat.toDigits 10 e.toNat

/-- Whether a text is how a document has a decimal, with a point or with an exponent. -/
inductive Lays (f : Notation) (d : Digits) : List Char → Prop
  | point {w : Nat} {fraction : List Char} (nonempty : fraction ≠ [])
      (isDigit : ∀ c ∈ fraction, c.isDigit = true) (trimmed : Text.IsTrimmed fraction)
      (written : d.written = (Text.decimal w fraction, -(fraction.length : Int))) :
      Lays f d (Nat.toDigits 10 w ++ '.' :: fraction)
  | exponent {c : Char} {cs : List Char} (first : c ≠ '0')
      (isDigit : ∀ e ∈ c :: cs, e.isDigit = true) (place : ¬ json.positional d.point)
      (written : d.written = (Text.decimal 0 (c :: cs), d.point - 1 - cs.length)) :
      Lays f d ((if cs.isEmpty then [c] else c :: '.' :: cs) ++ f.exponentText (d.point - 1))

/-- A text of a decimal starts with a digit. -/
theorem Lays.exists_cons {f : Notation} {d : Digits} {text : List Char} (h : f.Lays d text) :
    ∃ c rest, text = c :: rest ∧ c.isDigit = true := by
  cases h with
  | @point w fraction nonempty isDigit trimmed written =>
    obtain ⟨c, cs, hcs, hc, -⟩ := Text.exists_toDigits w
    exact ⟨c, cs ++ '.' :: fraction, by rw [hcs, List.cons_append], hc⟩
  | @exponent c cs first isDigit place written =>
    have hc := isDigit c List.mem_cons_self
    cases cs with
    | nil => exact ⟨c, _, rfl, hc⟩
    | cons => exact ⟨c, _, rfl, hc⟩

section Bare

variable {d : Digits} {c : Char} {cs : List Char}

theorem written_of_isBare (bare : d.IsBare c cs) :
    d.written = if json.positional d.point ∧ (cs.length + 1 : Int) ≤ d.point then
      (Text.decimal 0 (c :: cs) * 10 ^ ((d.point - (cs.length + 1)).toNat + 1), -1)
      else (Text.decimal 0 (c :: cs), d.point - (cs.length + 1)) := by
  rw [Digits.written, bare.digits, List.length_cons]
  push_cast
  rfl

/-- The last digits of a bare decimal are a fraction without a zero at the end. -/
theorem isTrimmed_of_isBare (bare : d.IsBare c cs) (front : List Char) {ds : List Char}
    (hds : ds ≠ []) (hsuffix : ds <:+ c :: cs) : Text.IsTrimmed (front ++ ds) := by
  obtain ⟨before, hbefore⟩ := hsuffix
  have last := bare.last
  rw [← hbefore, List.getLast?_append_of_ne_nil _ hds] at last
  exact .inr (by rwa [List.getLast?_append_of_ne_nil _ hds])

/-- Zeros stand between the point and the digits. -/
theorem lays_before (f : Notation) (bare : d.IsBare c cs) {z : Nat} (hz : d.point = -z) :
    f.Lays d ('0' :: '.' :: (List.replicate z '0' ++ c :: cs)) := by
  refine @Lays.point f d 0 (List.replicate z '0' ++ c :: cs) (by simp)
    (fun e he => (List.mem_append.mp he).elim (Text.isDigit_zeros z e) (bare.isDigit e))
    (isTrimmed_of_isBare bare _ (by simp) List.suffix_rfl) ?_
  rw [written_of_isBare bare, if_neg (by omega), Text.decimal_append, Text.decimal_zeros,
    Nat.zero_mul, List.length_append, List.length_replicate, List.length_cons]
  congr 1
  push_cast
  omega

/-- The point stands among the digits. -/
theorem lays_inside (f : Notation) (bare : d.IsBare c cs) {i : Nat} (hi : d.point = i + 1)
    (hlt : i < cs.length) : f.Lays d (c :: cs.take i ++ '.' :: cs.drop i) := by
  have hlength : (cs.drop i).length = cs.length - i := List.length_drop
  have hne : cs.drop i ≠ [] := by
    rw [← List.length_pos_iff, hlength]
    omega
  have hwhole : Nat.toDigits 10 (Text.decimal 0 (c :: cs.take i)) = c :: cs.take i :=
    (Text.toDigits_decimal (fun e he => bare.isDigit e (List.take_subset (i + 1) (c :: cs) he))
      bare.first).1
  rw [← hwhole]
  refine .point hne (fun e he => bare.isDigit e (List.drop_subset (i + 1) (c :: cs) he))
    (isTrimmed_of_isBare bare [] hne ((List.drop_suffix i cs).trans (List.suffix_cons c cs))) ?_
  rw [written_of_isBare bare, if_neg (by omega), ← Text.decimal_append, List.cons_append,
    List.take_append_drop, hlength]
  congr 1
  omega

/-- Zeros stand between the digits and the point, and a zero alone after it. -/
theorem lays_after (f : Notation) (bare : d.IsBare c cs) {j : Nat} (hj : d.point = cs.length + 1 + j)
    (positional : json.positional d.point = true) :
    f.Lays d (c :: cs ++ List.replicate j '0' ++ ['.', '0']) := by
  have hdigits : ∀ e ∈ c :: (cs ++ List.replicate j '0'), e.isDigit = true := fun e he =>
    (List.mem_append.mp he).elim (bare.isDigit e) (Text.isDigit_zeros j e)
  have hwhole := (Text.toDigits_decimal hdigits bare.first).1
  have hplace : (d.point - (cs.length + 1)).toNat = j := by omega
  rw [List.cons_append, ← hwhole]
  refine .point (by simp) (by simp) (.inl rfl) ?_
  have hzero (n : Nat) : Text.decimal n ['0'] = n * 10 := Text.decimal_zeros n 1
  rw [written_of_isBare bare, if_pos ⟨positional, by omega⟩, hplace, hzero, ← List.cons_append,
    Text.decimal_append, Text.decimal_zeros, Nat.pow_succ, ← Nat.mul_assoc]
  rfl

/-- A decimal without a zero at either end is written with a point or with an exponent, by the place
of its point. -/
theorem lays_writeDigits {f : Notation} (hf : f.positional = json.positional)
    (bare : d.IsBare c cs) : f.Lays d (f.writeDigits d) := by
  rw [writeDigits, hf]
  simp only [bare.digits, Int.ofNat_eq_natCast, List.length_cons, Nat.cast_add, Nat.cast_one]
  split
  · rename_i positional
    split
    · rename_i hpoint
      obtain ⟨z, hz⟩ : ∃ z : Nat, d.point = -z := ⟨(-d.point).toNat, by omega⟩
      rw [hz, Int.neg_neg, Int.toNat_natCast]
      exact lays_before f bare hz
    split
    · rename_i hpoint hinside
      obtain ⟨i, hi⟩ : ∃ i : Nat, d.point = i + 1 := ⟨(d.point - 1).toNat, by omega⟩
      rw [hi]
      exact lays_inside f bare hi (by omega)
    · rename_i hpoint houtside
      obtain ⟨j, hj⟩ : ∃ j : Nat, d.point = cs.length + 1 + j :=
        ⟨(d.point - (cs.length + 1)).toNat, by omega⟩
      have hplace : (d.point - (cs.length + 1)).toNat = j := by omega
      rw [hplace]
      exact lays_after f bare hj positional
  · rename_i hpositional
    refine .exponent bare.first bare.isDigit hpositional ?_
    rw [written_of_isBare bare, if_neg (fun h => hpositional h.1)]
    congr 1
    omega

end Bare

end Notation

/-- The decimal that stands for a rank. -/
def Double.digits (rank : Nat) : Digits := if rank = 0 then ⟨['0'], 1⟩ else shortest rank

theorem Double.digits_value_zero : (digits 0).value = 0 := by
  have hdigits : Text.decimal 0 ['0'] = 0 := Text.decimal_zeros 0 1
  rw [digits, if_pos rfl, Digits.value, hdigits, Nat.cast_zero, zero_mul]

/-- The decimal of a rank rounds to the rank and has seventeen digits at most. -/
theorem Double.digits_spec (rank : Nat) :
    Double.Rounds rank (digits rank).value ∧ Text.decimal 0 (digits rank).digits ≤ 10 ^ 17 := by
  obtain rfl | hrank : rank = 0 ∨ rank ≠ 0 := Decidable.em _
  · rw [digits_value_zero, ← value_zero]
    exact ⟨rounds_value 0, by decide⟩
  · obtain ⟨n, k, hn, hle, hrounds, hshortest⟩ := exists_shortest (Nat.pos_of_ne_zero hrank)
    obtain ⟨j, hall, -⟩ := Digits.ofScaled_append_zeros n k
    have hkept : n = Text.decimal 0 (Digits.ofScaled n k).digits * 10 ^ j := by
      rw [← Text.decimal_zeros, ← Text.decimal_append, ← hall, Text.decimal_toDigits]
    rw [digits, if_neg hrank, hshortest, Digits.value_ofScaled]
    refine ⟨hrounds, le_trans ?_ hle⟩
    nth_rewrite 2 [hkept]
    exact Nat.le_mul_of_pos_right _ (Nat.pow_pos (by decide))

theorem Double.isDigit_digits (rank : Nat) : ∀ c ∈ (digits rank).digits, c.isDigit = true := by
  rw [digits]
  split
  · simp
  · rename_i hrank
    obtain ⟨n, k, hn, -, -, hshortest⟩ := exists_shortest (Nat.pos_of_ne_zero hrank)
    obtain ⟨c, cs, bare⟩ := Digits.exists_isBare hn.ne' k
    rw [hshortest, bare.digits]
    exact bare.isDigit

/-- Zeros that are written too leave a decimal with seventeen digits at most. -/
theorem Double.written_le (rank : Nat) : (digits rank).written.1 ≤ 10 ^ 17 := by
  rw [Digits.written]
  split
  · rename_i h
    obtain ⟨-, hpoint⟩ := Notation.positional_json.mp h.1
    obtain ⟨j, hj⟩ : ∃ j : Nat, (digits rank).point = (digits rank).digits.length + j :=
      ⟨((digits rank).point - (digits rank).digits.length).toNat, by omega⟩
    have hlt := Text.decimal_lt (isDigit_digits rank)
    have hzeros : ((digits rank).point - (digits rank).digits.length).toNat = j := by omega
    rw [hzeros]
    calc Text.decimal 0 (digits rank).digits * 10 ^ (j + 1)
        ≤ 10 ^ (digits rank).digits.length * 10 ^ (j + 1) := Nat.mul_le_mul_right _ hlt.le
      _ = 10 ^ ((digits rank).digits.length + (j + 1)) := (Nat.pow_add ..).symm
      _ ≤ 10 ^ 17 := Nat.pow_le_pow_right (by decide) (by omega)
  · exact (digits_spec rank).2

namespace Notation

/-- The text of an absolute value. -/
def magnitude (f : Notation) (rank : Nat) : List Char :=
  if rank = 0 then ['0', '.', '0'] else f.writeDigits (Double.shortest rank)

theorem write_eq (f : Notation) (x : Double) :
    f.write x = if x.negative then '-' :: f.magnitude x.rank else f.magnitude x.rank := rfl

theorem lays_magnitude {f : Notation} (hf : f.positional = json.positional) (rank : Nat) :
    f.Lays (Double.digits rank) (f.magnitude rank) := by
  rw [magnitude, Double.digits]
  split
  · exact @Lays.point f _ 0 ['0'] (by simp) (by simp) (.inl rfl) (by decide)
  · rename_i hrank
    obtain ⟨n, k, hn, -, -, hshortest⟩ := Double.exists_shortest (Nat.pos_of_ne_zero hrank)
    obtain ⟨c, cs, bare⟩ := Digits.exists_isBare hn.ne' k
    rw [hshortest]
    exact lays_writeDigits hf bare

end Notation

end ApiSurface
