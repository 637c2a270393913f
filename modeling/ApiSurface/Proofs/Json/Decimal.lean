/-
A decimal of a JSON text is read as its digits scaled.

The digits in a text are gathered in a word, the point and the exponent say by which power of ten it
is scaled (`number_point`, `number_exponent`). So a double that was written is read as the number in
its text, scaled in rounded arithmetic (`number_magnitude`).
-/
import ApiSurface.Proofs.Json.Magnitude
import ApiSurface.Proofs.Json.Meaning
import ApiSurface.Proofs.Json.Scale
import ApiSurface.Proofs.Json.Written

namespace ApiSurface

/-! ### The size of a decimal -/

namespace Double

/-- The point of a finite double is less than four hundred places away from its digits. -/
theorem digits_point_lt {rank : Nat} (hrank : 0 < rank) (finite : rank < limit) {c : Char}
    {cs : List Char} {k : Int} (isDigit : ∀ d ∈ c :: cs, d.isDigit = true) (first : c ≠ '0')
    (hvalue : (digits rank).value = Text.decimal 0 (c :: cs) * 10 ^ (k - cs.length)) :
    k.natAbs < 400 := by
  have hrounds := (digits_spec rank).1
  obtain ⟨hlow, hhigh⟩ := Text.decimal_bounds isDigit first k
  rw [← hvalue] at hlow hhigh
  by_contra hfar
  obtain ⟨j, hj, rfl | rfl⟩ : ∃ j : Nat, 400 ≤ j ∧ (k = j ∨ k = -j) :=
    ⟨k.natAbs, by omega, by omega⟩
  · rw [zpow_natCast] at hlow
    exact absurd (hrounds.lt_of_finite finite (show 342 ≤ j by omega)) (not_lt.mpr hlow)
  · -- a value as small as that rounds to zero
    obtain ⟨i, rfl⟩ : ∃ i : Nat, j = i + 1 := ⟨j - 1, by omega⟩
    have hi : (-((i + 1 : Nat) : Int)) + 1 = -(i : Int) := by omega
    rw [hi, zpow_neg, zpow_natCast, ← one_div, lt_div_iff₀ (by positivity)] at hhigh
    have hzero := rounds_zero ((ten_zpow_pos _).le.trans hlow) (show 359 ≤ i by omega) hhigh
    exact hrank.ne' (hrounds.eq hzero)

/-- What the text of a double is read as in JSON: the number in it, scaled in rounded arithmetic. -/
def rescaled? (x : Double) : Option Double :=
  (Json.scale? (digits x.rank).written.1 (digits x.rank).written.2).map (·.withSign x.negative)

end Double

namespace Json

theorem absorb_lt {limit n : Nat} (h : n < limit) (cs : List Char) : (absorb limit n cs).1 < limit := by
  induction cs generalizing n with
  | nil => exact h
  | cons c cs ih =>
    rw [absorb]
    split
    · rename_i hfits
      exact ih hfits
    · exact h

namespace Reader

variable {negative : Bool} {rest : List Char}

/-- A number with a point is scaled down by the digits after it that a word can hold. -/
theorem number_point {w : Nat} {fraction : List Char} (hw : w < wordLimit)
    (hf : IsDigits fraction) (hends : Ends rest) (ignored : Nat) :
    number negative ⟨Nat.toDigits 10 w ++ '.' :: (fraction ++ rest), ignored⟩ =
      scaled negative (absorb wordLimit w fraction).1
        (-(fraction.length - (absorb wordLimit w fraction).2.length : Nat)) ⟨rest, ignored⟩ := by
  have hpoint : Text.Stops Char.isDigit ('.' :: (fraction ++ rest)) := by
    rintro _ ⟨⟩
    rfl
  rw [number_apply negative (isWhole_toDigits w) hpoint, absorb_toDigits hw, afterInteger,
    bind_peek?, List.head?_cons, if_pos rfl, bind_fraction hf hends.stops_digits,
    optionalExponent_plain _ _ _ hends, List.length_nil, Nat.cast_zero, zero_sub]

theorem number_point_of_fits {w : Nat} {fraction : List Char}
    (fits : Text.decimal w fraction < wordLimit) (hf : IsDigits fraction) (hends : Ends rest)
    (ignored : Nat) :
    number negative ⟨Nat.toDigits 10 w ++ '.' :: (fraction ++ rest), ignored⟩ =
      scaled negative (Text.decimal w fraction) (-fraction.length) ⟨rest, ignored⟩ := by
  have hw : w < wordLimit := Nat.lt_of_le_of_lt (Text.le_decimal w fraction) fits
  rw [number_point hw hf hends, absorb_eq fits, List.length_nil, Nat.sub_zero]

/-- The text of an exponent scales by the exponent. -/
theorem exponent_exponentText {n : Nat} {start e : Int} (he : e.natAbs < exponentLimit)
    (hends : Ends rest) (ignored : Nat) :
    exponent negative n start ⟨Notation.json.exponentText e ++ rest, ignored⟩ =
      scaled negative n (start + e) ⟨rest, ignored⟩ := by
  have habsorb (k : Nat) (hk : k < exponentLimit) :
      absorb exponentLimit 0 (Nat.toDigits 10 k) = (k, []) := by
    rw [absorb_eq (by rwa [Text.decimal_toDigits]), Text.decimal_toDigits]
  rw [Notation.exponentText]
  split
  · have happly := @exponent_apply _ negative n start 'e' ['-'] rest (.inr (.inr rfl))
      (isDigits_toDigits (-e).toNat) hends.stops_digits ignored
    simp only [List.cons_append, List.nil_append] at happly ⊢
    rw [happly, scaledBy, habsorb _ (by omega)]
    simp only [if_true]
    congr 1
    omega
  · have happly := @exponent_apply _ negative n start 'e' ['+'] rest (.inr (.inl rfl))
      (isDigits_toDigits e.toNat) hends.stops_digits ignored
    have htext : Notation.json.positiveExponent.toList = ['e', '+'] := by decide
    rw [htext]
    simp only [List.cons_append, List.nil_append] at happly ⊢
    rw [happly, scaledBy, habsorb _ (by omega)]
    simp
    congr 1
    omega

/-- A number with an exponent is scaled by it and down by the digits after the point. -/
theorem number_exponent {c : Char} {cs : List Char} (first : c ≠ '0')
    (isDigit : ∀ d ∈ c :: cs, d.isDigit = true) (fits : Text.decimal 0 (c :: cs) < wordLimit) {e : Int}
    (he : e.natAbs < exponentLimit) (hends : Ends rest) (ignored : Nat) :
    number negative ⟨(if cs.isEmpty then [c] else c :: '.' :: cs)
        ++ (Notation.json.exponentText e ++ rest), ignored⟩ =
      scaled negative (Text.decimal 0 (c :: cs)) (e - cs.length) ⟨rest, ignored⟩ := by
  have hexponent {n : Nat} {start : Int} := @exponent_exponentText negative rest n start e he hends
  obtain ⟨tail, htail⟩ : ∃ tail, Notation.json.exponentText e = 'e' :: tail := by
    rw [Notation.exponentText]
    split <;> exact ⟨_, rfl⟩
  rw [htail, List.cons_append] at hexponent ⊢
  have hstop : Text.Stops Char.isDigit ('e' :: (tail ++ rest)) := by
    rintro _ ⟨⟩
    rfl
  obtain ⟨hc, hcs⟩ := List.forall_mem_cons.mp isDigit
  have hwhole : IsWhole [c] := .digits ⟨by simp, by simpa using hc⟩ first
  have hfraction : absorb wordLimit (Text.decimal 0 [c]) cs = (Text.decimal 0 (c :: cs), []) :=
    absorb_eq fits
  have hinteger : absorb wordLimit 0 [c] = (Text.decimal 0 [c], []) :=
    absorb_eq (Nat.lt_of_le_of_lt (Text.le_decimal _ cs) fits)
  -- one digit stands alone, and more of them after a point
  cases cs with
  | nil =>
    rw [List.isEmpty_nil, if_pos rfl, number_apply negative hwhole hstop, hinteger, afterInteger,
      bind_peek?, List.head?_cons, if_neg (by decide), if_pos (.inl rfl), hexponent]
    simp
  | cons d ds =>
    have hpoint : Text.Stops Char.isDigit ('.' :: (d :: ds ++ 'e' :: (tail ++ rest))) := by
      rintro _ ⟨⟩
      rfl
    have htext : (if (d :: ds).isEmpty then [c] else c :: '.' :: d :: ds) ++ 'e' :: (tail ++ rest)
        = [c] ++ '.' :: (d :: ds ++ 'e' :: (tail ++ rest)) := rfl
    rw [htext, number_apply negative hwhole hpoint, hinteger, afterInteger, bind_peek?,
      List.head?_cons, if_pos rfl, bind_fraction ⟨by simp, hcs⟩ hstop, hfraction,
      optionalExponent, bind_peek?, List.head?_cons, if_pos (.inl rfl), hexponent]
    congr 1
    simp
    omega

/-- The text of a double is read as the number in it, scaled. -/
theorem number_magnitude {rank : Nat} (finite : rank < Double.limit) (hends : Ends rest)
    (ignored : Nat) :
    number negative ⟨Notation.json.magnitude rank ++ rest, ignored⟩ =
      scaled negative (Double.digits rank).written.1 (Double.digits rank).written.2
        ⟨rest, ignored⟩ := by
  have hfits : (Double.digits rank).written.1 < wordLimit :=
    (Double.written_le rank).trans_lt (by decide)
  have hvalue := (Double.digits rank).written_value
  have hlays := @Notation.lays_magnitude .json rfl rank
  generalize Notation.json.magnitude rank = text at hlays ⊢
  cases hlays with
  | @point w fraction nonempty isDigit trimmed written =>
    rw [written] at hfits ⊢
    rw [List.append_assoc, List.cons_append]
    exact number_point_of_fits hfits ⟨nonempty, isDigit⟩ hends ignored
  | @exponent c cs first isDigit place written =>
    have hrank : 0 < rank := by
      refine Nat.pos_of_ne_zero fun hzero => place ?_
      rw [hzero]
      decide
    rw [written] at hfits hvalue ⊢
    have hfar := Double.digits_point_lt hrank finite isDigit first hvalue.symm
    rw [List.append_assoc]
    exact number_exponent first isDigit hfits (hfar.trans (by decide)) hends ignored

/-- A double that its text is read as survives. -/
theorem survives_double {x : Double} (h : x.rescaled? = some x) : Survives (.double x) := by
  obtain ⟨z, hz, hx⟩ := Option.map_eq_some_iff.mp h
  have hread {rest : List Char} (hends : Ends rest) (ignored : Nat) :
      number x.negative ⟨Notation.json.magnitude x.rank ++ rest, ignored⟩ =
        .ok (.double x) ⟨rest, ignored⟩ := by
    rw [number_magnitude x.finite hends, scaled, hz]
    show EStateM.Result.ok (Number.double (z.withSign x.negative)) _ = _
    rw [hx]
  have hwrite : (Number.double x).write Notation.json = Notation.json.write x := rfl
  rw [Notation.write_eq] at hwrite
  cases hnegative : x.negative with
  | true =>
    rw [hnegative] at hread
    rw [if_pos hnegative] at hwrite
    exact .negative hwrite hread
  | false =>
    rw [hnegative] at hread
    rw [if_neg (by simp [hnegative])] at hwrite
    obtain ⟨c, cs, hcs, hc⟩ := (@Notation.lays_magnitude .json rfl x.rank).exists_cons
    rw [hcs] at hread
    exact .positive (hwrite.trans hcs) hc hread

end Reader

/-- The text of a double stands for the double that it is read as. -/
theorem numberOf?_write (x : Double) :
    numberOf? (Notation.json.write x) = x.rescaled?.map .double := by
  have hends : Ends [] := Text.stops_nil _
  have hread : (Reader.number x.negative).value? (Notation.json.magnitude x.rank)
      = x.rescaled?.map .double := by
    have happly := @Reader.number_magnitude x.negative [] _ x.finite hends 0
    rw [List.append_nil] at happly
    rw [Reader.value?, happly, Reader.scaled, Double.rescaled?]
    cases scale? (Double.digits x.rank).written.1 (Double.digits x.rank).written.2 <;> rfl
  rw [Notation.write_eq, numberOf?]
  cases hnegative : x.negative with
  | true => rw [if_pos rfl, List.head?_cons, if_pos rfl, List.tail_cons, ← hnegative, hread]
  | false =>
    obtain ⟨c, cs, hcs, hc⟩ := (@Notation.lays_magnitude .json rfl x.rank).exists_cons
    have hpositive : (Notation.json.magnitude x.rank).head? ≠ some '-' := by
      rw [hcs, List.head?_cons]
      exact fun h => Text.ne_of_isDigit hc (by decide) (Option.some.inj h)
    simp only [Bool.false_eq_true, if_false]
    rw [if_neg hpositive, ← hnegative, hread]

/-- A double is read back if the digits in its text make a double too and its power of ten is one. -/
theorem rescaled?_eq {x : Double}
    (exact : ∃ r, Double.value r = ((Double.digits x.rank).written.1 : ℚ))
    (power : (Double.digits x.rank).written.2.natAbs ≤ 22) : x.rescaled? = some x := by
  have hword : (Double.digits x.rank).written.1 < wordLimit :=
    (Double.written_le x.rank).trans_lt (by decide)
  have hrounds := (Double.digits_spec x.rank).1
  rw [← Digits.written_value] at hrounds
  rw [Double.rescaled?, scale?_eq hword exact power hrounds x.finite]
  rfl

end Json

end ApiSurface
