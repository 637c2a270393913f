/-
Numbers of the grammar, read and stepped over.

On a spelled number a reader has one outcome, a value or a failure, whatever follows
(`exists_means_number`); stepping over it always succeeds (`skipNumber_ok`). A reader that
succeeds has taken a spelled number away (`isMagnitude_of_number`, `isMagnitude_of_skipNumber`).
-/
import ApiSurface.Proofs.Json.Grammar
import ApiSurface.Proofs.Json.Outcome

namespace ApiSurface.Json

/-! ### Where the parts of a number stop -/

section Stops

variable {cs fraction exponent rest : List Char}

theorem IsDigits.exists_cons (h : IsDigits cs) : ∃ c ds, cs = c :: ds ∧ c.isDigit = true := by
  obtain ⟨c, ds, rfl⟩ := List.exists_cons_of_ne_nil h.nonempty
  exact ⟨c, ds, rfl, h.digits c List.mem_cons_self⟩

theorem IsDigits.isEmpty (h : IsDigits cs) : cs.isEmpty = false := by
  rw [List.isEmpty_eq_false_iff]
  exact h.nonempty

theorem IsDigits.head?_ne_sign (h : IsDigits cs) {sign : List Char} (hs : sign = []) :
    (sign ++ (cs ++ rest)).head? ≠ some '+' ∧ (sign ++ (cs ++ rest)).head? ≠ some '-' := by
  obtain ⟨c, ds, rfl, hc⟩ := h.exists_cons
  subst hs
  constructor <;> rintro ⟨⟩ <;> exact absurd hc (by decide)

theorem IsExponent.stops_digits (h : IsExponent exponent) (hends : Ends rest) :
    Text.Stops Char.isDigit (exponent ++ rest) := by
  cases h with
  | none => exact hends.stops_digits
  | digits letter _ _ =>
    rintro _ ⟨⟩
    obtain rfl | rfl := letter <;> rfl

theorem IsFraction.stops_digits (hf : IsFraction fraction) (he : IsExponent exponent)
    (hends : Ends rest) : Text.Stops Char.isDigit (fraction ++ (exponent ++ rest)) := by
  cases hf with
  | none => exact he.stops_digits hends
  | digits _ =>
    rintro _ ⟨⟩
    rfl

/-- Without a fraction no point follows the integer part. -/
theorem IsExponent.head?_ne_point (h : IsExponent exponent) (hends : Ends rest) :
    (exponent ++ rest).head? ≠ some '.' := by
  cases h with
  | none => exact hends.head?_ne (by decide)
  | digits letter _ _ =>
    obtain rfl | rfl := letter <;> simp

end Stops

namespace Reader

/-! ### Numbers that are read -/

section Numbers

variable {α β : Type} {cs : List Char} {negative : Bool} {n : Nat} {start : Int}

theorem bind_peek? (cs : List Char) (ignored : Nat) (k : Option Char → Reader β) :
    (peek? >>= k) ⟨cs, ignored⟩ = k cs.head? ⟨cs, ignored⟩ := rfl

/-- A run of digits is taken whole. -/
theorem bind_takeWhile_digits (h : ∀ c ∈ cs, c.isDigit = true) {rest : List Char}
    (hs : Text.Stops Char.isDigit rest) (ignored : Nat) (k : List Char → Reader β) :
    (takeWhile Char.isDigit >>= k) ⟨cs ++ rest, ignored⟩ = k cs ⟨rest, ignored⟩ := by
  show k ((cs ++ rest).takeWhile Char.isDigit) ⟨(cs ++ rest).dropWhile Char.isDigit, ignored⟩ = _
  rw [Text.takeWhile_append h hs, Text.dropWhile_append h hs]

theorem bind_takeWhile_nil {rest : List Char} (hs : Text.Stops Char.isDigit rest) (ignored : Nat)
    (k : List Char → Reader β) :
    (takeWhile Char.isDigit >>= k) ⟨rest, ignored⟩ = k [] ⟨rest, ignored⟩ :=
  bind_takeWhile_digits (List.forall_mem_nil _) hs ignored k

/-- A word is scaled, or is out of range. -/
theorem means_scaled (negative : Bool) (n : Nat) (e : Int) :
    Means (scaled negative n e) [] ((scale? n e).map fun x => .double (x.withSign negative)) := by
  unfold scaled
  intro rest ignored _
  cases scale? n e with
  | some x => exact .ok _ ignored
  | none => exact .error _ _

/-- Fails at the digits of an exponent that is too large. -/
def failLate (late : List Char) : Reader Number := fun s =>
  .error ⟨.fault .numberOutOfRange, some ⟨late ++ s.rest, 0⟩⟩ s

/-- What becomes of a number by the digits of its exponent, which is negative or not. -/
def scaledBy (negative : Bool) (n : Nat) (start : Int) (below : Prop) [Decidable below]
    (digits : List Char) : Reader Number :=
  match absorb exponentLimit 0 digits with
  | (e, []) => scaled negative n (if below then start - e else start + e)
  | (_, _ :: late) =>
    if n = 0 ∨ below then pure (.double (Double.zero negative)) else failLate late

theorem exists_means_scaledBy (negative : Bool) (n : Nat) (start : Int) (below : Prop)
    [Decidable below] (digits : List Char) :
    ∃ o, Means (scaledBy negative n start below digits) [] o := by
  unfold scaledBy
  obtain ⟨e, _ | ⟨c, late⟩⟩ := absorb exponentLimit 0 digits
  · exact ⟨_, means_scaled negative n _⟩
  · by_cases h : n = 0 ∨ below
    · simp only [if_pos h]
      exact ⟨some _, fun rest ignored _ => .ok _ ignored⟩
    · simp only [if_neg h]
      exact ⟨none, fun rest ignored _ => .error _ _⟩

/-- An exponent is read from its letter, its sign and its digits. -/
theorem exponent_apply {e : Char} {sign rest : List Char}
    (hs : sign = [] ∨ sign = ['+'] ∨ sign = ['-']) (h : IsDigits cs)
    (hstop : Text.Stops Char.isDigit rest) (ignored : Nat) :
    exponent negative n start ⟨e :: (sign ++ (cs ++ rest)), ignored⟩ =
      scaledBy negative n start (sign = ['-']) cs ⟨rest, ignored⟩ := by
  obtain ⟨c, ds, rfl, hc⟩ := h.exists_cons
  have hplus : c ≠ '+' := Text.ne_of_isDigit hc (by decide)
  have hminus : c ≠ '-' := Text.ne_of_isDigit hc (by decide)
  have hrun := bind_takeWhile_digits (β := Number) h.digits hstop ignored
  rw [exponent, bind_skip, bind_peek?, scaledBy]
  -- without a sign the first digit is seen where the sign would be
  obtain rfl | rfl | rfl := hs
  · have head : (c :: ds ++ rest).head? = some c := rfl
    simp only [List.nil_append, head, Option.some.injEq, hplus, hminus, or_self, if_false]
    rw [hrun]
    obtain ⟨k, _ | ⟨d, late⟩⟩ := absorb exponentLimit 0 (c :: ds)
    · simp
    · show (if n = 0 ∨ _ then _ else failLate late) _ = _
      simp
  · have head : (['+'] ++ (c :: ds ++ rest)).head? = some '+' := rfl
    simp only [head, true_or, if_true]
    rw [List.singleton_append, bind_skip, hrun]
    obtain ⟨k, _ | ⟨d, late⟩⟩ := absorb exponentLimit 0 (c :: ds)
    · simp
    · show (if n = 0 ∨ _ then _ else failLate late) _ = _
      simp
  · have head : (['-'] ++ (c :: ds ++ rest)).head? = some '-' := rfl
    simp only [head, or_true, if_true]
    rw [List.singleton_append, bind_skip, hrun]
    obtain ⟨k, _ | ⟨d, late⟩⟩ := absorb exponentLimit 0 (c :: ds) <;> simp

theorem exists_means_exponent (negative : Bool) (n : Nat) (start : Int) {e : Char} {sign : List Char}
    (hs : sign = [] ∨ sign = ['+'] ∨ sign = ['-']) (h : IsDigits cs) :
    ∃ o, Means (exponent negative n start) (e :: (sign ++ cs)) o := by
  obtain ⟨o, ho⟩ := exists_means_scaledBy negative n start (sign = ['-']) cs
  refine ⟨o, fun rest ignored hends => ?_⟩
  rw [List.cons_append, List.append_assoc, exponent_apply hs h hends.stops_digits]
  exact ho rest ignored hends

theorem optionalExponent_plain (negative : Bool) (n : Nat) (start : Int) {rest : List Char}
    (h : Ends rest) (ignored : Nat) :
    optionalExponent negative n start ⟨rest, ignored⟩ = scaled negative n start ⟨rest, ignored⟩ := by
  have hletter := not_or.mpr ⟨h.head?_ne (c := 'e') (by decide), h.head?_ne (c := 'E') (by decide)⟩
  rw [optionalExponent, bind_peek?, if_neg hletter]

theorem exists_means_optionalExponent (negative : Bool) (n : Nat) (start : Int)
    (h : IsExponent cs) :
    ∃ o, Means (optionalExponent negative n start) cs o := by
  cases h with
  | none =>
    obtain ⟨o, ho⟩ : ∃ o, Means (scaled negative n start) [] o := ⟨_, means_scaled negative n start⟩
    refine ⟨o, fun rest ignored hends => ?_⟩
    rw [List.nil_append, optionalExponent_plain negative n start hends]
    exact ho rest ignored hends
  | digits letter hs h =>
    obtain ⟨o, ho⟩ := exists_means_exponent negative n start hs h
    refine ⟨o, fun rest ignored hends => ?_⟩
    rw [optionalExponent, bind_peek?, List.cons_append, List.head?_cons,
      if_pos (letter.imp (congrArg some) (congrArg some))]
    exact ho rest ignored hends

/-- A fraction is read from its point and its digits. -/
theorem bind_fraction (h : IsDigits cs) {rest : List Char} (hs : Text.Stops Char.isDigit rest)
    (ignored : Nat) :
    fraction negative n start ⟨'.' :: (cs ++ rest), ignored⟩ =
      optionalExponent negative (absorb wordLimit n cs).1
        (start - (cs.length - (absorb wordLimit n cs).2.length : Nat)) ⟨rest, ignored⟩ := by
  rw [fraction, bind_skip, bind_takeWhile_digits h.digits hs, h.isEmpty]
  rfl

theorem afterInteger_plain (negative : Bool) (n late : Nat) {rest : List Char} (h : Ends rest)
    (ignored : Nat) :
    afterInteger negative n late ⟨rest, ignored⟩ =
      (if late = 0 then
        match WordInt.ofInt? (if negative then -(n : Int) else n) with
        | some i => if negative ∧ n = 0 then scaled true 0 0 else pure (.integer i)
        | none => scaled negative n 0
      else scaled negative n late) ⟨rest, ignored⟩ := by
  have hletter := not_or.mpr ⟨h.head?_ne (c := 'e') (by decide), h.head?_ne (c := 'E') (by decide)⟩
  have hpoint := h.head?_ne (c := '.') (by decide)
  cases hi : WordInt.ofInt? (if negative then -(n : Int) else n) <;>
    simp only [afterInteger, bind_peek?, if_neg hpoint, if_neg hletter, hi]

theorem exists_means_afterInteger (negative : Bool) (n late : Nat)
    {fraction exponent : List Char} (hf : IsFraction fraction) (he : IsExponent exponent) :
    ∃ o, Means (afterInteger negative n late) (fraction ++ exponent) o := by
  cases hf with
  | digits h =>
    rename_i ds
    obtain ⟨o, ho⟩ := exists_means_optionalExponent negative (absorb wordLimit n ds).1
      (late - (ds.length - (absorb wordLimit n ds).2.length : Nat)) he
    refine ⟨o, fun rest ignored hends => ?_⟩
    rw [afterInteger, bind_peek?, List.cons_append, List.cons_append, List.append_assoc,
      List.head?_cons, if_pos rfl, bind_fraction h (he.stops_digits hends)]
    exact ho rest ignored hends
  | none =>
    cases he with
    | digits letter hs h =>
      obtain ⟨o, ho⟩ := exists_means_exponent negative n late hs h
      refine ⟨o, fun rest ignored hends => ?_⟩
      have hpoint := (IsExponent.digits letter hs h).head?_ne_point hends
      rw [afterInteger, bind_peek?, List.nil_append, if_neg hpoint, List.cons_append,
        List.head?_cons, if_pos (letter.imp (congrArg some) (congrArg some))]
      exact ho rest ignored hends
    | none =>
      -- Without a fraction and an exponent the number is an integer if it fits a word.
      obtain ⟨o, ho⟩ : ∃ o, Means (scaled negative n late) [] o := ⟨_, means_scaled negative n late⟩
      obtain ⟨z, hz⟩ : ∃ o, Means (scaled true 0 0) [] o := ⟨_, means_scaled true 0 0⟩
      have plain (rest : List Char) (ignored : Nat) (hends : Ends rest) :=
        afterInteger_plain negative n late hends ignored
      by_cases hl : late = 0
      · subst hl
        simp only [if_true] at plain
        cases hi : WordInt.ofInt? (if negative then -(n : Int) else n) with
        | none =>
          simp only [hi] at plain
          exact ⟨o, fun rest ignored hends => (plain rest ignored hends).symm ▸ ho rest ignored hends⟩
        | some i =>
          simp only [hi] at plain
          by_cases hz' : negative = true ∧ n = 0
          · simp only [if_pos hz'] at plain
            exact ⟨z, fun rest ignored hends =>
              (plain rest ignored hends).symm ▸ hz rest ignored hends⟩
          · simp only [if_neg hz'] at plain
            exact ⟨some (.integer i), fun rest ignored hends =>
              (plain rest ignored hends).symm ▸ .ok _ ignored⟩
      · simp only [if_neg hl] at plain
        exact ⟨o, fun rest ignored hends => (plain rest ignored hends).symm ▸ ho rest ignored hends⟩

/-- The integer digits are taken in as far as a word holds them. -/
theorem number_apply (negative : Bool) {whole rest : List Char} (hw : IsWhole whole)
    (hs : Text.Stops Char.isDigit rest) (ignored : Nat) :
    number negative ⟨whole ++ rest, ignored⟩ =
      afterInteger negative (absorb wordLimit 0 whole).1 (absorb wordLimit 0 whole).2.length
        ⟨rest, ignored⟩ := by
  cases hw with
  | zero =>
    rw [number, bind_peek?, List.singleton_append, List.head?_cons]
    simp only [if_true, bind_skip, bind_peek?]
    cases hhead : rest.head? with
    | none => rfl
    | some d =>
      simp only [hs d hhead]
      rfl
  | @digits c ds hd first =>
    have hc : c.isDigit = true := hd.digits c List.mem_cons_self
    rw [number, bind_peek?, List.cons_append, List.head?_cons]
    simp only [if_neg first, if_pos hc]
    rw [← List.cons_append, bind_takeWhile_digits hd.digits hs]

/-- On a number a reader has one outcome, whatever follows it. -/
theorem exists_means_number (negative : Bool) (h : IsMagnitude cs) :
    ∃ o, Means (number negative) cs o := by
  obtain ⟨hw, hf, he⟩ := h
  rename_i whole fraction exponent
  obtain ⟨o, ho⟩ := exists_means_afterInteger negative (absorb wordLimit 0 whole).1
    (absorb wordLimit 0 whole).2.length hf he
  refine ⟨o, fun rest ignored hends => ?_⟩
  have hgives := ho rest ignored hends
  rw [List.append_assoc] at hgives
  rw [List.append_assoc, List.append_assoc, number_apply negative hw (hf.stops_digits he hends)]
  exact hgives

end Numbers

/-! ### Numbers that are stepped over -/

section Skipping

variable {cs rest : List Char}

/-- An exponent is stepped over if it has digits. -/
theorem skipExponent_apply {e : Char} {sign rest : List Char}
    (hs : sign = [] ∧ (sign ++ (cs ++ rest)).head? ≠ some '+' ∧
      (sign ++ (cs ++ rest)).head? ≠ some '-' ∨ sign = ['+'] ∨ sign = ['-'])
    (hd : ∀ c ∈ cs, c.isDigit = true) (hstop : Text.Stops Char.isDigit rest) (ignored : Nat) :
    skipExponent ⟨e :: (sign ++ (cs ++ rest)), ignored⟩ =
      (if cs.isEmpty then failAhead .invalidNumber else pure ()) ⟨rest, ignored⟩ := by
  have hrun := bind_takeWhile_digits (β := Unit) hd hstop ignored
  rw [skipExponent, bind_skip, bind_peek?]
  obtain ⟨rfl, hplus, hminus⟩ | rfl | rfl := hs
  · simp only [if_neg (not_or.mpr ⟨hplus, hminus⟩)]
    rw [List.nil_append, hrun]
  · have head : (['+'] ++ (cs ++ rest)).head? = some '+' := rfl
    simp only [head, true_or, if_true]
    rw [List.singleton_append, bind_skip, hrun]
  · have head : (['-'] ++ (cs ++ rest)).head? = some '-' := rfl
    simp only [head, or_true, if_true]
    rw [List.singleton_append, bind_skip, hrun]

theorem skipExponent_ok {e : Char} {sign : List Char}
    (hs : sign = [] ∨ sign = ['+'] ∨ sign = ['-']) (h : IsDigits cs) (hends : Ends rest)
    (ignored : Nat) :
    skipExponent ⟨e :: (sign ++ (cs ++ rest)), ignored⟩ = .ok () ⟨rest, ignored⟩ := by
  have hs' : sign = [] ∧ (sign ++ (cs ++ rest)).head? ≠ some '+' ∧
      (sign ++ (cs ++ rest)).head? ≠ some '-' ∨ sign = ['+'] ∨ sign = ['-'] :=
    hs.imp_left fun hnil => ⟨hnil, h.head?_ne_sign hnil⟩
  rw [skipExponent_apply hs' h.digits hends.stops_digits, h.isEmpty]
  rfl

theorem skipOptionalExponent_ok (h : IsExponent cs) (hends : Ends rest) (ignored : Nat) :
    skipOptionalExponent ⟨cs ++ rest, ignored⟩ = .ok () ⟨rest, ignored⟩ := by
  cases h with
  | none =>
    have hhead := not_or.mpr ⟨hends.head?_ne (c := 'e') (by decide),
      hends.head?_ne (c := 'E') (by decide)⟩
    rw [skipOptionalExponent, bind_peek?, List.nil_append, if_neg hhead]
    rfl
  | digits letter hs h =>
    rw [skipOptionalExponent, bind_peek?, List.cons_append, List.append_assoc, List.head?_cons,
      if_pos (letter.imp (congrArg some) (congrArg some))]
    exact skipExponent_ok hs h hends ignored

theorem skipAfterInteger_ok {fraction exponent : List Char} (hf : IsFraction fraction)
    (he : IsExponent exponent) (hends : Ends rest) (ignored : Nat) :
    skipAfterInteger ⟨fraction ++ (exponent ++ rest), ignored⟩ = .ok () ⟨rest, ignored⟩ := by
  have hskip := skipOptionalExponent_ok he hends ignored
  cases hf with
  | none =>
    rw [skipAfterInteger, bind_peek?, List.nil_append, if_neg (he.head?_ne_point hends)]
    exact hskip
  | digits h =>
    rw [skipAfterInteger, bind_peek?, List.cons_append, List.head?_cons, if_pos rfl, bind_skip,
      bind_takeWhile_digits h.digits (he.stops_digits hends), h.isEmpty]
    exact hskip

/-- A number is stepped over, whatever its size. -/
theorem skipNumber_ok (h : IsMagnitude cs) (hends : Ends rest) (ignored : Nat) :
    skipNumber ⟨cs ++ rest, ignored⟩ = .ok () ⟨rest, ignored⟩ := by
  obtain ⟨hw, hf, he⟩ := h
  have hskip := skipAfterInteger_ok hf he hends ignored
  have hstop := hf.stops_digits he hends
  rw [List.append_assoc, List.append_assoc, skipNumber, bind_peek?]
  cases hw with
  | zero =>
    rw [List.singleton_append, List.head?_cons]
    simp only [if_true, bind_skip, bind_peek?]
    cases hhead : (_ ++ (_ ++ rest)).head? with
    | none => exact hskip
    | some d =>
      simp only [hstop d hhead]
      exact hskip
  | @digits c ds hd first =>
    have hc : c.isDigit = true := hd.digits c List.mem_cons_self
    rw [List.cons_append, List.head?_cons]
    simp only [if_neg first, if_pos hc]
    rw [← List.cons_append, bind_takeWhile_digits hd.digits hstop]
    exact hskip

end Skipping

/-! ### What a number that was read is spelled like -/

section Spelling

variable {negative : Bool} {n : Nat} {start : Int} {x : Number} {s s' : State}

theorem eq_of_scaled (h : scaled negative n start s = .ok x s') : s' = s := by
  rw [scaled] at h
  cases hx : scale? n start <;> rw [hx] at h <;> cases h
  rfl

theorem eq_of_scaledBy {below : Prop} [Decidable below] {digits : List Char}
    (h : scaledBy negative n start below digits s = .ok x s') : s' = s := by
  unfold scaledBy at h
  generalize absorb exponentLimit 0 digits = a at h
  obtain ⟨k, _ | ⟨d, late⟩⟩ := a
  · exact eq_of_scaled h
  · by_cases hn : n = 0 ∨ below
    · simp only [if_pos hn] at h
      cases h
      rfl
    · simp only [if_neg hn] at h
      cases h

/-- A run of digits is taken, if any. -/
theorem exists_digits {text run : List Char} {ignored : Nat} {t : State}
    (h : takeWhile Char.isDigit ⟨text, ignored⟩ = .ok run t) (hne : run ≠ []) :
    IsDigits run ∧ text = run ++ t.rest := by
  cases h
  exact ⟨⟨hne, List.all_eq_true.mp List.all_takeWhile⟩, List.takeWhile_append_dropWhile.symm⟩

/-- A text is a sign, or none, the digits after it, or none, and what follows. -/
theorem exists_sign_digits (text : List Char) :
    ∃ sign cs rest, text = sign ++ (cs ++ rest) ∧
      (sign = [] ∧ text.head? ≠ some '+' ∧ text.head? ≠ some '-' ∨ sign = ['+'] ∨ sign = ['-']) ∧
      (∀ c ∈ cs, c.isDigit = true) ∧ Text.Stops Char.isDigit rest := by
  by_cases h : text.head? = some '+' ∨ text.head? = some '-'
  · cases text with
    | nil => simp at h
    | cons c tail =>
      obtain ⟨cs, rest, rfl, hd, hstop⟩ := Text.exists_run Char.isDigit tail
      refine ⟨[c], cs, rest, rfl, .inr ?_, hd, hstop⟩
      simpa using h
  · obtain ⟨cs, rest, rfl, hd, hstop⟩ := Text.exists_run Char.isDigit text
    exact ⟨[], cs, rest, rfl, .inl ⟨rfl, not_or.mp h⟩, hd, hstop⟩

/-- An exponent has digits. -/
theorem exponent_ne_ok {e : Char} {sign rest : List Char}
    (hs : sign = [] ∧ (sign ++ rest).head? ≠ some '+' ∧ (sign ++ rest).head? ≠ some '-' ∨
      sign = ['+'] ∨ sign = ['-'])
    (hstop : Text.Stops Char.isDigit rest) (ignored : Nat) :
    exponent negative n start ⟨e :: (sign ++ rest), ignored⟩ ≠ .ok x s' := by
  intro h
  have hrun := bind_takeWhile_nil (β := Number) hstop ignored
  rw [exponent, bind_skip, bind_peek?] at h
  obtain ⟨rfl, hplus, hminus⟩ | rfl | rfl := hs
  · simp only [if_neg (not_or.mpr ⟨hplus, hminus⟩)] at h
    rw [List.nil_append, hrun, List.isEmpty_nil, if_pos rfl] at h
    obtain ⟨c, t, -, h⟩ := bind_eq_ok.mp h
    cases c <;> cases h
  · have head : (['+'] ++ rest).head? = some '+' := rfl
    simp only [head, true_or, if_true] at h
    rw [List.singleton_append, bind_skip, hrun, List.isEmpty_nil, if_pos rfl] at h
    obtain ⟨c, t, -, h⟩ := bind_eq_ok.mp h
    cases c <;> cases h
  · have head : (['-'] ++ rest).head? = some '-' := rfl
    simp only [head, or_true, if_true] at h
    rw [List.singleton_append, bind_skip, hrun, List.isEmpty_nil, if_pos rfl] at h
    obtain ⟨c, t, -, h⟩ := bind_eq_ok.mp h
    cases c <;> cases h

theorem isExponent_of_exponent {c : Char} (letter : c = 'e' ∨ c = 'E') {text : List Char}
    {ignored : Nat} (h : exponent negative n start ⟨c :: text, ignored⟩ = .ok x s') :
    ∃ cs, c :: text = cs ++ s'.rest ∧ IsExponent cs := by
  obtain ⟨sign, cs, rest, rfl, hs, hd, hstop⟩ := exists_sign_digits text
  by_cases hcs : cs = []
  · subst hcs
    exact absurd h (exponent_ne_ok hs hstop ignored)
  · have hs' : sign = [] ∨ sign = ['+'] ∨ sign = ['-'] := hs.imp_left And.left
    rw [exponent_apply hs' ⟨hcs, hd⟩ hstop] at h
    obtain rfl := eq_of_scaledBy h
    exact ⟨c :: (sign ++ cs), by simp, .digits letter hs' ⟨hcs, hd⟩⟩

theorem isExponent_of_optionalExponent (h : optionalExponent negative n start s = .ok x s') :
    ∃ cs, s.rest = cs ++ s'.rest ∧ IsExponent cs := by
  obtain ⟨text, ignored⟩ := s
  rw [optionalExponent, bind_peek?] at h
  by_cases hhead : text.head? = some 'e' ∨ text.head? = some 'E'
  · rw [if_pos hhead] at h
    cases text with
    | nil => simp at hhead
    | cons c text => exact isExponent_of_exponent (by simpa using hhead) h
  · rw [if_neg hhead] at h
    obtain rfl := eq_of_scaled h
    exact ⟨[], rfl, .none⟩

theorem isFraction_of_fraction {text : List Char} {ignored : Nat}
    (h : fraction negative n start ⟨'.' :: text, ignored⟩ = .ok x s') :
    ∃ fraction exponent, '.' :: text = fraction ++ (exponent ++ s'.rest) ∧
      IsFraction fraction ∧ IsExponent exponent := by
  obtain ⟨cs, rest, rfl, hd, hstop⟩ := Text.exists_run Char.isDigit text
  by_cases hcs : cs = []
  · subst hcs
    have hrun := bind_takeWhile_nil (β := Number) hstop ignored
    rw [List.nil_append, fraction, bind_skip, hrun, List.isEmpty_nil, if_pos rfl] at h
    obtain ⟨c, t, -, h⟩ := bind_eq_ok.mp h
    cases c <;> cases h
  · rw [bind_fraction ⟨hcs, hd⟩ hstop] at h
    obtain ⟨exponent, hrest, he⟩ := isExponent_of_optionalExponent h
    exact ⟨'.' :: cs, exponent, by simpa using hrest, .digits ⟨hcs, hd⟩, he⟩

theorem exists_fraction_of_afterInteger {late : Nat}
    (h : afterInteger negative n late s = .ok x s') :
    ∃ fraction exponent, s.rest = fraction ++ (exponent ++ s'.rest) ∧
      IsFraction fraction ∧ IsExponent exponent := by
  obtain ⟨text, ignored⟩ := s
  rw [afterInteger, bind_peek?] at h
  by_cases hpoint : text.head? = some '.'
  · rw [if_pos hpoint] at h
    cases text with
    | nil => simp at hpoint
    | cons c text =>
      obtain rfl : c = '.' := by simpa using hpoint
      exact isFraction_of_fraction h
  rw [if_neg hpoint] at h
  by_cases hhead : text.head? = some 'e' ∨ text.head? = some 'E'
  · rw [if_pos hhead] at h
    cases text with
    | nil => simp at hhead
    | cons c text =>
      obtain ⟨cs, hcs, he⟩ := isExponent_of_exponent (by simpa using hhead) h
      exact ⟨[], cs, hcs, .none, he⟩
  rw [if_neg hhead] at h
  -- Nothing more is taken away.
  have hend : s' = ⟨text, ignored⟩ := by
    by_cases hl : late = 0
    · rw [if_pos hl] at h
      cases hi : WordInt.ofInt? (if negative then -(n : Int) else n) with
      | none =>
        rw [hi] at h
        exact eq_of_scaled h
      | some i =>
        rw [hi] at h
        by_cases hz : negative = true ∧ n = 0
        · simp only [if_pos hz] at h
          exact eq_of_scaled h
        · simp only [if_neg hz] at h
          cases h
          rfl
    · rw [if_neg hl] at h
      exact eq_of_scaled h
  exact ⟨[], [], by rw [hend]; rfl, .none, .none⟩

/-- A number that was read is spelled like one. -/
theorem isMagnitude_of_number (h : number negative s = .ok x s') :
    ∃ cs, s.rest = cs ++ s'.rest ∧ IsMagnitude cs := by
  obtain ⟨text, ignored⟩ := s
  rw [number, bind_peek?] at h
  cases text with
  | nil => cases h
  | cons c text =>
    simp only [List.head?_cons] at h
    by_cases hzero : c = '0'
    · subst hzero
      simp only [if_true] at h
      rw [bind_skip, bind_peek?] at h
      -- a zero before another digit is refused
      have hafter : afterInteger negative 0 0 ⟨text, ignored⟩ = .ok x s' := by
        cases hhead : text.head? with
        | none =>
          rw [hhead] at h
          exact h
        | some d =>
          rw [hhead] at h
          by_cases hd : d.isDigit = true
          · simp only [if_pos hd] at h
            cases h
          · simpa only [if_neg hd] using h
      obtain ⟨fraction, exponent, hrest, hf, he⟩ := exists_fraction_of_afterInteger hafter
      exact ⟨_, by simpa using hrest, .parts .zero hf he⟩
    · simp only [if_neg hzero] at h
      by_cases hc : c.isDigit = true
      · simp only [if_pos hc] at h
        obtain ⟨run, t, hrun, h⟩ := bind_eq_ok.mp h
        have hne : run ≠ [] := by
          cases hrun
          simp [hc]
        obtain ⟨hd, htext⟩ := exists_digits hrun hne
        obtain ⟨d, ds, rfl⟩ := List.exists_cons_of_ne_nil hne
        obtain ⟨rfl, -⟩ := List.cons.inj htext
        obtain ⟨fraction, exponent, hrest, hf, he⟩ := exists_fraction_of_afterInteger h
        exact ⟨_, by simp [htext, hrest], .parts (.digits hd hzero) hf he⟩
      · simp only [if_neg hc] at h
        cases h

theorem isExponent_of_skipExponent {c : Char} (letter : c = 'e' ∨ c = 'E') {text : List Char}
    {ignored : Nat} (h : skipExponent ⟨c :: text, ignored⟩ = .ok () s') :
    ∃ cs, c :: text = cs ++ s'.rest ∧ IsExponent cs := by
  obtain ⟨sign, cs, rest, rfl, hs, hd, hstop⟩ := exists_sign_digits text
  rw [skipExponent_apply hs hd hstop] at h
  cases cs with
  | nil => cases h
  | cons d ds =>
    cases h
    exact ⟨c :: (sign ++ d :: ds), by simp, .digits letter (hs.imp_left And.left) ⟨nofun, hd⟩⟩

theorem isExponent_of_skipOptionalExponent (h : skipOptionalExponent s = .ok () s') :
    ∃ cs, s.rest = cs ++ s'.rest ∧ IsExponent cs := by
  obtain ⟨text, ignored⟩ := s
  rw [skipOptionalExponent, bind_peek?] at h
  by_cases hhead : text.head? = some 'e' ∨ text.head? = some 'E'
  · rw [if_pos hhead] at h
    cases text with
    | nil => simp at hhead
    | cons c text => exact isExponent_of_skipExponent (by simpa using hhead) h
  · rw [if_neg hhead] at h
    cases h
    exact ⟨[], rfl, .none⟩

theorem exists_fraction_of_skipAfterInteger (h : skipAfterInteger s = .ok () s') :
    ∃ fraction exponent, s.rest = fraction ++ (exponent ++ s'.rest) ∧
      IsFraction fraction ∧ IsExponent exponent := by
  obtain ⟨text, ignored⟩ := s
  rw [skipAfterInteger, bind_peek?] at h
  by_cases hpoint : text.head? = some '.'
  · rw [if_pos hpoint] at h
    cases text with
    | nil => simp at hpoint
    | cons c text =>
      obtain rfl : c = '.' := by simpa using hpoint
      rw [bind_skip] at h
      obtain ⟨run, t, hrun, hexponent⟩ := bind_eq_ok.mp h
      by_cases hne : run = []
      · subst hne
        cases hexponent
      · rw [List.isEmpty_eq_false_iff.mpr hne] at hexponent
        obtain ⟨hd, rfl⟩ := exists_digits hrun hne
        obtain ⟨exponent, hrest, he⟩ := isExponent_of_skipOptionalExponent hexponent
        exact ⟨'.' :: run, exponent, by simp [hrest], .digits hd, he⟩
  · rw [if_neg hpoint] at h
    obtain ⟨exponent, hrest, he⟩ := isExponent_of_skipOptionalExponent h
    exact ⟨[], exponent, hrest, .none, he⟩

/-- A number that was stepped over is spelled like one. -/
theorem isMagnitude_of_skipNumber (h : skipNumber s = .ok () s') :
    ∃ cs, s.rest = cs ++ s'.rest ∧ IsMagnitude cs := by
  obtain ⟨text, ignored⟩ := s
  rw [skipNumber, bind_peek?] at h
  cases text with
  | nil => cases h
  | cons c text =>
    simp only [List.head?_cons] at h
    by_cases hzero : c = '0'
    · subst hzero
      simp only [if_true] at h
      rw [bind_skip, bind_peek?] at h
      -- a zero before another digit is refused
      have hafter : skipAfterInteger ⟨text, ignored⟩ = .ok () s' := by
        cases hhead : text.head? with
        | none =>
          rw [hhead] at h
          exact h
        | some d =>
          rw [hhead] at h
          by_cases hd : d.isDigit = true
          · simp only [if_pos hd] at h
            cases h
          · simpa only [if_neg hd] using h
      obtain ⟨fraction, exponent, hrest, hf, he⟩ := exists_fraction_of_skipAfterInteger hafter
      exact ⟨_, by simpa using hrest, .parts .zero hf he⟩
    · simp only [if_neg hzero] at h
      by_cases hc : c.isDigit = true
      · simp only [if_pos hc] at h
        obtain ⟨run, t, hrun, h⟩ := bind_eq_ok.mp h
        have hne : run ≠ [] := by
          cases hrun
          simp [hc]
        obtain ⟨hd, htext⟩ := exists_digits hrun hne
        obtain ⟨d, ds, rfl⟩ := List.exists_cons_of_ne_nil hne
        obtain ⟨rfl, -⟩ := List.cons.inj htext
        obtain ⟨fraction, exponent, hrest, hf, he⟩ := exists_fraction_of_skipAfterInteger h
        exact ⟨_, by simp [htext, hrest], .parts (.digits hd hzero) hf he⟩
      · simp only [if_neg hc] at h
        cases h

end Spelling

end Reader

end ApiSurface.Json
