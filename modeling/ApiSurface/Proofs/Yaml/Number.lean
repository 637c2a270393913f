/-
Plain scalars that are numbers.

A text with a digit in it names no absent value and no flag, and digits that go on with a point or an
exponent are no integer (`IsPointed.integer?`). So what is written for an integer or a double is read as
that number (`ofPlain_write`), and as a plain scalar it may stand anywhere (`writable_number`).
-/
import ApiSurface.Proofs.Decimal.Literal
import ApiSurface.Proofs.Yaml.Scalar
import ApiSurface.Proofs.Yaml.Written

namespace ApiSurface.Yaml.Scalar

/-! ### Names of other values -/

theorem isEmpty_of_toList {s : String} (h : s.toList ≠ []) : s.isEmpty = false := by
  cases hs : s.isEmpty with
  | false => rfl
  | true => exact absurd (by simp_all) h

/-- A text with a digit is no name without one. -/
theorem contains_of_isDigit {cs : List Char} (h : ∃ c ∈ cs, c.isDigit = true) {names : List String}
    (hnames : ∀ s ∈ names, s.toList.all (fun c => !c.isDigit) = true) :
    names.contains (String.ofList cs) = false := by
  rw [← Bool.not_eq_true, List.contains_iff_mem]
  intro hmem
  obtain ⟨c, hc, hdigit⟩ := h
  have hall := List.all_eq_true.mp (hnames _ hmem) c (by rwa [String.toList_ofList])
  rw [hdigit] at hall
  cases hall

/-- What a text with a digit stands for depends on whether it is an integer or a decimal. -/
theorem ofPlain_of_isDigit {cs : List Char} (h : ∃ c ∈ cs, c.isDigit = true) :
    ((String.ofList cs).isEmpty || isNull (String.ofList cs)) = false ∧
      ofPlain (String.ofList cs) = ((ofInteger? cs).getD
        (if hasLeadingZero cs then .text (String.ofList cs)
          else ((Literal.toDouble? cs).map fun x => .number (.double x)).getD
            (.text (String.ofList cs)))) := by
  have hempty : (String.ofList cs).isEmpty = false := by
    obtain ⟨c, hc, -⟩ := h
    refine isEmpty_of_toList ?_
    rw [String.toList_ofList]
    exact List.ne_nil_of_mem hc
  have hnull : isNull (String.ofList cs) = false := contains_of_isDigit h (by decide)
  have hflag : flag? (String.ofList cs) = none := by
    rw [flag?, contains_of_isDigit h (by decide), contains_of_isDigit h (by decide)]
    rfl
  have hdecimal : ofDecimal? (String.ofList cs)
      = (Literal.toDouble? cs).map fun x => .number (.double x) := by
    rw [ofDecimal?, contains_of_isDigit h (by decide), contains_of_isDigit h (by decide),
      contains_of_isDigit h (by decide), String.toList_ofList]
    rfl
  refine ⟨by rw [hempty, hnull]; rfl, ?_⟩
  rw [ofPlain, hempty, hnull, hflag, String.toList_ofList, hdecimal]
  cases ofInteger? cs <;> rfl

theorem isAlphanum_of_isDigit {c : Char} (h : c.isDigit = true) : c.isAlphanum = true := by
  simp [Char.isAlphanum, h]

/-! ### Integers -/

/-- Digits without a leading zero are a number in base ten. -/
theorem magnitude?_toDigits (n : Nat) : magnitude? (Nat.toDigits 10 n) = some n := by
  have hread : Text.number? 10 (Nat.toDigits 10 n) = some n := by
    have := @Text.number?_map_toDigits 10 (by decide) id
      (fun d hd => Text.hexValue?_digitChar d (by omega)) n
    rwa [List.map_id] at this
  obtain ⟨c, cs, hcs, hc, hzero⟩ := Text.exists_toDigits n
  have hminus : c ≠ '-' := Text.ne_of_isDigit hc (by decide)
  have hplus : c ≠ '+' := Text.ne_of_isDigit hc (by decide)
  rw [hcs] at hread ⊢
  have hmagnitude : magnitude? (c :: cs) = digits? 10 (c :: cs) := by
    by_cases h0 : c = '0'
    · rw [h0, (hzero h0).2]
      rfl
    · simp [magnitude?, based?, hasLeadingZero, h0, hminus, hplus]
  rw [hmagnitude, digits?, if_neg (by simp), hread]

theorem integer?_write (i : WordInt) : integer? i.write = some i.val := by
  obtain ⟨c, cs, hcs, hc, -⟩ := Text.exists_toDigits i.val.natAbs
  have hminus : c ≠ '-' := Text.ne_of_isDigit hc (by decide)
  have hplus : c ≠ '+' := Text.ne_of_isDigit hc (by decide)
  have hmagnitude := magnitude?_toDigits i.val.natAbs
  rw [WordInt.write]
  split
  · rw [integer?, hmagnitude]
    refine congrArg some ?_
    show -(i.val.natAbs : Int) = i.val
    omega
  · rw [hcs] at hmagnitude ⊢
    rw [integer?]
    · rw [hmagnitude]
      refine congrArg some ?_
      show (i.val.natAbs : Int) = i.val
      omega
    · simp [hminus]
    · simp [hplus]

/-! ### Decimal numbers -/

/-- Whether a text is digits without a leading zero that go on with a point or an exponent. -/
inductive IsPointed : List Char → Prop
  | digits (w : Nat) {mark : Char} (h : mark = '.' ∨ mark = 'e') (rest : List Char) :
      IsPointed (Nat.toDigits 10 w ++ mark :: rest)

section Pointed

variable {cs : List Char}

theorem IsPointed.exists_cons (h : IsPointed cs) :
    ∃ c ds, cs = c :: ds ∧ c.isDigit = true ∧ hasLeadingZero cs = false ∧
      hasLeadingZero ('-' :: cs) = false ∧ based? cs = none := by
  obtain ⟨w, hmark, rest⟩ := h
  rename_i mark
  obtain ⟨c, ds, hds, hc, hzero⟩ := Text.exists_toDigits w
  have hplus : c ≠ '+' := Text.ne_of_isDigit hc (by decide)
  have hminus : c ≠ '-' := Text.ne_of_isDigit hc (by decide)
  refine ⟨c, ds ++ mark :: rest, by rw [hds, List.cons_append], hc, ?_⟩
  rw [hds, List.cons_append]
  by_cases h0 : c = '0'
  · obtain ⟨-, rfl⟩ := hzero h0
    subst h0
    obtain rfl | rfl := hmark <;> exact ⟨rfl, rfl, rfl⟩
  · simp [hasLeadingZero, based?, h0, hplus, hminus]

/-- Digits that go on with a point or an exponent are no integer. -/
theorem IsPointed.integer? (h : IsPointed cs) :
    Scalar.integer? cs = none ∧ Scalar.integer? ('-' :: cs) = none := by
  obtain ⟨c, ds, hcs, hc, hleading, -, hbased⟩ := h.exists_cons
  have hplus : c ≠ '+' := Text.ne_of_isDigit hc (by decide)
  have hminus : c ≠ '-' := Text.ne_of_isDigit hc (by decide)
  have hnumber : Text.number? 10 cs = none := by
    obtain ⟨w, hmark, rest⟩ := h
    rename_i mark
    have hstop (n : Nat) : Text.addDigit 10 n mark = none := by
      obtain rfl | rfl := hmark <;> rfl
    rw [Text.number?_eq, List.foldlM_append]
    simp [List.foldlM_cons, hstop]
  have hmagnitude : magnitude? cs = none := by
    rw [magnitude?, hbased, hleading, digits?, hnumber]
    simp
  constructor
  · rw [Scalar.integer?, hmagnitude]
    · rfl
    · simp [hcs, hminus]
    · simp [hcs, hplus]
  · rw [Scalar.integer?, hmagnitude]
    rfl

/-- A literal with a point or an exponent is read as a decimal number. -/
theorem IsPointed.ofPlain (h : IsPointed cs) {x : Double} {text : List Char}
    (sign : text = cs ∨ text = '-' :: cs) (hx : Literal.toDouble? text = some x) :
    Scalar.ofPlain (String.ofList text) = .number (.double x) := by
  obtain ⟨c, ds, hcs, hc, hleading, hleading', -⟩ := h.exists_cons
  obtain ⟨hinteger, hinteger'⟩ := h.integer?
  obtain rfl | rfl := sign
  · rw [(ofPlain_of_isDigit ⟨c, by simp [hcs], hc⟩).2, ofInteger?, hinteger, hleading, hx]
    rfl
  · rw [(ofPlain_of_isDigit ⟨c, by simp [hcs], hc⟩).2, ofInteger?, hinteger', hleading', hx]
    rfl

end Pointed

/-! ### What is written -/

/-- The text of an absolute value goes on with a point or an exponent. -/
theorem isPointed_magnitude (rank : Nat) : IsPointed (Notation.yaml.magnitude rank) ∧
    ∀ c ∈ Notation.yaml.magnitude rank, c.isAlphanum = true ∨ c = '.' ∨ c = '-' := by
  have hlays := @Notation.lays_magnitude .yaml rfl rank
  have hdigits (n : Nat) (c : Char) (hc : c ∈ Nat.toDigits 10 n) : c.isAlphanum = true :=
    isAlphanum_of_isDigit (Text.isDigit_of_mem_toDigits hc)
  generalize Notation.yaml.magnitude rank = text at hlays ⊢
  cases hlays with
  | @point w fraction nonempty isDigit trimmed written =>
    refine ⟨.digits w (.inl rfl) fraction, fun c hc => ?_⟩
    obtain hc | hc := List.mem_append.mp hc
    · exact .inl (hdigits w c hc)
    · obtain rfl | hc := List.mem_cons.mp hc
      · exact .inr (.inl rfl)
      · exact .inl (isAlphanum_of_isDigit (isDigit c hc))
  | @exponent c cs first isDigit place written =>
    obtain ⟨hlt, hchar, -⟩ := Text.digitValue_spec (isDigit c List.mem_cons_self)
    have hfirst : [c] = Nat.toDigits 10 (Text.digitValue c) := by
      rw [Nat.toDigits_of_lt_base hlt, hchar]
    generalize (Double.digits rank).point - 1 = e
    -- a letter, and then a sign or none and digits
    obtain ⟨tail, htail, htailchars⟩ : ∃ tail, Notation.yaml.exponentText e = 'e' :: tail ∧
        ∀ d ∈ tail, d.isAlphanum = true ∨ d = '.' ∨ d = '-' := by
      rw [Notation.exponentText]
      split
      · refine ⟨_, rfl, fun d hd => ?_⟩
        obtain rfl | hd := List.mem_cons.mp hd
        · exact .inr (.inr rfl)
        · exact .inl (hdigits _ d hd)
      · exact ⟨Nat.toDigits 10 e.toNat, rfl, fun d hd => .inl (hdigits _ d hd)⟩
    have hrest : ∀ d ∈ 'e' :: tail, d.isAlphanum = true ∨ d = '.' ∨ d = '-' :=
      List.forall_mem_cons.mpr ⟨.inl (by decide), htailchars⟩
    have halnum (d : Char) (hd : d ∈ c :: cs) : d.isAlphanum = true ∨ d = '.' ∨ d = '-' :=
      .inl (isAlphanum_of_isDigit (isDigit d hd))
    rw [htail]
    cases cs with
    | nil =>
      have hpointed := IsPointed.digits (Text.digitValue c) (.inr rfl) tail
      rw [← hfirst] at hpointed
      exact ⟨hpointed, List.forall_mem_cons.mpr ⟨halnum c (by simp), hrest⟩⟩
    | cons d ds =>
      have hpointed := IsPointed.digits (Text.digitValue c) (.inl rfl) (d :: ds ++ 'e' :: tail)
      rw [← hfirst] at hpointed
      refine ⟨hpointed, List.forall_mem_cons.mpr ⟨halnum c (by simp),
        List.forall_mem_cons.mpr ⟨.inr (.inl rfl), fun b hb => ?_⟩⟩⟩
      obtain hb | hb := List.mem_append.mp hb
      · exact halnum b (List.mem_cons_of_mem c hb)
      · exact hrest b hb

/-- A written number is a digit and other characters of numbers, after a minus or not. -/
theorem exists_write (n : Number) :
    ∃ c cs, c.isDigit = true ∧ (∀ d ∈ cs, d.isAlphanum = true ∨ d = '.' ∨ d = '-') ∧
      (n.write Notation.yaml = c :: cs ∨ n.write Notation.yaml = '-' :: c :: cs) := by
  cases n with
  | integer i =>
    obtain ⟨c, cs, hc, hcs, hwrite⟩ := i.exists_write
    exact ⟨c, cs, hc, fun d hd => .inl (isAlphanum_of_isDigit (hcs d hd)), hwrite⟩
  | double x =>
    obtain ⟨hpointed, hchars⟩ := isPointed_magnitude x.rank
    obtain ⟨c, cs, hcs, hc, -⟩ := hpointed.exists_cons
    refine ⟨c, cs, hc, fun d hd => hchars d (by rw [hcs]; exact List.mem_cons_of_mem c hd), ?_⟩
    rw [← hcs, Number.write, Notation.write_eq]
    split
    · exact .inr rfl
    · exact .inl rfl

/-- A written number is read as itself. -/
theorem ofPlain_write (n : Number) :
    ofPlain (String.ofList (n.write Notation.yaml)) = .number n := by
  cases n with
  | integer i =>
    obtain ⟨c, cs, hc, -, hwrite⟩ := exists_write (.integer i)
    have hdigit : ∃ d ∈ i.write, d.isDigit = true := by
      obtain hwrite | hwrite := hwrite <;> exact ⟨c, by rw [← Number.write, hwrite]; simp, hc⟩
    show ofPlain (String.ofList i.write) = _
    rw [(ofPlain_of_isDigit hdigit).2, ofInteger?, integer?_write, Option.bind_some,
      WordInt.ofInt?_val]
    rfl
  | double x =>
    refine (isPointed_magnitude x.rank).1.ofPlain ?_ (Literal.toDouble?_write x)
    rw [Number.write, Notation.write_eq]
    split
    · exact .inr rfl
    · exact .inl rfl

/-- A written number is no absent value. -/
theorem not_absent_write (n : Number) : ((String.ofList (n.write Notation.yaml)).isEmpty ||
    isNull (String.ofList (n.write Notation.yaml))) = false := by
  obtain ⟨c, cs, hc, -, hwrite⟩ := exists_write n
  refine (ofPlain_of_isDigit ⟨c, ?_, hc⟩).1
  obtain hwrite | hwrite := hwrite <;> simp [hwrite]

/-- A number is written as a plain scalar. -/
theorem writable_number (n : Number) : Writable (.number n) := by
  obtain ⟨c, cs, hc, hcs, hwrite⟩ := exists_write n
  have halnum := isAlphanum_of_isDigit hc
  have hchars : ∀ d ∈ c :: cs, d.isAlphanum = true ∨ d = '.' ∨ d = '+' ∨ d = '-' := by
    intro d hd
    obtain rfl | hd := List.mem_cons.mp hd
    · exact .inl halnum
    · exact (hcs d hd).imp id (.imp id .inr)
  obtain hwrite | hwrite := hwrite
  · refine .number (by simp [hwrite]) ?_
    rw [hwrite]
    exact plainAllowed_word hchars (startsLikeOther_word halnum cs)
  · refine .number (by simp [hwrite]) ?_
    rw [hwrite]
    refine plainAllowed_word (fun d hd => ?_) (startsLikeOther_minus halnum cs)
    obtain rfl | hd := List.mem_cons.mp hd
    · exact .inr (.inr (.inr rfl))
    · exact hchars d hd

end ApiSurface.Yaml.Scalar
