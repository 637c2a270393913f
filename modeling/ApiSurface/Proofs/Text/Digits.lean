/-
Digits read back as the number they were written for.

`number?_map_toDigits` and `number?_map_hexDigits` undo the writers in each base up to sixteen, with
zeros in front or with letters in upper case; `decimal_toDigits` does so for decimal digits, and
`exists_toDigits` says that only zero is written with a leading zero. `WordInt.exists_write` gives
the characters of an integer.
-/
import ApiSurface.Number
import ApiSurface.Text.Digits

namespace ApiSurface.Text

/-! ### Decimal digits -/

theorem decimal_eq_ofDigitChars (start : Nat) (cs : List Char) :
    decimal start cs = Nat.ofDigitChars 10 cs start := by
  rw [Nat.ofDigitChars_eq_foldl]
  rfl

theorem decimal_toDigits (n : Nat) : decimal 0 (Nat.toDigits 10 n) = n := by
  rw [decimal_eq_ofDigitChars, Nat.ofDigitChars_ten_toDigits]

theorem le_decimal (start : Nat) (cs : List Char) : start ≤ decimal start cs := by
  induction cs generalizing start with
  | nil => exact Nat.le_refl start
  | cons c cs ih =>
    have := ih (10 * start + digitValue c)
    rw [decimal, List.foldl_cons, ← decimal]
    omega

theorem isDigit_of_mem_toDigits {n : Nat} {c : Char} (h : c ∈ Nat.toDigits 10 n) :
    c.isDigit = true :=
  Nat.isDigit_of_mem_toDigits (by decide) (by decide) h

theorem ne_of_isDigit {c d : Char} (h : c.isDigit = true) (hd : d.isDigit = false) : c ≠ d := by
  rintro rfl
  exact absurd h (by simp [hd])

/-- The first digit of a number, and the digits after it. -/
theorem exists_toDigits (n : Nat) :
    ∃ c cs, Nat.toDigits 10 n = c :: cs ∧ c.isDigit = true ∧ (c = '0' → n = 0 ∧ cs = []) := by
  induction n using Nat.strongRecOn with
  | ind n ih =>
    by_cases h : n < 10
    · have hd : ∀ d < 10, d.digitChar.isDigit = true ∧ (d.digitChar = '0' → d = 0) := by decide
      exact ⟨n.digitChar, [], Nat.toDigits_of_lt_base h, (hd n h).1, fun h0 => ⟨(hd n h).2 h0, rfl⟩⟩
    · obtain ⟨c, cs, hcs, hc, hzero⟩ := ih (n / 10) (by omega)
      refine ⟨c, cs ++ [(n % 10).digitChar], ?_, hc, fun h0 => ?_⟩
      · rw [Nat.toDigits_of_base_le (by decide) (by omega), hcs, List.cons_append]
      · have := (hzero h0).1
        omega

/-! ### Digits of any base -/

theorem hexValue?_digitChar : ∀ d < 16, hexValue? d.digitChar = some d := by decide

theorem hexValue?_toUpper_digitChar : ∀ d < 16, hexValue? d.digitChar.toUpper = some d := by decide

/-- One more digit. -/
def addDigit (base n : Nat) (c : Char) : Option Nat :=
  (hexValue? c).bind fun d => if d < base then some (base * n + d) else none

theorem number?_eq (base : Nat) (cs : List Char) : number? base cs = cs.foldlM (addDigit base) 0 :=
  rfl

theorem addDigit_eq {base n d : Nat} {c : Char} (hc : hexValue? c = some d) (hd : d < base) :
    addDigit base n c = some (base * n + d) := by
  simp [addDigit, hc, hd]

/-- Digits of a base read back, in either case of the letters. -/
theorem number?_map_toDigits {base : Nat} (hb : 1 < base) {f : Char → Char}
    (hf : ∀ d < base, hexValue? (f d.digitChar) = some d) (n : Nat) :
    number? base ((Nat.toDigits base n).map f) = some n := by
  induction n using Nat.strongRecOn with
  | ind n ih =>
    rw [number?_eq]
    by_cases h : n < base
    · rw [Nat.toDigits_of_lt_base h, List.map_singleton, List.foldlM_cons,
        addDigit_eq (hf n h) h]
      simp
    · have hlt : n % base < base := Nat.mod_lt n (by omega)
      rw [Nat.toDigits_of_base_le hb (by omega), List.map_append, List.foldlM_append,
        ← number?_eq, ih (n / base) (Nat.div_lt_self (by omega) hb), List.map_singleton]
      simp [addDigit_eq (hf _ hlt) hlt, Nat.div_add_mod]

theorem foldlM_addDigit_zeros {base : Nat} (hb : 0 < base) (k : Nat) :
    (List.replicate k '0').foldlM (addDigit base) 0 = some 0 := by
  induction k with
  | zero => rfl
  | succ k ih =>
    rw [List.replicate_succ, List.foldlM_cons, addDigit_eq (d := 0) (by decide) hb]
    simpa using ih

/-- Hexadecimal digits with zeros in front read back, in either case of the letters. -/
theorem number?_map_hexDigits {f : Char → Char} (hzero : f '0' = '0')
    (hf : ∀ d < 16, hexValue? (f d.digitChar) = some d) (count n : Nat) :
    number? 16 ((hexDigits count n).map f) = some n := by
  rw [hexDigits, List.map_append, List.map_replicate, hzero, number?_eq, List.foldlM_append,
    foldlM_addDigit_zeros (by decide)]
  simpa [number?_eq] using number?_map_toDigits (by decide) hf n

theorem number?_hexDigits (count n : Nat) : number? 16 (hexDigits count n) = some n := by
  simpa using number?_map_hexDigits (f := id) rfl hexValue?_digitChar count n

theorem exists_digitChar {base : Nat} (hb : 1 < base) {n : Nat} {c : Char}
    (h : c ∈ Nat.toDigits base n) : ∃ d < base, c = d.digitChar := by
  induction n using Nat.strongRecOn with
  | ind n ih =>
    by_cases hn : n < base
    · rw [Nat.toDigits_of_lt_base hn, List.mem_singleton] at h
      exact ⟨n, hn, h⟩
    · rw [Nat.toDigits_of_base_le hb (by omega), List.mem_append, List.mem_singleton] at h
      obtain h | h := h
      · exact ih (n / base) (Nat.div_lt_self (by omega) hb) h
      · exact ⟨n % base, Nat.mod_lt n (by omega), h⟩

/-- The characters of hexadecimal digits. -/
theorem exists_digitChar_of_mem_hexDigits {count n : Nat} {c : Char} (h : c ∈ hexDigits count n) :
    ∃ d < 16, c = d.digitChar := by
  rw [hexDigits, List.mem_append] at h
  obtain h | h := h
  · exact ⟨0, by decide, List.eq_of_mem_replicate h⟩
  · exact exists_digitChar (by decide) h

theorem length_hexDigits {count n : Nat} (h : (Nat.toDigits 16 n).length ≤ count) :
    (hexDigits count n).length = count := by
  rw [hexDigits, List.length_append, List.length_replicate]
  omega

end ApiSurface.Text

namespace ApiSurface.WordInt

theorem ofInt?_val (i : WordInt) : ofInt? i.val = some i := by
  simp [ofInt?, i.lower, i.upper]

/-- A written integer starts with a minus sign and a digit or with a digit. -/
theorem exists_write (i : WordInt) :
    ∃ c cs, c.isDigit = true ∧ (∀ d ∈ cs, d.isDigit = true) ∧
      (i.write = c :: cs ∨ i.write = '-' :: c :: cs) := by
  obtain ⟨c, cs, hcs, hc, -⟩ := Text.exists_toDigits i.val.natAbs
  have hall : ∀ d ∈ c :: cs, d.isDigit = true := fun d hd =>
    Text.isDigit_of_mem_toDigits (hcs ▸ hd)
  refine ⟨c, cs, hc, fun d hd => hall d (List.mem_cons_of_mem c hd), ?_⟩
  rw [write, hcs]
  split
  · exact .inr rfl
  · exact .inl rfl

end ApiSurface.WordInt
