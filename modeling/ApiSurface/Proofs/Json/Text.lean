/-
A quoted string of a JSON text is read as the string.

* `stringBody_escaped` — the inside of the quotes, whatever was read before it;
* `string_quoted` — a string with its quotes, whatever follows it.
-/
import ApiSurface.Json.Text
import ApiSurface.Json.Write
import ApiSurface.Proofs.Text.Digits

namespace ApiSurface.Json

/-- Four hexadecimal digits are read as the number that they were written for. -/
theorem hexUnit_hexDigits {n : Nat} (h : n < 65536) (rest : List Char) :
    hexUnit (Text.hexDigits 4 n ++ rest) = .ok (n, rest) := by
  have hn := Text.number?_hexDigits 4 n
  have hl : (Text.hexDigits 4 n).length = 4 :=
    Text.length_hexDigits ((Nat.length_toDigits_le_iff (by decide) (by decide)).mpr h)
  match hd : Text.hexDigits 4 n, hl with
  | [a, b, c, d], _ =>
    rw [hd] at hn
    simp [hexUnit, hn]

/-- A character below the space is read from its escape by code point. -/
theorem escape_hexDigits {c : Char} (h : c.toNat < 0x20) (rest : List Char) :
    escape ('u' :: (Text.hexDigits 4 c.toNat ++ rest)) = .ok (c, rest) := by
  simp only [escape, unicodeEscape, if_true, hexUnit_hexDigits (show c.toNat < 65536 by omega),
    bind, Except.bind]
  rw [if_neg (by omega), if_pos (by omega), Char.ofNat_toNat]
  rfl

/-- A written character is itself, or a backslash and an escape that is read as the character. -/
theorem escaped_cases (c : Char) :
    (escaped c = [c] ∧ c ≠ '"' ∧ c ≠ '\\' ∧ 0x20 ≤ c.toNat) ∨
      ∃ cs, escaped c = '\\' :: cs ∧ ∀ rest, escape (cs ++ rest) = .ok (c, rest) := by
  unfold escaped
  repeat' split
  · subst_vars
    exact .inr ⟨_, rfl, fun _ => rfl⟩
  · subst_vars
    exact .inr ⟨_, rfl, fun _ => rfl⟩
  · subst_vars
    exact .inr ⟨_, rfl, fun _ => rfl⟩
  · subst_vars
    exact .inr ⟨_, rfl, fun _ => rfl⟩
  · subst_vars
    exact .inr ⟨_, rfl, fun _ => rfl⟩
  · subst_vars
    exact .inr ⟨_, rfl, fun _ => rfl⟩
  · subst_vars
    exact .inr ⟨_, rfl, fun _ => rfl⟩
  · exact .inr ⟨_, rfl, fun rest => escape_hexDigits ‹_› rest⟩
  · exact .inl ⟨rfl, ‹_›, ‹_›, by omega⟩

/-- One round reads one written character. -/
theorem stringBody_escaped_cons (f c : Char) (fuel read cs : List Char) :
    stringBody (f :: fuel) read (escaped c ++ cs) = stringBody fuel (c :: read) cs := by
  obtain ⟨he, hq, hb, hc⟩ | ⟨ds, he, hread⟩ := escaped_cases c
  · rw [he, List.singleton_append, stringBody]
    simp [hq, hb, show ¬ c.toNat < 32 by omega]
  · rw [he, List.cons_append, stringBody]
    simp [hread]

/-- The inside of the quotes is read as the characters that it was written for. -/
theorem stringBody_escaped {fuel : List Char} {cs : List Char} (h : cs.length < fuel.length)
    (read rest : List Char) :
    stringBody fuel read (cs.flatMap escaped ++ '"' :: rest) = .ok (read.reverse ++ cs, rest) := by
  induction cs generalizing fuel read with
  | nil =>
    match fuel, h with
    | f :: fuel, _ => simp [stringBody]
  | cons c cs ih =>
    match fuel, h with
    | f :: fuel, h =>
      rw [List.flatMap_cons, List.append_assoc, stringBody_escaped_cons,
        ih (by simpa using h)]
      simp

theorem length_le_flatMap_escaped (cs : List Char) : cs.length ≤ (cs.flatMap escaped).length := by
  induction cs with
  | nil => exact Nat.le_refl 0
  | cons c cs ih =>
    have : 0 < (escaped c).length := by
      obtain ⟨he, -⟩ | ⟨ds, he, -⟩ := escaped_cases c <;> simp [he]
    rw [List.flatMap_cons, List.length_append, List.length_cons]
    omega

/-- A quoted string is read as the string. -/
theorem Reader.string_quoted (s : String) (rest : List Char) (ignored : Nat) :
    Reader.string ⟨quoted s ++ rest, ignored⟩ = .ok s ⟨rest, ignored⟩ := by
  have hlen := length_le_flatMap_escaped s.toList
  have hfuel : s.toList.length < (quoted s ++ rest).length := by
    simp only [quoted, List.length_cons, List.length_append]
    omega
  have hbody := stringBody_escaped hfuel [] rest
  simp only [string, quoted, List.cons_append, List.tail_cons, List.append_assoc,
    List.nil_append] at hbody ⊢
  rw [hbody]
  simp

end ApiSurface.Json
