/-
Neighbours in a text.

Which style a text may be written in depends on its pairs of neighbours; a part of a text has no
pair that the whole text does not have.
-/
import ApiSurface.Yaml.Style

namespace ApiSurface.Yaml.Style

theorem anyPair_of_append_left {r : Char → Char → Bool} {cs : List Char} (ds : List Char)
    (h : anyPair r (cs ++ ds) = false) : anyPair r cs = false := by
  induction cs with
  | nil => rfl
  | cons a cs ih =>
    cases cs with
    | nil => rfl
    | cons b cs =>
      simp only [List.cons_append, anyPair, Bool.or_eq_false_iff] at h ih ⊢
      exact ⟨h.1, ih h.2⟩

theorem anyPair_of_append_right {r : Char → Char → Bool} (cs : List Char) {ds : List Char}
    (h : anyPair r (cs ++ ds) = false) : anyPair r ds = false := by
  induction cs with
  | nil => exact h
  | cons a cs ih =>
    refine ih ?_
    cases hd : cs ++ ds with
    | nil => rfl
    | cons b bs =>
      rw [List.cons_append, hd, anyPair, Bool.or_eq_false_iff] at h
      exact h.2

theorem anyPair_append_singleton {r : Char → Char → Bool} {cs : List Char} {d : Char}
    (h : anyPair r cs = false) (last : ∀ c, cs.getLast? = some c → r c d = false) :
    anyPair r (cs ++ [d]) = false := by
  induction cs with
  | nil => rfl
  | cons a cs ih =>
    cases cs with
    | nil => simpa [anyPair] using last a rfl
    | cons b cs =>
      simp only [List.cons_append, anyPair, Bool.or_eq_false_iff] at h ih ⊢
      exact ⟨h.1, ih h.2 fun c hc => last c (by simpa using hc)⟩

theorem anyPair_of_forall {r : Char → Char → Bool} {cs : List Char}
    (h : ∀ a ∈ cs, ∀ b, r a b = false) (d : Char) : anyPair r (cs ++ [d]) = false := by
  induction cs with
  | nil => rfl
  | cons a cs ih =>
    obtain ⟨e, es, he⟩ := List.exists_cons_of_ne_nil (l := cs ++ [d]) (by simp)
    have ih := ih fun x hx => h x (List.mem_cons_of_mem a hx)
    rw [he] at ih
    rw [List.cons_append, he, anyPair, h a List.mem_cons_self, ih]
    rfl

theorem not_of_anyPair {r : Char → Char → Bool} {cs ds : List Char} {a b : Char}
    (h : anyPair r (cs ++ a :: b :: ds) = false) : r a b = false := by
  replace h := anyPair_of_append_right cs h
  rw [anyPair, Bool.or_eq_false_iff] at h
  exact h.1

/-- What is known of a text in each style. -/
theorem ofText_spec (s : String) :
    match ofText s with
    | .plain => isAmbiguous s = false ∧ plainAllowed s.toList = true
    | .singleQuoted => '\n' ∉ s.toList ∧ singleAllowed s.toList = true
    | .doubleQuoted => True
    | .literal => '\n' ∈ s.toList ∧ literalAllowed s.toList = true
    | .folded => False := by
  rw [ofText]
  by_cases hline : '\n' ∈ s.toList
  · by_cases hlit : literalAllowed s.toList = true <;> simp [hline, hlit]
  · by_cases hplain : isAmbiguous s = false ∧ plainAllowed s.toList = true
    · simp [hline, hplain]
    · by_cases hsingle : singleAllowed s.toList = true
      · rw [not_and] at hplain
        cases ha : isAmbiguous s <;> simp_all
      · rw [not_and] at hplain
        cases ha : isAmbiguous s <;> simp_all

/-- An empty text looks like an absent value. -/
theorem ne_nil_of_not_isAmbiguous {s : String} (h : isAmbiguous s = false) : s.toList ≠ [] := by
  intro hs
  obtain rfl : s = "" := by
    rw [← String.ofList_toList (s := s), hs]
  exact absurd h (by simp [isAmbiguous, Scalar.ofPlain])

end ApiSurface.Yaml.Style
