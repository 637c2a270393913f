/-
What plain scalars stand for.

A plain scalar is an absent value, a flag, an integer, a decimal number or a text (`ofPlain_cases`).
A text that is written plain is read as that text (`ofPlain_text`): where it would stand for something
else it is quoted.
-/
import ApiSurface.Yaml.Style

namespace ApiSurface.Yaml

namespace Scalar

/-- Digits of a base are an integer, of more than 64 bits or not. -/
theorem ofInteger?_cases {cs : List Char} {v : Scalar} (h : ofInteger? cs = some v) :
    (∃ i, v = .number (.integer i)) ∨ ∃ i, v = .wide i := by
  obtain ⟨i, -, h⟩ := Option.bind_eq_some_iff.mp h
  split at h
  · exact .inl ⟨_, (Option.some.inj h).symm⟩
  · split at h
    · exact .inr ⟨i, (Option.some.inj h).symm⟩
    · cases h

theorem ofDecimal?_cases {s : String} {v : Scalar} (h : ofDecimal? s = some v) :
    (∃ negative, v = .infinity negative) ∨ v = .notANumber ∨ ∃ x, v = .number (.double x) := by
  rw [ofDecimal?] at h
  split at h
  · exact .inl ⟨_, (Option.some.inj h).symm⟩
  split at h
  · exact .inl ⟨_, (Option.some.inj h).symm⟩
  split at h
  · exact .inr (.inl (Option.some.inj h).symm)
  obtain ⟨x, -, rfl⟩ := Option.map_eq_some_iff.mp h
  exact .inr (.inr ⟨x, rfl⟩)

/-- A plain scalar that is no name of an absent value is a flag, an integer, a decimal number, or the
text that it is. -/
theorem ofPlain_cases {s : String} (h : (s.isEmpty || isNull s) = false) :
    (∃ b, ofPlain s = .bool b) ∨ ofInteger? s.toList = some (ofPlain s) ∨
      ofDecimal? s = some (ofPlain s) ∨ ofPlain s = .text s := by
  rw [ofPlain, if_neg (by simp [h])]
  split
  · exact .inl ⟨_, rfl⟩
  · rename_i hinteger
    exact .inr (.inl hinteger)
  · refine .inr (.inr ?_)
    split
    · exact .inr rfl
    · cases hd : ofDecimal? s with
      | none => exact .inr rfl
      | some v => exact .inl rfl

/-- A plain scalar that is a text is that text, and no absent value. -/
theorem of_ofPlain_text {s t : String} (h : ofPlain s = .text t) :
    t = s ∧ s.isEmpty = false ∧ isNull s = false := by
  have hnull : (s.isEmpty || isNull s) = false := by
    rw [← Bool.not_eq_true]
    intro hnull
    rw [ofPlain, if_pos hnull] at h
    cases h
  refine ⟨?_, Bool.or_eq_false_iff.mp hnull⟩
  obtain ⟨b, hv⟩ | hv | hv | hv := ofPlain_cases hnull
  · rw [h] at hv
    cases hv
  · rw [h] at hv
    obtain ⟨i, hv⟩ | ⟨i, hv⟩ := ofInteger?_cases hv <;> cases hv
  · rw [h] at hv
    obtain ⟨b, hv⟩ | hv | ⟨x, hv⟩ := ofDecimal?_cases hv <;> cases hv
  · rw [h] at hv
    exact Scalar.text.inj hv

/-- A plain scalar is absent if it is empty or a name of the absent value. -/
theorem ofPlain_eq_null {s : String} : ofPlain s = .null ↔ (s.isEmpty || isNull s) = true := by
  constructor
  · intro h
    cases hnull : s.isEmpty || isNull s with
    | true => rfl
    | false =>
      obtain ⟨b, hv⟩ | hv | hv | hv := ofPlain_cases hnull <;> rw [h] at hv
      · cases hv
      · obtain ⟨i, hv⟩ | ⟨i, hv⟩ := ofInteger?_cases hv <;> cases hv
      · obtain ⟨b, hv⟩ | hv | ⟨x, hv⟩ := ofDecimal?_cases hv <;> cases hv
      · cases hv
  · intro hnull
    rw [ofPlain, if_pos hnull]

/-- A text that is not ambiguous is itself where it is plain. -/
theorem ofPlain_text {s : String} (h : Style.isAmbiguous s = false) :
    ofPlain s = .text s ∧ s.isEmpty = false ∧ isNull s = false := by
  rw [Style.isAmbiguous, Bool.or_eq_false_iff] at h
  cases ht : ofPlain s with
  | text t =>
    obtain ⟨rfl, hnull⟩ := of_ofPlain_text ht
    exact ⟨rfl, hnull⟩
  | _ => exact absurd h.1 (by simp [ht])

end Scalar

end ApiSurface.Yaml
