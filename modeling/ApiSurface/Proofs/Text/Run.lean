/-
Splitting a text where a class of characters ends.
-/

namespace ApiSurface.Text

/-- Whether a text goes on without a character of a class. -/
def Stops (p : Char → Bool) (rest : List Char) : Prop := ∀ c, rest.head? = some c → p c = false

theorem stops_nil (p : Char → Bool) : Stops p [] := by simp [Stops]

theorem takeWhile_append {p : Char → Bool} {cs rest : List Char} (hc : ∀ c ∈ cs, p c = true)
    (h : Stops p rest) : (cs ++ rest).takeWhile p = cs := by
  rw [List.takeWhile_append_of_pos hc]
  cases rest with
  | nil => simp
  | cons c ds => simp [h c rfl]

theorem dropWhile_append {p : Char → Bool} {cs rest : List Char} (hc : ∀ c ∈ cs, p c = true)
    (h : Stops p rest) : (cs ++ rest).dropWhile p = rest := by
  rw [List.dropWhile_append_of_pos hc]
  cases rest with
  | nil => rfl
  | cons c ds => rw [List.dropWhile_cons_of_neg (by simp [h c rfl])]

/-- A text is a run of a class and what comes after it. -/
theorem exists_run (p : Char → Bool) (cs : List Char) :
    ∃ run rest, cs = run ++ rest ∧ (∀ c ∈ run, p c = true) ∧ Stops p rest := by
  refine ⟨cs.takeWhile p, cs.dropWhile p, List.takeWhile_append_dropWhile.symm, ?_, ?_⟩
  · exact List.all_eq_true.mp List.all_takeWhile
  · intro c hc
    have := List.head?_dropWhile_not p cs
    rw [hc] at this
    simpa using this

end ApiSurface.Text
