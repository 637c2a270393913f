/-
What stands between two words of a scalar is read whole.

A written gap is either spaces on one line, or line ends and the indentation of the line after
them (`gap_spaces`, `gap_break`); the indentation is not part of the text. A `margin` is what stands
between the end of a line and the next text: empty lines, and the indentation of the line after
them.
-/
import ApiSurface.Proofs.Yaml.Lexing
import ApiSurface.Yaml.FlowScalar
import ApiSurface.Yaml.Write

namespace ApiSurface.Yaml

theorem not_isBreak_of_mem_spaces {n : Nat} : ∀ c ∈ spaces n, isBreak c = false := by
  intro c hc
  rw [List.eq_of_mem_replicate hc]
  rfl

@[simp] theorem length_spaces (n : Nat) : (spaces n).length = n := List.length_replicate

@[simp] theorem spaces_zero : spaces 0 = [] := rfl

theorem spaces_succ (n : Nat) : spaces (n + 1) = ' ' :: spaces n := rfl

theorem spaces_add (n k : Nat) : spaces (n + k) = spaces n ++ spaces k :=
  (List.replicate_append_replicate ..).symm

/-- A text is some spaces and what comes after them. -/
theorem exists_spaces (cs : List Char) :
    ∃ n rest, cs = spaces n ++ rest ∧ rest.head? ≠ some ' ' := by
  obtain ⟨run, rest, h, hrun, hrest⟩ := Text.exists_run (· == ' ') cs
  have hr : run = spaces run.length := List.eq_replicate_iff.mpr ⟨rfl, by simpa using hrun⟩
  refine ⟨run.length, rest, by rw [← hr, h], fun hc => ?_⟩
  exact absurd (hrest _ hc) (by decide)

/-- Empty lines, and the indentation of the line after them. -/
def margin (j k : Nat) : List Char := List.replicate j '\n' ++ spaces k

@[simp] theorem margin_zero (k : Nat) : margin 0 k = spaces k := rfl

theorem margin_succ (j k : Nat) : margin (j + 1) k = '\n' :: margin j k := rfl

/-- The column after a line end and some spaces. -/
theorem Mark.column_through_spaces {c : Char} (h : isBreak c = true) (m : Mark) (n : Nat) :
    ((m.across c).through (spaces n)).column = n := by
  rw [column_through not_isBreak_of_mem_spaces, column_across_of_isBreak h, length_spaces,
    Nat.zero_add]

/-- The column after a line end and a margin. -/
theorem Mark.column_through_margin {c : Char} (h : isBreak c = true) (m : Mark) (j k : Nat) :
    ((m.across c).through (margin j k)).column = k := by
  induction j generalizing c m with
  | zero => exact column_through_spaces h m k
  | succ j ih =>
    rw [margin_succ, through_cons]
    exact ih rfl _

/-- The column after line ends and some spaces. -/
theorem Mark.column_through_breaks {bs : List Char} (h : ∀ b ∈ bs, isBreak b = true)
    (nonempty : bs ≠ []) (m : Mark) (n : Nat) : (m.through (bs ++ spaces n)).column = n := by
  induction bs generalizing m with
  | nil => exact absurd rfl nonempty
  | cons b bs ih =>
    rw [List.cons_append, through_cons]
    cases bs with
    | nil => exact column_through_spaces (h b List.mem_cons_self) m n
    | cons d bs => exact ih (fun x hx => h x (List.mem_cons_of_mem b hx)) (by simp) _

/-- Whether a text ends with a line end. -/
def EndsLine (cs : List Char) : Prop := ∃ ds b, cs = ds ++ [b] ∧ isBreak b = true

theorem endsLine_append_newline (cs : List Char) : EndsLine (cs ++ ['\n']) := ⟨cs, '\n', rfl, rfl⟩

theorem EndsLine.append_left {cs : List Char} (h : EndsLine cs) (ds : List Char) :
    EndsLine (ds ++ cs) := by
  obtain ⟨es, b, rfl, hb⟩ := h
  exact ⟨ds ++ es, b, by simp, hb⟩

/-- The column after lines and a margin. -/
theorem EndsLine.column_through {cs : List Char} (h : EndsLine cs) (m : Mark) (j k : Nat) :
    (m.through (cs ++ margin j k)).column = k := by
  obtain ⟨ds, b, rfl, hb⟩ := h
  rw [List.append_assoc, Mark.through_append]
  exact Mark.column_through_margin hb _ j k

theorem EndsLine.line_lt_through {cs : List Char} (h : EndsLine cs) (m : Mark) (j k : Nat) :
    m.line < (m.through (cs ++ margin j k)).line := by
  obtain ⟨ds, b, rfl, hb⟩ := h
  rw [List.append_assoc, Mark.through_append, List.singleton_append, Mark.through_cons]
  have hds := m.line_le_through ds
  have hmargin := ((m.through ds).across b).line_le_through (margin j k)
  rw [Mark.line_across_of_isBreak hb] at hmargin
  omega

namespace Gap

theorem foldl_addBlank {g : Gap} (h : g.broken = false) (n : Nat) :
    (spaces n).foldl addBlank g = { g with blanks := g.blanks ++ spaces n } := by
  induction n generalizing g with
  | zero => simp
  | succ n ih =>
    have hg : (g.addBlank ' ').broken = false := by simp [addBlank, h]
    rw [spaces_succ, List.foldl_cons, ih hg]
    simp [addBlank, h]

theorem foldl_addBlank_of_broken {g : Gap} (h : g.broken = true) (n : Nat) :
    (spaces n).foldl addBlank g = g := by
  induction n with
  | zero => rfl
  | succ n ih => rw [spaces_succ, List.foldl_cons, addBlank, if_pos h, ih]

end Gap

namespace Lexer

variable {limit : Option (Nat × Mark)}

theorem gap_stop {cs : List Char} (h : Text.Stops isGap cs) (fuel : List Char) (g : Gap)
    (m : Mark) : gap limit fuel g ⟨cs, m⟩ = .ok (g, ⟨cs, m⟩) := by
  cases fuel with
  | nil => rfl
  | cons f fuel =>
    rw [gap, bind_peek?]
    cases cs with
    | nil => rfl
    | cons c cs =>
      have hc := h c rfl
      simp only [List.head?_cons, isBlank_of_not_isGap hc, isBreak_of_not_isGap hc]
      rfl

theorem gap_space (f : Char) (fuel : List Char) (g : Gap) (cs : List Char) (m : Mark) :
    gap limit (f :: fuel) g ⟨' ' :: cs, m⟩ =
      gap limit fuel (g.addBlank ' ') ⟨cs, m.across ' '⟩ := by
  rw [gap, bind_peek?, List.head?_cons]
  cases limit with
  | none => rfl
  | some l =>
    have ht : (' ' == '\t') = false := by decide
    simp only [isBlank, beq_self_eq_true, Bool.true_or, if_true, bind_mark, ht, Bool.and_false,
      Bool.false_and, Bool.false_eq_true, if_false]
    rfl

theorem gap_break {c : Char} (h : c = '\n' ∨ isSeparator c = true) (f : Char)
    (fuel : List Char) (g : Gap) (cs : List Char) (m : Mark) :
    gap limit (f :: fuel) g ⟨c :: cs, m⟩ = gap limit fuel (g.addBreak [c]) ⟨cs, m.across c⟩ := by
  have hb : isBreak c = true := by
    obtain rfl | h := h
    · rfl
    · exact isBreak_of_isSeparator h
  have hblank : isBlank c = false := by
    cases hc : isBlank c with
    | false => rfl
    | true =>
      simp only [isBlank, Bool.or_eq_true, beq_iff_eq] at hc
      obtain rfl | rfl := hc <;> exact absurd hb (by decide)
  rw [gap, bind_peek?, List.head?_cons]
  simp only [hblank, hb, Bool.false_eq_true, if_false, if_true]
  rw [bind_ok (lineBreak_cons h cs m)]

theorem gap_spaces {n : Nat} {fuel : List Char} (hf : n ≤ fuel.length) (g : Gap)
    (cs : List Char) (m : Mark) :
    gap limit fuel g ⟨spaces n ++ cs, m⟩ =
      gap limit (fuel.drop n) ((spaces n).foldl Gap.addBlank g)
        ⟨cs, m.through (spaces n)⟩ := by
  induction n generalizing fuel g m with
  | zero => rfl
  | succ n ih =>
    match fuel, hf with
    | f :: fuel, hf =>
      rw [spaces_succ, List.cons_append, gap_space, ih (by simpa using hf), List.drop_succ_cons,
        List.foldl_cons, Mark.through_cons]

/-- Spaces on a line are read as they are. -/
theorem gap_spaces_stop (n : Nat) {cs : List Char} (h : Text.Stops isGap cs) (m : Mark) :
    gap limit (spaces n ++ cs) {} ⟨spaces n ++ cs, m⟩ =
      .ok ({ blanks := spaces n }, ⟨cs, m.through (spaces n)⟩) := by
  rw [gap_spaces (by simp), gap_stop h, Gap.foldl_addBlank rfl]
  rfl

/-- Indentation after a line end is dropped. -/
theorem gap_indent_stop {n : Nat} {fuel : List Char} (hf : n ≤ fuel.length) {g : Gap}
    (hg : g.broken = true) {cs : List Char} (h : Text.Stops isGap cs) (m : Mark) :
    gap limit fuel g ⟨spaces n ++ cs, m⟩ = .ok (g, ⟨cs, m.through (spaces n)⟩) := by
  rw [gap_spaces hf, gap_stop h, Gap.foldl_addBlank_of_broken hg]

end Lexer

end ApiSurface.Yaml
