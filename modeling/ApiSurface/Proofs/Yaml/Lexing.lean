/-
Where a lexer stands after a text.

`Mark.through m cs` is the point that is reached from `m` over the text `cs`, if each line end in it
is a single character. The lexers of scalars are all shown to get to it, so that columns, lines and
bytes are facts about texts alone.
-/
import ApiSurface.Proofs.Text.Run
import ApiSurface.Yaml.Token

namespace ApiSurface.Yaml

namespace Mark

/-- The point after a character, which may be a line end. -/
def across (m : Mark) (c : Char) : Mark := if isBreak c then m.pastBreak c.utf8Size else m.past c

/-- The point after a text. -/
def through (m : Mark) (cs : List Char) : Mark := cs.foldl across m

@[simp] theorem through_nil (m : Mark) : m.through [] = m := rfl

@[simp] theorem through_cons (m : Mark) (c : Char) (cs : List Char) :
    m.through (c :: cs) = (m.across c).through cs := rfl

@[simp] theorem through_append (m : Mark) (cs ds : List Char) :
    m.through (cs ++ ds) = (m.through cs).through ds := List.foldl_append ..

theorem across_of_not_isBreak {c : Char} (h : isBreak c = false) (m : Mark) :
    m.across c = m.past c := by
  simp [across, h]

theorem across_of_isBreak {c : Char} (h : isBreak c = true) (m : Mark) :
    m.across c = m.pastBreak c.utf8Size := by
  simp [across, h]

theorem foldl_past {cs : List Char} (h : ∀ c ∈ cs, isBreak c = false) (m : Mark) :
    cs.foldl past m = m.through cs := by
  induction cs generalizing m with
  | nil => rfl
  | cons c cs ih =>
    rw [List.foldl_cons, through_cons, across_of_not_isBreak (h c List.mem_cons_self)]
    exact ih (fun d hd => h d (List.mem_cons_of_mem c hd)) _

theorem line_le_across (m : Mark) (c : Char) : m.line ≤ (m.across c).line := by
  cases h : isBreak c <;> simp [across, h, past, pastBreak]

theorem line_le_through (m : Mark) (cs : List Char) : m.line ≤ (m.through cs).line := by
  induction cs generalizing m with
  | nil => exact Nat.le_refl _
  | cons c cs ih => exact Nat.le_trans (m.line_le_across c) (ih (m.across c))

/-- A text on one line goes on by its length. -/
theorem column_through {cs : List Char} (h : ∀ c ∈ cs, isBreak c = false) (m : Mark) :
    (m.through cs).column = m.column + cs.length := by
  induction cs generalizing m with
  | nil => rfl
  | cons c cs ih =>
    rw [through_cons, ih (fun d hd => h d (List.mem_cons_of_mem c hd)),
      across_of_not_isBreak (h c List.mem_cons_self), List.length_cons]
    simp only [past]
    omega

theorem line_through {cs : List Char} (h : ∀ c ∈ cs, isBreak c = false) (m : Mark) :
    (m.through cs).line = m.line := by
  induction cs generalizing m with
  | nil => rfl
  | cons c cs ih =>
    rw [through_cons, ih (fun d hd => h d (List.mem_cons_of_mem c hd)),
      across_of_not_isBreak (h c List.mem_cons_self), past]

theorem index_through_le (m : Mark) (cs : List Char) :
    (m.through cs).index ≤ m.index + 4 * cs.length := by
  induction cs generalizing m with
  | nil => exact Nat.le_refl _
  | cons c cs ih =>
    have hsize := c.utf8Size_le_four
    have hacross : (m.across c).index = m.index + c.utf8Size := by
      cases h : isBreak c <;> simp [across, h, past, pastBreak]
    have := ih (m.across c)
    rw [through_cons, List.length_cons]
    omega

theorem column_across_of_isBreak {c : Char} (h : isBreak c = true) (m : Mark) :
    (m.across c).column = 0 := by
  simp [across, h, pastBreak]

theorem line_across_of_isBreak {c : Char} (h : isBreak c = true) (m : Mark) :
    (m.across c).line = m.line + 1 := by
  simp [across, h, pastBreak]

end Mark

/-! ### Characters -/

theorem isBreak_of_isSeparator {c : Char} (h : isSeparator c = true) : isBreak c = true := by
  simp [isBreak, h]

theorem isGap_of_isBreak {c : Char} (h : isBreak c = true) : isGap c = true := by
  simp [isGap, h]

theorem isBreak_of_not_isGap {c : Char} (h : isGap c = false) : isBreak c = false := by
  simp_all [isGap]

theorem isBlank_of_not_isGap {c : Char} (h : isGap c = false) : isBlank c = false := by
  simp_all [isGap]

theorem isGap_of_isAlphanum {c : Char} (h : c.isAlphanum = true) : isGap c = false := by
  cases hc : isGap c with
  | false => rfl
  | true =>
    simp only [isGap, isBlank, isBreak, isSeparator, Bool.or_eq_true, beq_iff_eq] at hc
    obtain (rfl | rfl) | (((rfl | rfl) | rfl) | rfl | rfl) := hc <;> exact absurd h (by decide)

theorem ne_of_isAlphanum {c d : Char} (h : c.isAlphanum = true) (hd : d.isAlphanum = false) :
    c ≠ d := by
  rintro rfl
  rw [hd] at h
  exact nomatch h

/-! ### Cursors -/

namespace Cursor

theorem advanceBy_append {cs : List Char} (h : ∀ c ∈ cs, isBreak c = false) (rest : List Char)
    (m : Mark) : advanceBy ⟨cs ++ rest, m⟩ cs.length = ⟨rest, m.through cs⟩ := by
  rw [advanceBy, List.drop_left, List.take_left, Mark.foldl_past h]

/-- Documents start and end at the start of a line. -/
theorem atDocumentMarker_of_column {m : Mark} (h : 0 < m.column) (cs : List Char) :
    atDocumentMarker ⟨cs, m⟩ = false := by
  have : (m.column == 0) = false := by
    rw [beq_eq_false_iff_ne]
    omega
  simp [atDocumentMarker, startsMarker, this]

/-- The markers of documents are hyphens and points. -/
theorem atDocumentMarker_of_head {c : Char} (hyphen : c ≠ '-') (point : c ≠ '.') (cs : List Char)
    (m : Mark) : atDocumentMarker ⟨c :: cs, m⟩ = false := by
  simp [atDocumentMarker, startsMarker, hyphen, point]

/-- A line feed or a separator is read as itself. -/
theorem lineBreak_cons {c : Char} (h : c = '\n' ∨ isSeparator c = true) (cs : List Char)
    (m : Mark) : lineBreak ⟨c :: cs, m⟩ = ([c], ⟨cs, m.across c⟩) := by
  obtain rfl | h := h
  · rfl
  · have hr : c ≠ '\r' := by
      rintro rfl
      exact absurd h (by decide)
    rw [Mark.across_of_isBreak (isBreak_of_isSeparator h)]
    simp [lineBreak, hr, h]

end Cursor

/-! ### Running lexers -/

namespace Lexer

section Running

variable {α β : Type}

theorem bind_ok {l : Lexer α} {c c' : Cursor} {a : α} (h : l c = .ok (a, c')) (f : α → Lexer β) :
    (l >>= f) c = f a c' := by
  show (StateT.bind l f) c = _
  rw [StateT.bind, h]
  rfl

theorem bind_mark (c : Cursor) (f : Mark → Lexer β) : (mark >>= f) c = f c.mark c := rfl

theorem bind_get (c : Cursor) (f : Cursor → Lexer β) : (get >>= f) c = f c c := rfl

theorem bind_peek? (c : Cursor) (f : Option Char → Lexer β) :
    (peek? >>= f) c = f c.rest.head? c := rfl

theorem bind_rest (c : Cursor) (f : List Char → Lexer β) : (rest >>= f) c = f c.rest c := rfl

theorem bind_skip (c : Char) (cs : List Char) (m : Mark) (f : Unit → Lexer β) :
    (skip >>= f) ⟨c :: cs, m⟩ = f () ⟨cs, m.past c⟩ := rfl

theorem pure_eq (a : α) (c : Cursor) : (pure a : Lexer α) c = .ok (a, c) := rfl

theorem take_append {cs : List Char} (h : ∀ c ∈ cs, isBreak c = false) (ds : List Char)
    (m : Mark) : take cs.length ⟨cs ++ ds, m⟩ = .ok (cs, ⟨ds, m.through cs⟩) := by
  rw [take, List.take_left, Cursor.advanceBy_append h]

theorem takeWhile_append {p : Char → Bool} {cs ds : List Char} (hp : ∀ c ∈ cs, p c = true)
    (hb : ∀ c ∈ cs, isBreak c = false) (hs : Text.Stops p ds) (m : Mark) :
    takeWhile p ⟨cs ++ ds, m⟩ = .ok (cs, ⟨ds, m.through cs⟩) := by
  simp only [takeWhile, Text.takeWhile_append hp hs, Text.dropWhile_append hp hs,
    Mark.foldl_past hb]

theorem takeWhile_nil {p : Char → Bool} {ds : List Char} (hs : Text.Stops p ds) (m : Mark) :
    takeWhile p ⟨ds, m⟩ = .ok ([], ⟨ds, m⟩) :=
  @takeWhile_append p [] ds nofun nofun hs m

theorem lineBreak_cons {c : Char} (h : c = '\n' ∨ isSeparator c = true) (cs : List Char)
    (m : Mark) : lineBreak ⟨c :: cs, m⟩ = .ok ([c], ⟨cs, m.across c⟩) := by
  rw [lineBreak, Cursor.lineBreak_cons h]

theorem skipComment_eq {c : Cursor} (h : c.rest.head? ≠ some '#') :
    skipComment c = .ok ((), c) := by
  rw [skipComment, bind_peek?, if_neg h]
  rfl

end Running

end Lexer

end ApiSurface.Yaml
