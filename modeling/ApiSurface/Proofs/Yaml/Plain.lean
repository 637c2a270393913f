/-
A plain scalar is read as its text.

`PlainText` says what a text is like that may be written plain: words on one line with spaces
between them, in which no colon stands before a gap and no hash after one.

* `plainScalar_line` — a value, up to the next token after the end of its line;
* `plainScalar_key` — a key, up to its colon.
-/
import ApiSurface.Proofs.Yaml.Gap
import ApiSurface.Proofs.Yaml.Style

namespace ApiSurface.Yaml

/-! ### Plain texts -/

/-- Whether a plain scalar ends before the second of two neighbours. -/
def Style.partsPlain (a b : Char) : Bool := a == ':' && isGap b || isGap a && b == '#'

/-- A text that may be written plain. -/
structure PlainText (cs : List Char) : Prop where
  nonempty : cs ≠ []
  line : ∀ c ∈ cs, isBreak c = false
  noTab : '\t' ∉ cs
  unparted : Style.anyPair Style.partsPlain (cs ++ ['\n']) = false
  first : ∀ c, cs.head? = some c → isGap c = false ∧ c ≠ '#'
  last : cs.getLast? ≠ some ' '

namespace PlainText

variable {cs : List Char}

theorem of_plainAllowed (h : Style.plainAllowed cs = true) (nonempty : cs ≠ []) :
    PlainText cs := by
  simp only [Style.plainAllowed, Style.hasLooseEnd, Style.endsEarly, Bool.and_eq_true,
    Bool.not_eq_true', Bool.or_eq_false_iff, List.any_eq_false, List.all_eq_true,
    beq_eq_false_iff_ne] at h
  obtain ⟨⟨⟨⟨hprint, hline⟩, hfirst, hlast⟩, hstart⟩, hcolon, hpair⟩ := h
  refine ⟨nonempty, by simpa using hline, fun ht => ?_, ?_, fun c hc => ?_, fun hl => ?_⟩
  · exact absurd (hprint '\t' ht) (by decide)
  · refine Style.anyPair_append_singleton hpair fun c hc => ?_
    have : c ≠ ':' := by
      rintro rfl
      exact hcolon hc
    simp [Style.partsPlain, this]
  · obtain ⟨d, ds, rfl⟩ := List.exists_cons_of_ne_nil nonempty
    obtain rfl : d = c := by simpa using hc
    simp only [List.head?_cons, Option.any_some, Bool.or_eq_false_iff,
      beq_eq_false_iff_ne] at hfirst
    simp only [Style.startsLikeOther, Bool.or_eq_false_iff] at hstart
    refine ⟨?_, ?_⟩
    · have ht : d ≠ '\t' := by
        rintro rfl
        exact absurd (hprint _ List.mem_cons_self) (by decide)
      simp [isGap, isBlank, hfirst, ht]
    · rintro rfl
      exact absurd hstart.1.1.1 (by simp [Style.indicators])
  · simp [hl] at hlast

/-- A plain text is one word, or a word and a plain text with spaces between them. -/
theorem word_or_words (h : PlainText cs) :
    (∀ c ∈ cs, isGap c = false) ∨
      ∃ word n ds, cs = word ++ (spaces (n + 1) ++ ds) ∧ word ≠ [] ∧
        (∀ c ∈ word, isGap c = false) ∧ PlainText ds := by
  have space_of_gap {c : Char} (hc : c ∈ cs) (hg : isGap c = true) : c = ' ' := by
    have ht : c ≠ '\t' := fun ht => h.noTab (ht ▸ hc)
    simpa [isGap, isBlank, h.line c hc, ht] using hg
  obtain ⟨word, rest, rfl, hword, hrest⟩ := Text.exists_run (!isGap ·) cs
  replace hword : ∀ c ∈ word, isGap c = false := fun c hc => by simpa using hword c hc
  obtain ⟨n, ds, rfl, hds⟩ := exists_spaces rest
  -- The word ends at a space or at the end of the text.
  cases n with
  | zero =>
    cases ds with
    | nil => exact .inl fun c hc => hword c (by simpa using hc)
    | cons d ds =>
      have hd := hrest d rfl
      refine absurd (congrArg some (space_of_gap (by simp) ?_)) hds
      simpa using hd
  | succ n =>
    refine .inr ⟨word, n, ds, rfl, ?_, hword, ?_⟩
    · rintro rfl
      exact absurd (h.first ' ' rfl).1 (by decide)
    have mem_of_mem {c : Char} (hc : c ∈ ds) : c ∈ word ++ (spaces (n + 1) ++ ds) :=
      List.mem_append_right _ (List.mem_append_right _ hc)
    -- The last space and what follows it are all that the conditions on neighbours look at.
    have split : word ++ (spaces (n + 1) ++ ds) = (word ++ spaces n) ++ ' ' :: ds := by
      rw [spaces_add]
      simp [spaces_succ]
    have hpairs := h.unparted
    rw [split, List.append_assoc] at hpairs
    replace hpairs := Style.anyPair_of_append_right _ hpairs
    have nonempty : ds ≠ [] := by
      rintro rfl
      exact h.last (by rw [split]; simp)
    refine ⟨nonempty, fun c hc => h.line c (mem_of_mem hc), fun ht => h.noTab (mem_of_mem ht),
      Style.anyPair_of_append_right [' '] hpairs, fun c hc => ?_, fun hl => ?_⟩
    · obtain ⟨d, es, rfl⟩ := List.exists_cons_of_ne_nil nonempty
      obtain rfl : d = c := by simpa using hc
      refine ⟨?_, ?_⟩
      · cases hg : isGap d with
        | false => rfl
        | true => exact absurd (congrArg some (space_of_gap (mem_of_mem List.mem_cons_self) hg)) hds
      · rintro rfl
        simp [Style.anyPair, Style.partsPlain, isGap, isBlank] at hpairs
    · refine h.last ?_
      rw [split, List.getLast?_append, List.getLast?_cons, hl]
      rfl

end PlainText

/-! ### Reading words -/

namespace Lexer

/-- A word is read up to a character that ends it. -/
theorem plainLength_word {word : List Char} {d : Char} (hw : ∀ c ∈ word, isGap c = false)
    (h : Style.anyPair Style.partsPlain (word ++ [d]) = false) (rest : List Char)
    (hd : endsPlain false d rest.head? = true) :
    plainLength false (word ++ d :: rest) = word.length := by
  induction word with
  | nil =>
    rw [List.nil_append, plainLength, hd]
    rfl
  | cons c word ih =>
    have hc : isGap c = false := hw c List.mem_cons_self
    obtain ⟨e, es, he⟩ := List.exists_cons_of_ne_nil (l := word ++ [d]) (by simp)
    have hhead : (word ++ d :: rest).head? = some e := by
      rw [List.append_cons, he]
      rfl
    rw [List.cons_append, he, Style.anyPair, ← he, Bool.or_eq_false_iff] at h
    have ih := ih (fun x hx => hw x (List.mem_cons_of_mem c hx)) h.2
    have hends : endsPlain false c (some e) = false := by
      simpa [Style.partsPlain, endsPlain, hc, isGapOrEnd] using h.1
    rw [List.cons_append, plainLength, hhead, hends, ih]
    rfl

/-- One word of a plain scalar. -/
theorem plainWords_word {word rest : List Char} (nonempty : word ≠ [])
    (hw : ∀ c ∈ word, isGap c = false) (hlen : plainLength false (word ++ rest) = word.length)
    {m : Mark} (hm : Cursor.atDocumentMarker ⟨word ++ rest, m⟩ = false)
    (hh : word.head? ≠ some '#') (indent : Nat) (start : Mark) (f : Char) (fuel : List Char)
    (parts : List (List Char)) (between : Gap) (stop : Mark) :
    plainWords false indent start (f :: fuel) parts between stop ⟨word ++ rest, m⟩ =
      (if !rest.head?.any isGap then
        (pure ⟨word :: between.text :: parts, m.through word, false⟩ : Lexer Plain)
      else do
        let g ← gap (some (indent, start)) rest {}
        if (← mark).column < indent then
          return ⟨word :: between.text :: parts, m.through word, g.broken⟩
        plainWords false indent start fuel (word :: between.text :: parts) g
          (m.through word)) ⟨rest, m.through word⟩ := by
  have hbreak : ∀ c ∈ word, isBreak c = false := fun c hc => isBreak_of_not_isGap (hw c hc)
  have hhead : (word ++ rest).head? ≠ some '#' := by
    obtain ⟨c, cs, rfl⟩ := List.exists_cons_of_ne_nil nonempty
    exact hh
  have hempty : word.isEmpty = false := by simpa using nonempty
  rw [plainWords, bind_get]
  simp only [hm, Bool.false_or, beq_iff_eq, if_neg hhead, hlen]
  rw [bind_ok (take_append hbreak rest m), bind_rest]
  -- the word ends with the text, or a blank or another character stands after it
  cases rest with
  | nil =>
    simp only [hempty, Bool.false_eq_true, if_false]
    rfl
  | cons x xs =>
    simp only [hempty, badColon, Bool.false_and, Bool.false_eq_true, if_false, Bool.not_false,
      Bool.true_and, decide_eq_true_eq]
    cases hx : isGap x <;>
      simp [bind_mark, bind_peek?, bind_rest, hx]

/-- The end of a line and the margin after it. -/
theorem gap_line (limit : Option (Nat × Mark)) (j k : Nat) {tail : List Char}
    (h : Text.Stops isGap tail) (g : Gap) (m : Mark) :
    ∃ g', gap limit ('\n' :: (margin j k ++ tail)) g ⟨'\n' :: (margin j k ++ tail), m⟩ =
      .ok (g', ⟨tail, m.through ('\n' :: margin j k)⟩) ∧ g'.broken = true := by
  rw [gap_break (.inl rfl), Mark.through_cons]
  have hbroken (g : Gap) : (g.addBreak ['\n']).broken = true := by
    rw [Gap.addBreak]
    split <;> simp [*]
  induction j generalizing g m with
  | zero =>
    exact ⟨_, gap_indent_stop (by simp [spaces]) (hbroken g) h _, hbroken g⟩
  | succ j ih =>
    have := ih (g.addBreak ['\n']) (m.across '\n')
    rwa [← gap_break (.inl rfl) '\n'] at this

/-- At the end of the text there is no further word. -/
theorem plainWords_nil (indent : Nat) (start : Mark) (fuel : List Char)
    (parts : List (List Char)) (between : Gap) (stop m : Mark) :
    plainWords false indent start fuel parts between stop ⟨[], m⟩ =
      .ok (⟨parts, stop, between.broken⟩, ⟨[], m⟩) := by
  cases fuel with
  | nil => rfl
  | cons f fuel =>
    have hm : Cursor.atDocumentMarker ⟨[], m⟩ = false := by
      simp [Cursor.atDocumentMarker, Cursor.startsMarker]
    rw [plainWords, bind_get, hm]
    rfl

/-- A word and the spaces after it, before another word. -/
theorem plainWords_spaces {word rest : List Char} {j : Nat} (nonempty : word ≠ [])
    (hw : ∀ c ∈ word, isGap c = false)
    (hpair : Style.anyPair Style.partsPlain (word ++ [' ']) = false)
    (hrest : Text.Stops isGap rest) {m : Mark}
    (hm : Cursor.atDocumentMarker ⟨word ++ (spaces (j + 1) ++ rest), m⟩ = false)
    (hh : word.head? ≠ some '#') {indent : Nat} (hi : indent ≤ m.column) (start : Mark) (f : Char)
    (fuel : List Char) (parts : List (List Char)) (between : Gap) (stop : Mark) :
    plainWords false indent start (f :: fuel) parts between stop
        ⟨word ++ (spaces (j + 1) ++ rest), m⟩ =
      plainWords false indent start fuel (word :: between.text :: parts)
        { blanks := spaces (j + 1) } (m.through word)
        ⟨rest, m.through (word ++ spaces (j + 1))⟩ := by
  have hlen := plainLength_word hw hpair (spaces j ++ rest) rfl
  rw [← List.cons_append, ← spaces_succ] at hlen
  have hcol : ¬ (m.through (word ++ spaces (j + 1))).column < indent := by
    rw [Mark.through_append, Mark.column_through not_isBreak_of_mem_spaces,
      Mark.column_through fun c hc => isBreak_of_not_isGap (hw c hc)]
    omega
  have hgap : gap (some (indent, start)) (spaces (j + 1) ++ rest) {} _ = _ :=
    gap_spaces_stop (j + 1) hrest (m.through word)
  rw [← Mark.through_append] at hgap
  rw [plainWords_word nonempty hw hlen hm hh, if_neg (by simp [spaces_succ, isGap, isBlank]),
    bind_ok hgap, bind_mark, if_neg hcol]

/-- The words of a plain text are read with what stands between them, up to the next token. -/
theorem plainWords_line {cs : List Char} (h : PlainText cs) {j k indent : Nat} {tail : List Char}
    (ht : Text.Stops isGap tail) (hk : k < indent ∨ tail = []) (start : Mark) {m : Mark}
    (hm : Cursor.atDocumentMarker ⟨cs ++ '\n' :: (margin j k ++ tail), m⟩ = false)
    (hi : indent ≤ m.column) {fuel : List Char} (hf : cs.length ≤ fuel.length)
    (parts : List (List Char)) (between : Gap) (stop : Mark) :
    ∃ p, plainWords false indent start fuel parts between stop
        ⟨cs ++ '\n' :: (margin j k ++ tail), m⟩ =
          .ok (p, ⟨tail, m.through (cs ++ '\n' :: margin j k)⟩) ∧
      p.text = parts.reverse.flatten ++ between.text ++ cs ∧ p.broken = true := by
  -- By induction on the length: a word is taken away together with the spaces after it.
  induction hn : cs.length using Nat.strongRecOn generalizing cs m fuel parts between stop with
  | ind n ih =>
    have first := fun c hc => (h.first c hc).2
    obtain ⟨f, fuel, rfl⟩ : ∃ f fs, fuel = f :: fs := by
      refine List.exists_cons_of_ne_nil ?_
      rintro rfl
      exact h.nonempty (List.length_eq_zero_iff.mp (by simpa using hf))
    obtain hw | ⟨word, i, ds, rfl, hne, hw, hds⟩ := h.word_or_words
    · -- The last word, after which the scalar ends with its line.
      have hlen := plainLength_word hw h.unparted (margin j k ++ tail) rfl
      obtain ⟨g, hgap, hbroken⟩ := gap_line (some (indent, start)) j k ht {} (m.through cs)
      rw [plainWords_word h.nonempty hw hlen hm fun hc => first _ hc rfl]
      simp only [List.head?_cons, Option.any_some, isGap, isBlank, isBreak, beq_self_eq_true]
      rw [if_neg (by decide), bind_ok hgap, bind_mark]
      refine ⟨⟨cs :: between.text :: parts, m.through cs, true⟩, ?_, by simp [Plain.text], rfl⟩
      split
      · rw [Mark.through_append, hbroken]
        rfl
      · -- Nothing is indented less than the scalar here, so only the end of the text is left.
        rename_i hcol
        rw [Mark.through_cons, Mark.column_through_margin (by decide)] at hcol
        obtain rfl : tail = [] := hk.resolve_left hcol
        rw [plainWords_nil, Mark.through_append, hbroken]
    · -- Another word on the same line.
      have hpair : Style.anyPair Style.partsPlain (word ++ [' ']) = false := by
        refine Style.anyPair_of_append_left (spaces i ++ ds ++ ['\n']) ?_
        simpa [spaces_succ] using h.unparted
      have hstop : Text.Stops isGap (ds ++ '\n' :: (margin j k ++ tail)) := by
        intro c hc
        obtain ⟨d, es, rfl⟩ := List.exists_cons_of_ne_nil hds.nonempty
        exact (hds.first c hc).1
      have hcol : (m.through (word ++ spaces (i + 1))).column
          = m.column + word.length + (i + 1) := by
        rw [Mark.through_append, Mark.column_through not_isBreak_of_mem_spaces,
          Mark.column_through fun c hc => isBreak_of_not_isGap (hw c hc), length_spaces]
      simp only [List.length_append, length_spaces, List.length_cons] at hn hf
      have hm' := Cursor.atDocumentMarker_of_column (m := m.through (word ++ spaces (i + 1)))
        (by omega) (ds ++ '\n' :: (margin j k ++ tail))
      have hf' : ds.length ≤ fuel.length := by omega
      obtain ⟨p, hp, htext, hbroken⟩ := ih ds.length (by omega) hds hm' (by omega) hf'
        (word :: between.text :: parts) { blanks := spaces (i + 1) } (m.through word) rfl
      refine ⟨p, ?_, ?_, hbroken⟩
      · rw [List.append_assoc, List.append_assoc,
          plainWords_spaces hne hw hpair hstop (by simpa using hm)
            (fun hc => first '#' (by simp [hc]) rfl) hi, hp]
        simp
      · simpa [Gap.text] using htext

/-- A plain text is read up to the first token after the end of its line. -/
theorem plainScalar_line {cs : List Char} (h : PlainText cs) {j k indent : Nat} {tail : List Char}
    (ht : Text.Stops isGap tail) (hk : k < indent ∨ tail = []) {m : Mark}
    (hm : Cursor.atDocumentMarker ⟨cs ++ '\n' :: (margin j k ++ tail), m⟩ = false)
    (hi : indent ≤ m.column) :
    ∃ p, plainScalar false indent ⟨cs ++ '\n' :: (margin j k ++ tail), m⟩ =
        .ok (p, ⟨tail, m.through (cs ++ '\n' :: margin j k)⟩) ∧
      p.text = cs ∧ p.broken = true := by
  have hf : cs.length ≤ (cs ++ '\n' :: (margin j k ++ tail)).length := by simp
  obtain ⟨p, hp, htext, hbroken⟩ := plainWords_line h ht hk m hm hi hf [] {} m
  refine ⟨p, ?_, htext, hbroken⟩
  rw [plainScalar, bind_mark, bind_rest, hp]

/-- A word of letters and digits is read as a key up to its colon. -/
theorem plainScalar_key {word : List Char} (nonempty : word ≠ [])
    (hw : ∀ c ∈ word, c.isAlphanum = true) {d : Char} (hd : isGap d = true) (indent : Nat)
    (rest : List Char) (m : Mark) :
    ∃ p, plainScalar false indent ⟨word ++ ':' :: d :: rest, m⟩ =
        .ok (p, ⟨':' :: d :: rest, m.through word⟩) ∧
      p.text = word ∧ p.broken = false := by
  have hgap : ∀ c ∈ word, isGap c = false := fun c hc => isGap_of_isAlphanum (hw c hc)
  have hpair : Style.anyPair Style.partsPlain (word ++ [':']) = false := by
    refine Style.anyPair_of_forall (fun a ha b => ?_) ':'
    have hcolon := ne_of_isAlphanum (hw a ha) (show ':'.isAlphanum = false by decide)
    simp [Style.partsPlain, hcolon, hgap a ha]
  have hlen := plainLength_word hgap hpair (d :: rest) (by simp [endsPlain, isGapOrEnd, hd])
  obtain ⟨c, cs, rfl⟩ := List.exists_cons_of_ne_nil nonempty
  have hc := hw c List.mem_cons_self
  -- A word of letters and digits starts like no marker.
  have hm := Cursor.atDocumentMarker_of_head (ne_of_isAlphanum hc (by decide))
    (ne_of_isAlphanum hc (by decide)) (cs ++ ':' :: d :: rest) m
  have hh : (c :: cs).head? ≠ some '#' := by
    simpa using ne_of_isAlphanum hc (by decide)
  refine ⟨⟨[c :: cs, []], m.through (c :: cs), false⟩, ?_, by simp [Plain.text], rfl⟩
  rw [plainScalar, bind_mark, bind_rest]
  refine (plainWords_word nonempty hgap hlen hm hh indent m _ _ [] {} m).trans ?_
  rfl

end Lexer

end ApiSurface.Yaml
