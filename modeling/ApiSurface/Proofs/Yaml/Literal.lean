/-
A literal block is read as its text.

Each line of the text is indented, empty lines are not, and the indicators say how many of the line
ends after the last line belong to the text. `blockLines_lines` reads the lines one by one,
`chomped_eq` gives what the indicators make of the last line ends, and `blockScalar_literal` puts
the two together.
-/
import ApiSurface.Proofs.Yaml.Gap

namespace ApiSurface.Yaml

/-- Whether a character is a line end that is read as itself. -/
def IsLineEnd (c : Char) : Prop := c = '\n' ∨ isSeparator c = true

theorem IsLineEnd.isBreak {c : Char} (h : IsLineEnd c) : isBreak c = true := by
  obtain rfl | h := h
  · rfl
  · exact isBreak_of_isSeparator h

theorem isLineEnd_of_isPrintable {c : Char} (h : Style.isPrintable c = true)
    (hb : isBreak c = true) : IsLineEnd c := by
  simp only [isBreak, Bool.or_eq_true, beq_iff_eq] at hb
  obtain ((rfl | rfl) | rfl) | hb := hb
  · exact .inl rfl
  · exact absurd h (by decide)
  · exact absurd h (by decide)
  · exact .inr hb

/-- A text that stands for itself has no other blanks than spaces. -/
theorem eq_space_of_isPrintable {c : Char} (h : Style.isPrintable c = true)
    (hg : isGap c = true) : c = ' ' ∨ IsLineEnd c := by
  simp only [isGap, isBlank, Bool.or_eq_true, beq_iff_eq] at hg
  obtain (rfl | rfl) | hb := hg
  · exact .inl rfl
  · exact absurd h (by decide)
  · exact .inr (isLineEnd_of_isPrintable h hb)

/-! ### Indicators -/

/-- Whether the first line of a text hides the indentation. -/
def hidesIndent (cs : List Char) : Bool := cs.head?.any fun c => c == ' ' || isBreak c

/-- What becomes of the line ends after the last line of a text. -/
def chompingOf (cs : List Char) : Chomping :=
  match cs.reverse with
  | [] => .strip
  | [c] => if isBreak c then .keep else .strip
  | c :: d :: _ => if !isBreak c then .strip else if isBreak d then .keep else .clip

/-- Whether a text is written as a literal block that keeps the line ends after it. -/
def KeepsBreaks (t : String) : Prop :=
  Style.ofText t = .literal ∧ chompingOf t.toList = .keep

/-- The indicator for the line ends. -/
def Chomping.written : Chomping → List Char
  | .strip => ['-']
  | .clip => []
  | .keep => ['+']

theorem literalIndicators_eq (cs : List Char) :
    literalIndicators cs = (if hidesIndent cs then ['2'] else []) ++ (chompingOf cs).written := by
  rw [literalIndicators, chompingOf]
  congr 1
  match cs.reverse with
  | [] => rfl
  | [c] =>
    show (if isBreak c then _ else _) = (if isBreak c then Chomping.keep else .strip).written
    cases isBreak c <;> rfl
  | c :: d :: _ =>
    show (if !isBreak c then _ else if isBreak d then _ else _) =
      (if !isBreak c then Chomping.strip else if isBreak d then .keep else .clip).written
    cases isBreak c <;> cases isBreak d <;> rfl

namespace Lexer

theorem blockIndicators_eq (start : Mark) (hidden : Bool) (chomp : Chomping) (rest : List Char)
    (m : Mark) :
    blockIndicators start ⟨(if hidden then ['2'] else []) ++ (chomp.written ++ '\n' :: rest), m⟩ =
      .ok ((chomp, if hidden then some 2 else none),
        ⟨'\n' :: rest, m.through ((if hidden then ['2'] else []) ++ chomp.written)⟩) := by
  cases hidden <;> cases chomp <;> rfl

/-! ### Empty lines -/

theorem length_takeWhile_spaces {rest : List Char} (h : rest.head? ≠ some ' ') (j : Nat) :
    ((spaces j ++ rest).takeWhile (· == ' ')).length = j := by
  have stop : Text.Stops (· == ' ') rest := by
    intro c hc
    rw [beq_eq_false_iff_ne]
    rintro rfl
    exact h hc
  have hj : ∀ c ∈ spaces j, (c == ' ') = true := fun c hc => by simp [List.eq_of_mem_replicate hc]
  rw [Text.takeWhile_append hj stop, length_spaces]

theorem le_length_takeWhile_spaces (j : Nat) (rest : List Char) :
    j ≤ ((spaces j ++ rest).takeWhile (· == ' ')).length := by
  have hj : ∀ c ∈ spaces j, (c == ' ') = true := fun c hc => by simp [List.eq_of_mem_replicate hc]
  rw [List.takeWhile_append_of_pos hj, List.length_append, length_spaces]
  exact Nat.le_add_right ..

/-- One round: the indentation of a line that is empty or not. -/
theorem emptyLines_round {indent j : Nat} {rest : List Char} {m : Mark}
    (hj : (if indent = 0 then ((spaces j ++ rest).takeWhile (· == ' ')).length
      else min ((spaces j ++ rest).takeWhile (· == ' ')).length (indent - m.column)) = j)
    (tab : rest.head? ≠ some '\t') (least : Nat) (start : Mark) (f : Char) (fuel : List Char)
    (deepest : Nat) (breaks : List Char) :
    emptyLines least start (f :: fuel) indent deepest breaks ⟨spaces j ++ rest, m⟩ =
      (if rest.head?.any isBreak then do
        let b ← lineBreak
        emptyLines least start fuel indent (max deepest (m.through (spaces j)).column) (breaks ++ b)
      else return (breaks, if indent = 0 then
        max (max deepest (m.through (spaces j)).column) least else indent) : Lexer _)
        ⟨rest, m.through (spaces j)⟩ := by
  have htake := @take_append (spaces j) not_isBreak_of_mem_spaces rest m
  rw [length_spaces] at htake
  rw [emptyLines, bind_get]
  simp only [hj]
  rw [bind_ok htake, bind_mark, bind_peek?]
  simp only [if_neg (fun h : (_ ∧ rest.head? = some '\t') => tab h.2)]

/-- Empty lines are read, and as much of the next line as is indentation. -/
theorem emptyLines_eq {bs rest : List Char} {indent j : Nat} (hb : ∀ b ∈ bs, IsLineEnd b)
    (hi : 0 < indent) (hj : j = indent ∨ j < indent ∧ rest.head? ≠ some ' ')
    (tab : rest.head? ≠ some '\t') (stop : Text.Stops isBreak rest) (least : Nat) (start : Mark)
    {fuel : List Char} (hf : (bs ++ (spaces j ++ rest)).length ≤ fuel.length) (deepest : Nat)
    (breaks : List Char) {m : Mark} (hm : m.column = 0) :
    emptyLines least start fuel indent deepest breaks ⟨bs ++ (spaces j ++ rest), m⟩ =
      .ok ((breaks ++ bs, indent), ⟨rest, m.through (bs ++ spaces j)⟩) := by
  have hindent : indent ≠ 0 := by omega
  induction bs generalizing fuel deepest breaks m with
  | nil =>
    cases fuel with
    | nil =>
      obtain ⟨rfl, rfl⟩ : j = 0 ∧ rest = [] := by simpa using hf
      rw [emptyLines, bind_mark, if_neg hindent]
      simp [pure_eq]
    | cons f fuel =>
      -- The line is indented as far as the block, or it ends the block and is not.
      have hlen : min ((spaces j ++ rest).takeWhile (· == ' ')).length (indent - m.column) = j := by
        rw [hm]
        obtain rfl | ⟨hlt, hrest⟩ := hj
        · have := le_length_takeWhile_spaces j rest
          omega
        · rw [length_takeWhile_spaces hrest]
          omega
      have hany : ¬ rest.head?.any isBreak = true := by
        cases rest with
        | nil => exact nofun
        | cons c cs => simp [stop c rfl]
      rw [List.nil_append, emptyLines_round (by rw [if_neg hindent, hlen]) tab, if_neg hany,
        if_neg hindent]
      simp [pure_eq]
  | cons b bs ih =>
    obtain ⟨f, fuel, rfl⟩ := List.exists_cons_of_length_pos
      (Nat.lt_of_lt_of_le (by simp) hf)
    have hbreak := hb b List.mem_cons_self
    -- A line end is no space, so nothing is taken before it.
    have hlen : min ((spaces 0 ++ (b :: (bs ++ (spaces j ++ rest)))).takeWhile (· == ' ')).length
        (indent - m.column) = 0 := by
      rw [length_takeWhile_spaces]
      · omega
      · intro h
        rw [Option.some.inj h] at hbreak
        exact absurd hbreak.isBreak (by decide)
    have htab : (b :: (bs ++ (spaces j ++ rest))).head? ≠ some '\t' := by
      intro h
      rw [Option.some.inj h] at hbreak
      exact absurd hbreak.isBreak (by decide)
    have ih := ih (fun x hx => hb x (List.mem_cons_of_mem b hx)) (by simpa using hf)
      (max deepest (m.through (spaces 0)).column) (breaks ++ [b])
      (Mark.column_across_of_isBreak hbreak.isBreak m)
    refine (emptyLines_round (j := 0) (by rw [if_neg hindent]; exact hlen) htab least start f fuel
      deepest breaks).trans ?_
    rw [if_pos (by simp [hbreak.isBreak]), bind_ok (lineBreak_cons hbreak _ _)]
    refine ih.trans ?_
    simp

/-- An indentation that is not given is that of the first line. -/
theorem emptyLines_detect {rest : List Char} {indent least : Nat} (hl : least ≤ indent)
    (first : Text.Stops isGap rest) (start : Mark) {fuel : List Char}
    (hf : 0 < fuel.length) {m : Mark} (hm : m.column = 0) :
    emptyLines least start fuel 0 0 [] ⟨spaces indent ++ rest, m⟩ =
      .ok (([], indent), ⟨rest, m.through (spaces indent)⟩) := by
  obtain ⟨f, fuel, rfl⟩ := List.exists_cons_of_length_pos hf
  have hspace : rest.head? ≠ some ' ' := fun h => absurd (first _ h) (by decide)
  have htab : rest.head? ≠ some '\t' := fun h => absurd (first _ h) (by decide)
  have hany : ¬ rest.head?.any isBreak = true := by
    cases rest with
    | nil => exact nofun
    | cons c cs => simp [isBreak_of_not_isGap (first c rfl)]
  have hcol : (m.through (spaces indent)).column = indent := by
    rw [Mark.column_through not_isBreak_of_mem_spaces, hm, length_spaces, Nat.zero_add]
  rw [emptyLines_round (by rw [if_pos rfl, length_takeWhile_spaces hspace]) htab, if_neg hany,
    if_pos rfl, hcol, pure_eq, Nat.zero_max, Nat.max_eq_left hl]

/-- The empty lines before the first line, and the indentation of that line, whether an indicator
gives it or the line shows it. -/
theorem emptyLines_first {bs ds rest : List Char} {d : Char} {indent least : Nat}
    (hl : least ≤ indent) (hi : 0 < indent) (hb : ∀ b ∈ bs, IsLineEnd b) (hd : isBreak d = false)
    (tab : d ≠ '\t') (head : rest.head? = some d) (start : Mark) {m : Mark} (hm : m.column = 0) :
    emptyLines least start (bs ++ (spaces indent ++ rest))
        (if hidesIndent (bs ++ d :: ds) then indent else 0) 0 []
        ⟨bs ++ (spaces indent ++ rest), m⟩ =
      .ok ((bs, indent), ⟨rest, m.through (bs ++ spaces indent)⟩) := by
  have hstop : Text.Stops isBreak rest := by
    intro c hc
    obtain rfl : d = c := by simpa [head] using hc
    exact hd
  split
  · exact emptyLines_eq hb hi (.inl rfl) (by simpa [head] using tab) hstop least start
      (Nat.le_refl _) 0 [] hm
  · rename_i shown
    cases bs with
    | nil =>
      have hspace : d ≠ ' ' := by simpa [hidesIndent, hd] using shown
      have first : Text.Stops isGap rest := by
        intro c hc
        obtain rfl : d = c := by simpa [head] using hc
        simp [isGap, isBlank, hd, hspace, tab]
      exact emptyLines_detect hl first start (by simp [spaces]; omega) hm
    -- A text that starts with a line end has the indicator.
    | cons b bs =>
      have hbreak := (hb b List.mem_cons_self).isBreak
      exact absurd (by simp [hidesIndent, hbreak]) shown

/-! ### Lines -/

/-- One line, the line end after it, and the empty lines and the indentation up to the next one. -/
theorem blockLines_line {line bs rest : List Char} {b : Char} {indent j : Nat}
    (hline : ∀ c ∈ line, isBreak c = false) (hb : ∀ x ∈ b :: bs, IsLineEnd x) (hi : 0 < indent)
    (hj : j = indent ∨ j < indent ∧ rest.head? ≠ some ' ') (tab : rest.head? ≠ some '\t')
    (stop : Text.Stops isBreak rest) (start : Mark) (f : Char) (fuel : List Char) (s : BlockState)
    {m : Mark} (hm : m.column = indent) :
    ∃ blank, blockLines true indent start (f :: fuel) s
        ⟨line ++ b :: (bs ++ (spaces j ++ rest)), m⟩ =
      blockLines true indent start fuel
        ⟨line :: (s.lead ++ s.trailing) :: s.parts, [b], bs, blank⟩
        ⟨rest, m.through (line ++ b :: (bs ++ spaces j))⟩ := by
  have hbreak := hb b List.mem_cons_self
  have hstop : Text.Stops (!isBreak ·) (b :: (bs ++ (spaces j ++ rest))) := by
    rintro _ ⟨⟩
    simp [hbreak.isBreak]
  have htake := takeWhile_append (p := (!isBreak ·)) (fun c hc => by simp [hline c hc]) hline
    hstop m
  have hempty := emptyLines_eq (fun x hx => hb x (List.mem_cons_of_mem b hx)) hi hj tab stop indent
    start (Nat.le_refl _) 0 [] (Mark.column_across_of_isBreak hbreak.isBreak (m.through line))
  rw [blockLines, bind_get]
  refine ⟨(line ++ b :: (bs ++ (spaces j ++ rest))).head?.any isBlank,
    (congrFun (if_pos ⟨hm, by simp⟩) _).trans ?_⟩
  rw [bind_ok htake, bind_ok (lineBreak_cons hbreak _ _), bind_rest]
  refine (bind_ok hempty _).trans ?_
  simp [BlockState.join]

/-- Lines end where the indentation does. -/
theorem blockLines_stop {indent : Nat} {m : Mark} (hm : m.column ≠ indent) (start : Mark)
    (fuel : List Char) (s : BlockState) (cs : List Char) :
    blockLines true indent start fuel s ⟨cs, m⟩ = .ok (s, ⟨cs, m⟩) := by
  cases fuel with
  | nil => rfl
  | cons f fuel =>
    rw [blockLines, bind_get]
    exact congrFun (if_neg fun h => hm h.1) _

end Lexer

section Lines

variable {indent : Nat}

theorem literalLines_rest {line : List Char} (h : ∀ c ∈ line, isBreak c = false)
    (cs : List Char) :
    literalLines indent false (line ++ cs) = line ++ literalLines indent false cs := by
  induction line with
  | nil => rfl
  | cons c line ih =>
    rw [List.cons_append, literalLines, if_neg (by simp [h c List.mem_cons_self]),
      ih fun x hx => h x (List.mem_cons_of_mem c hx)]
    rfl

theorem literalLines_breaks {fresh : Bool} {bs : List Char} (h : ∀ b ∈ bs, isBreak b = true)
    (nonempty : bs ≠ []) (cs : List Char) :
    literalLines indent fresh (bs ++ cs) = bs ++ literalLines indent true cs := by
  induction bs generalizing fresh with
  | nil => exact absurd rfl nonempty
  | cons b bs ih =>
    rw [List.cons_append, literalLines, if_pos (h b List.mem_cons_self)]
    cases bs with
    | nil => rfl
    | cons d bs => rw [ih (fun x hx => h x (List.mem_cons_of_mem b hx)) (by simp)]; rfl

/-- A line that was begun is indented. -/
theorem literalLines_fresh {cs : List Char} (nonempty : cs ≠ []) (h : Text.Stops isBreak cs) :
    literalLines indent true cs = spaces indent ++ literalLines indent false cs := by
  obtain ⟨c, cs, rfl⟩ := List.exists_cons_of_ne_nil nonempty
  simp [literalLines, h c rfl]

theorem head?_literalLines {d : Char} (h : isBreak d = false) (ds : List Char) :
    (literalLines indent false (d :: ds)).head? = some d := by
  rw [literalLines, if_neg (by simp [h])]
  rfl

/-- The line end that is added to a text without one. -/
def closingBreak (cs : List Char) : List Char := if cs.getLast?.any isBreak then [] else ['\n']

theorem closingBreak_append (cs : List Char) {ds : List Char} (nonempty : ds ≠ []) :
    closingBreak (cs ++ ds) = closingBreak ds := by
  cases h : ds.getLast? with
  | none => exact absurd (List.getLast?_eq_none_iff.mp h) nonempty
  | some d => simp [closingBreak, h]

theorem closingBreak_of_line {line : List Char} (nonempty : line ≠ [])
    (h : ∀ c ∈ line, isBreak c = false) : closingBreak line = ['\n'] := by
  simp [closingBreak, List.getLast?_eq_some_getLast nonempty, h _ (List.getLast_mem nonempty)]

theorem closingBreak_of_breaks {bs : List Char} (nonempty : bs ≠ [])
    (h : ∀ b ∈ bs, isBreak b = true) : closingBreak bs = [] := by
  simp [closingBreak, List.getLast?_eq_some_getLast nonempty, h _ (List.getLast_mem nonempty)]

theorem literalLines_append_break {b : Char} (hb : isBreak b = true) (indent : Nat) (fresh : Bool)
    (cs : List Char) :
    literalLines indent fresh (cs ++ [b]) = literalLines indent fresh cs ++ [b] := by
  induction cs generalizing fresh with
  | nil => simp [literalLines, hb]
  | cons c cs ih =>
    rw [List.cons_append, literalLines, literalLines, ih true, ih false]
    split <;> simp

/-- The last line end of a literal block is its own or the text's. -/
theorem endsLine_literal (indent : Nat) (cs : List Char) : EndsLine (literal indent cs) := by
  have lines : EndsLine ('\n' :: (literalLines indent true cs ++ closingBreak cs)) := by
    rw [closingBreak]
    split
    · rename_i hlast
      obtain ⟨b, hlast, hb⟩ := (Option.any_eq_true ..).mp hlast
      obtain ⟨ds, rfl⟩ := List.getLast?_eq_some_iff.mp hlast
      rw [literalLines_append_break hb]
      exact ⟨'\n' :: literalLines indent true ds, b, by simp, hb⟩
    · exact endsLine_append_newline ('\n' :: literalLines indent true cs)
  exact lines.append_left ('|' :: literalIndicators cs)

end Lines

namespace Lexer

/-- Whether lines were read to the end of a text and of some empty lines after it: the last line,
the first line end after it, which may have been added, and the others. -/
def BlockState.Holds (s : BlockState) (j : Nat) (pre cs : List Char) : Prop :=
  ∃ body c ends, isBreak c = false ∧ (∀ b ∈ ends, isBreak b = true) ∧ cs = body ++ c :: ends ∧
    s.parts.reverse.flatten = pre ++ (body ++ [c]) ∧ s.lead = [ends.head?.getD '\n'] ∧
    s.trailing = ends.tail ++ List.replicate j '\n'

theorem BlockState.Holds.of_append {s : BlockState} {j : Nat} {pre cs ds : List Char}
    (h : s.Holds j (pre ++ cs) ds) : s.Holds j pre (cs ++ ds) := by
  obtain ⟨body, c, ends, hc, hends, rfl, hparts, hlead, htrailing⟩ := h
  exact ⟨cs ++ body, c, ends, hc, hends, by simp, by simp [hparts], hlead, htrailing⟩

/-- The last line, with the line ends after it, whether they belong to the text or were added. -/
theorem blockLines_last {line ends bs tail : List Char} {b : Char} {j k indent : Nat}
    (nonempty : line ≠ []) (hline : ∀ c ∈ line, isBreak c = false)
    (hb : ∀ x ∈ b :: bs, IsLineEnd x) (hends : ∀ x ∈ ends, isBreak x = true)
    (hlead : b = ends.head?.getD '\n') (htrailing : bs = ends.tail) (hk : k < indent)
    (ht : Text.Stops isGap tail) (start : Mark) (f : Char) (fuel : List Char) (s : BlockState)
    {m : Mark} (hm : m.column = indent) :
    ∃ s', blockLines true indent start (f :: fuel) s
        ⟨line ++ b :: (bs ++ (margin j k ++ tail)), m⟩ =
          .ok (s', ⟨tail, m.through (line ++ b :: (bs ++ margin j k))⟩) ∧
      s'.Holds j (s.parts.reverse.flatten ++ (s.lead ++ s.trailing)) (line ++ ends) := by
  have hspace : tail.head? ≠ some ' ' := fun h => absurd (ht _ h) (by decide)
  have htab : tail.head? ≠ some '\t' := fun h => absurd (ht _ h) (by decide)
  have hstop : Text.Stops isBreak tail := fun c hc => isBreak_of_not_isGap (ht c hc)
  -- The empty lines are read like the line ends of the text.
  have hlines : ∀ x ∈ b :: (bs ++ List.replicate j '\n'), IsLineEnd x := by
    rw [← List.cons_append]
    exact fun x hx => (List.mem_append.mp hx).elim (hb x) fun h => .inl (List.eq_of_mem_replicate h)
  obtain ⟨blank, hread⟩ := blockLines_line hline hlines (by omega) (.inr ⟨hk, hspace⟩) htab hstop
    start f fuel s hm
  have hcol : (m.through (line ++ b :: (bs ++ List.replicate j '\n' ++ spaces k))).column ≠
      indent := by
    rw [Mark.through_append, ← List.cons_append,
      Mark.column_through_breaks (fun x hx => (hlines x hx).isBreak) (by simp)]
    omega
  rw [margin, List.append_assoc, ← List.append_assoc bs, ← List.append_assoc bs]
  have hbody : line = line.dropLast ++ [line.getLast nonempty] :=
    (List.dropLast_concat_getLast nonempty).symm
  -- The line is not empty: its last character is what the line ends come after.
  refine ⟨_, hread.trans (blockLines_stop hcol start fuel _ tail), line.dropLast,
    line.getLast nonempty, ends, hline _ (List.getLast_mem nonempty), hends, ?_, ?_,
    by rw [hlead], by rw [htrailing]⟩
  · rw [List.append_cons, ← hbody]
  · rw [← hbody]
    simp

/-- The lines of a text are read one by one. -/
theorem blockLines_lines {cs : List Char} (nonempty : cs ≠ []) (first : Text.Stops isBreak cs)
    (ends : ∀ c ∈ cs, isBreak c = true → IsLineEnd c) (noTab : '\t' ∉ cs) {j k indent : Nat}
    (hk : k < indent) {tail : List Char} (ht : Text.Stops isGap tail) (start : Mark)
    {fuel : List Char} (hf : cs.length ≤ fuel.length) (s : BlockState) {m : Mark}
    (hm : m.column = indent) :
    ∃ s', blockLines true indent start fuel s
        ⟨literalLines indent false cs ++ (closingBreak cs ++ (margin j k ++ tail)), m⟩ =
          .ok (s', ⟨tail, m.through (literalLines indent false cs ++
            (closingBreak cs ++ margin j k))⟩) ∧
      s'.Holds j (s.parts.reverse.flatten ++ (s.lead ++ s.trailing)) cs := by
  -- By induction on the length: a line and the line ends after it are taken away at once.
  induction hn : cs.length using Nat.strongRecOn generalizing cs s fuel m with
  | ind n ih =>
    obtain ⟨f, fuel, rfl⟩ := List.exists_cons_of_length_pos
      (Nat.lt_of_lt_of_le (List.length_pos_iff.mpr nonempty) hf)
    obtain ⟨line, rest, rfl, hline, hrest⟩ := Text.exists_run (!isBreak ·) cs
    replace hline : ∀ c ∈ line, isBreak c = false := fun c hc => by simpa using hline c hc
    have line_ne : line ≠ [] := by
      rintro rfl
      obtain ⟨c, cs, rfl⟩ := List.exists_cons_of_ne_nil nonempty
      exact absurd (hrest c rfl) (by simp [first c rfl])
    obtain ⟨bs, ds, rfl, hb, hds⟩ := Text.exists_run isBreak rest
    have hends : ∀ x ∈ bs, IsLineEnd x :=
      fun x hx => ends x (List.mem_append_right _ (List.mem_append_left _ hx)) (hb x hx)
    rw [literalLines_rest hline]
    cases bs with
    | nil =>
      -- The text ends with this line, whose line end was added.
      obtain rfl : ds = [] := by
        cases ds with
        | nil => rfl
        | cons d ds => exact absurd (hrest d rfl) (by simp [hds d rfl])
      have hadded : ∀ x ∈ ['\n'], IsLineEnd x := by simp [IsLineEnd]
      have hlast :=
        blockLines_last (j := j) line_ne hline hadded hb rfl rfl hk ht start f fuel s hm
      rw [List.append_nil, List.append_nil, closingBreak_of_line line_ne hline]
      simpa [literalLines] using hlast
    | cons b bs =>
      have hbs : b :: bs ≠ [] := by simp
      cases ds with
      | nil =>
        -- The text ends with its own line ends.
        have hlast :=
          blockLines_last (j := j) line_ne hline hends hb rfl rfl hk ht start f fuel s hm
        rw [closingBreak_append _ (by simp), List.append_nil, closingBreak_of_breaks hbs hb,
          ← List.append_nil (b :: bs), literalLines_breaks hb hbs]
        simpa [literalLines] using hlast
      | cons d ds =>
        have hne : d :: ds ≠ [] := by simp
        have hmem {c : Char} (hc : c ∈ d :: ds) : c ∈ line ++ (b :: bs ++ d :: ds) :=
          List.mem_append_right _ (List.mem_append_right _ hc)
        have htab : d ≠ '\t' := fun h => noTab (h ▸ hmem List.mem_cons_self)
        have hhead : (literalLines indent false (d :: ds) ++
            (closingBreak (d :: ds) ++ (margin j k ++ tail))).head? = some d := by
          rw [List.head?_append, head?_literalLines (hds d rfl), Option.some_or]
        obtain ⟨blank, hread⟩ := blockLines_line hline hends (by omega) (.inl rfl)
          (by simpa [hhead] using htab) (fun c hc => hds c (hhead.symm.trans hc)) start f fuel s hm
        have hcol : (m.through (line ++ b :: (bs ++ spaces indent))).column = indent := by
          rw [Mark.through_append, ← List.cons_append, Mark.column_through_breaks hb hbs]
        simp only [List.length_append, List.length_cons] at hn hf
        have hfuel : (d :: ds).length ≤ fuel.length := by
          rw [List.length_cons]
          omega
        obtain ⟨s', hs', hholds⟩ := ih (d :: ds).length (by rw [List.length_cons]; omega) hne hds
          (fun c hc => ends c (hmem hc)) (fun ht => noTab (hmem ht)) hfuel
          ⟨line :: (s.lead ++ s.trailing) :: s.parts, [b], bs, blank⟩ hcol rfl
        refine ⟨s', ?_, ?_⟩
        · rw [closingBreak_append _ (by simp), closingBreak_append _ hne,
            literalLines_breaks hb hbs, literalLines_fresh hne hds]
          simp only [List.append_assoc, List.cons_append]
          rw [hread, hs']
          simp
        · refine BlockState.Holds.of_append ?_
          rw [← List.append_assoc]
          refine BlockState.Holds.of_append ?_
          simpa using hholds

/-! ### The whole scalar -/

theorem chompingOf_line (body : List Char) {c : Char} (h : isBreak c = false) :
    chompingOf (body ++ [c]) = .strip := by
  rw [chompingOf, List.reverse_append]
  cases body.reverse <;> simp [h]

theorem chompingOf_break (body : List Char) {c b : Char} (hc : isBreak c = false)
    (hb : isBreak b = true) : chompingOf (body ++ [c, b]) = .clip := by
  simp [chompingOf, hc, hb]

theorem chompingOf_breaks (cs : List Char) {bs : List Char} (h : ∀ b ∈ bs, isBreak b = true)
    (several : 1 < bs.length) : chompingOf (cs ++ bs) = .keep := by
  have hrev : ∀ b ∈ bs.reverse, isBreak b = true := fun b hb => h b (List.mem_reverse.mp hb)
  rw [← List.length_reverse] at several
  rw [chompingOf, List.reverse_append]
  match bs.reverse, several, hrev with
  | b :: d :: _, _, hrev => simp [hrev]

theorem chompingOf_only_breaks {bs : List Char} (h : ∀ b ∈ bs, isBreak b = true)
    (nonempty : bs ≠ []) : chompingOf bs = .keep := by
  match bs, nonempty with
  | [b], _ => simp [chompingOf, h]
  | b :: d :: bs, _ => exact chompingOf_breaks [] h (by simp)

/-- The indicator for the line ends keeps those that belong to the text, and drops the empty lines
after it unless it keeps all. -/
theorem chomped_eq {s : BlockState} {j : Nat} {cs : List Char} (h : s.Holds j [] cs)
    (hj : chompingOf cs = .keep → j = 0) :
    s.parts.reverse.flatten ++ (if chompingOf cs = .strip then [] else s.lead) ++
      (if chompingOf cs = .keep then s.trailing else []) = cs := by
  obtain ⟨body, c, ends, hc, hends, rfl, hparts, hlead, htrailing⟩ := h
  rw [hparts, hlead, htrailing]
  -- None, one or several line ends: stripped, clipped or kept.
  match ends, hends with
  | [], _ => simp [chompingOf_line body hc]
  | [b], hends => simp [chompingOf_break body hc (hends b List.mem_cons_self)]
  | b :: d :: ends, hends =>
    have keep := chompingOf_breaks (body ++ [c]) hends (by simp)
    rw [← List.append_cons] at keep
    simp [keep, hj keep]

theorem length_le_literalLines (indent : Nat) (fresh : Bool) (cs : List Char) :
    cs.length ≤ (literalLines indent fresh cs).length := by
  induction cs generalizing fresh with
  | nil => exact Nat.zero_le _
  | cons c cs ih =>
    rw [literalLines]
    have fresh := ih true
    have same := ih false
    split <;> simp <;> omega

/-- What is read of a literal block after its first line. -/
def blockBody (outer : Int) (cs : List Char) (start : Mark) (fuel : List Char) :
    Lexer (List Char) := do
  let given := if hidesIndent cs then outer.toNat + 2 else 0
  let (trailing, indent) ← emptyLines (max (outer + 1).toNat 1) start fuel given 0 []
  let s ← blockLines true indent start (← Lexer.rest) { trailing }
  return s.parts.reverse.flatten ++ (if chompingOf cs = .strip then [] else s.lead) ++
    (if chompingOf cs = .keep then s.trailing else [])

/-- The indicators of a literal block and the end of their line. -/
theorem blockScalar_header (outer : Int) (cs rest : List Char) (m : Mark) :
    blockScalar true outer ⟨'|' :: (literalIndicators cs ++ '\n' :: rest), m⟩ =
      blockBody outer cs m rest ⟨rest, m.through ('|' :: (literalIndicators cs ++ ['\n']))⟩ := by
  have hind := blockIndicators_eq m (hidesIndent cs) (chompingOf cs) rest (m.past '|')
  have hstop : Text.Stops isBlank ('\n' :: rest) := by
    rintro _ ⟨⟩
    rfl
  have hcomment : ('\n' :: rest).head? ≠ some '#' := by simp
  rw [← List.append_assoc, ← literalIndicators_eq] at hind
  rw [blockScalar, bind_mark, bind_skip, bind_ok hind]
  refine (bind_ok (takeWhile_nil hstop _) _).trans ?_
  rw [bind_ok (skipComment_eq hcomment), bind_peek?]
  simp only [List.head?_cons, Option.all_some, show isBreak '\n' = true from rfl, Bool.not_true,
    Bool.false_eq_true, if_false]
  refine (bind_ok (lineBreak_cons (.inl rfl) _ _) _).trans ?_
  rw [bind_rest, Mark.through_cons, Mark.through_append, blockBody]
  cases hidesIndent cs <;> rfl

section Body

variable {outer : Int} {j k : Nat} (hk : k < outer.toNat + 2) {tail : List Char}
  (ht : Text.Stops isGap tail) (start : Mark) {m : Mark} (hm : m.column = 0)

include hk ht hm

/-- A text of nothing but line ends: they are all kept, and the indentation is written out. -/
theorem blockBody_breaks {bs : List Char} (nonempty : bs ≠ []) (hb : ∀ b ∈ bs, IsLineEnd b) :
    blockBody outer bs start (bs ++ (spaces k ++ tail)) ⟨bs ++ (spaces k ++ tail), m⟩ =
      .ok (bs, ⟨tail, m.through (bs ++ spaces k)⟩) := by
  have hbreaks : ∀ b ∈ bs, isBreak b = true := fun b h => (hb b h).isBreak
  have hhides : hidesIndent bs = true := by
    obtain ⟨b, bs, rfl⟩ := List.exists_cons_of_ne_nil nonempty
    simp [hidesIndent, hbreaks b List.mem_cons_self]
  have hspace : tail.head? ≠ some ' ' := fun h => absurd (ht _ h) (by decide)
  have htab : tail.head? ≠ some '\t' := fun h => absurd (ht _ h) (by decide)
  have hempty := emptyLines_eq hb (by omega) (.inr ⟨hk, hspace⟩) htab
    (fun c hc => isBreak_of_not_isGap (ht c hc)) (max (outer + 1).toNat 1) start (Nat.le_refl _) 0
    [] hm
  have hcol : (m.through (bs ++ spaces k)).column ≠ outer.toNat + 2 := by
    rw [Mark.column_through_breaks hbreaks nonempty]
    omega
  rw [blockBody, hhides, if_pos rfl, bind_ok hempty, List.nil_append]
  simp only [bind_rest]
  rw [bind_ok (blockLines_stop hcol start tail { trailing := bs } tail), pure_eq,
    chompingOf_only_breaks hbreaks nonempty]
  simp

/-- The empty lines of a text, and the others. -/
theorem blockBody_lines {cs : List Char} (nonempty : cs ≠ [])
    (printable : ∀ c ∈ cs, Style.isPrintable c = true) (hj : chompingOf cs = .keep → j = 0) :
    blockBody outer cs start
        (literalLines (outer.toNat + 2) true cs ++ (closingBreak cs ++ (margin j k ++ tail)))
        ⟨literalLines (outer.toNat + 2) true cs ++ (closingBreak cs ++ (margin j k ++ tail)), m⟩ =
      .ok (cs, ⟨tail, m.through
        (literalLines (outer.toNat + 2) true cs ++ (closingBreak cs ++ margin j k))⟩) := by
  generalize hi : outer.toNat + 2 = indent at hk
  have noTab : '\t' ∉ cs := fun h => absurd (printable _ h) (by decide)
  have lineEnds : ∀ c ∈ cs, isBreak c = true → IsLineEnd c :=
    fun c hc => isLineEnd_of_isPrintable (printable c hc)
  obtain ⟨bs, ds, rfl, hb, hds⟩ := Text.exists_run isBreak cs
  have hends : ∀ b ∈ bs, IsLineEnd b := fun b h => lineEnds b (List.mem_append_left _ h) (hb b h)
  cases ds with
  | nil =>
    -- There are no other lines.
    rw [List.append_nil] at nonempty hj ⊢
    obtain rfl := hj (chompingOf_only_breaks hb nonempty)
    have hlines : literalLines indent true (bs ++ []) = bs ++ literalLines indent true [] :=
      literalLines_breaks hb nonempty []
    rw [List.append_nil, literalLines, List.append_nil] at hlines
    rw [hlines, closingBreak_of_breaks nonempty hb, List.nil_append, List.nil_append]
    exact blockBody_breaks (by omega) ht start hm nonempty hends
  | cons d ds =>
    have hne : d :: ds ≠ [] := by simp
    have hd : d ≠ '\t' := fun h => noTab (h ▸ List.mem_append_right _ List.mem_cons_self)
    -- The first line that is not empty is the first to be indented.
    have hlines : literalLines indent true (bs ++ d :: ds) =
        bs ++ (spaces indent ++ literalLines indent false (d :: ds)) := by
      cases bs with
      | nil => exact literalLines_fresh hne hds
      | cons b bs => rw [literalLines_breaks hb (by simp), literalLines_fresh hne hds]
    have hcol : (m.through (bs ++ spaces indent)).column = indent := by
      cases bs with
      | nil =>
        rw [List.nil_append, Mark.column_through not_isBreak_of_mem_spaces, hm, length_spaces,
          Nat.zero_add]
      | cons b bs => exact Mark.column_through_breaks hb (by simp) m indent
    rw [hlines, closingBreak_append bs hne]
    generalize hrest : literalLines indent false (d :: ds) ++
      (closingBreak (d :: ds) ++ (margin j k ++ tail)) = rest
    have hhead : rest.head? = some d := by
      rw [← hrest, List.head?_append, head?_literalLines (hds d rfl), Option.some_or]
    have hfuel : (d :: ds).length ≤ rest.length := by
      have := length_le_literalLines indent false (d :: ds)
      rw [← hrest, List.length_append]
      omega
    have hempty := @emptyLines_first bs ds rest d indent (max (outer + 1).toNat 1) (by omega)
      (by omega) hends (hds d rfl) hd hhead start m hm
    obtain ⟨s, hread, hholds⟩ := blockLines_lines hne hds
      (fun c hc => lineEnds c (List.mem_append_right _ hc))
      (fun h => noTab (List.mem_append_right _ h)) hk ht start hfuel { trailing := bs } hcol
    have hassoc : bs ++ (spaces indent ++ literalLines indent false (d :: ds)) ++
        (closingBreak (d :: ds) ++ (margin j k ++ tail)) = bs ++ (spaces indent ++ rest) := by
      simp [← hrest]
    rw [hrest] at hread
    rw [hassoc, blockBody, hi, bind_ok hempty]
    simp only [bind_rest]
    rw [bind_ok hread, pure_eq,
      chomped_eq (BlockState.Holds.of_append (by simpa using hholds)) hj]
    simp

end Body

/-- A literal block is read up to the first token after it. If it keeps the line ends after it, no
empty line may follow. -/
theorem blockScalar_literal {cs : List Char} (nonempty : cs ≠ [])
    (printable : ∀ c ∈ cs, Style.isPrintable c = true) {outer : Int} {j k : Nat}
    (hj : chompingOf cs = .keep → j = 0) (hk : k < outer.toNat + 2) {tail : List Char}
    (ht : Text.Stops isGap tail) (m : Mark) :
    blockScalar true outer ⟨literal (outer.toNat + 2) cs ++ (margin j k ++ tail), m⟩ =
      .ok (cs, ⟨tail, m.through (literal (outer.toNat + 2) cs ++ margin j k)⟩) := by
  have hcol : (m.through ('|' :: (literalIndicators cs ++ ['\n']))).column = 0 := by
    rw [Mark.through_cons, Mark.through_append, Mark.through_cons, Mark.through_nil]
    exact Mark.column_across_of_isBreak rfl _
  have hlines := blockBody_lines hk ht m hcol nonempty printable hj
  have hheader := blockScalar_header outer cs
    (literalLines (outer.toNat + 2) true cs ++ (closingBreak cs ++ (margin j k ++ tail))) m
  rw [hlines] at hheader
  rw [literal, ← closingBreak]
  simpa using hheader

end Lexer

end ApiSurface.Yaml
