/-
A quoted scalar is read as its text.

`QuotedBody written body cs` says that `body` may stand between quotes for the text `cs`: words,
whose characters are written by `written`, with spaces or line ends between them, and indentation
after the line ends. Both kinds of quotes write such a body, and any such body is read back.

* `quotedWords_body` — a body is read up to its closing quote;
* `quotedBody_single`, `quotedBody_double` — what is written in either kind of quotes is a body;
* `quotedScalar_body` — a scalar in quotes is read up to the end of its line.
-/
import ApiSurface.Proofs.Text.Digits
import ApiSurface.Proofs.Yaml.Gap
import ApiSurface.Proofs.Yaml.Style

namespace ApiSurface.Yaml

/-! ### Characters -/

/-- A character as it is written in single quotes. -/
def singleQuotedChar (c : Char) : List Char := if c = '\'' then ['\'', '\''] else [c]

namespace Lexer

/-- Whether one round reads what is written for a character. -/
def Written (single : Bool) (written : List Char) (c : Char) : Prop :=
  written ≠ [] ∧ ∀ start f fuel read rest m,
    quotedWord single start (f :: fuel) read ⟨written ++ rest, m⟩ =
      quotedWord single start fuel (c :: read) ⟨rest, m.through written⟩

theorem written_single {c : Char} (h : isGap c = false) :
    Written true (singleQuotedChar c) c := by
  refine ⟨by rw [singleQuotedChar]; split <;> simp, fun start f fuel read rest m => ?_⟩
  have hb := isBreak_of_not_isGap h
  rw [singleQuotedChar]
  split
  · subst_vars
    rw [quotedWord, bind_rest]
    rfl
  · rename_i hc
    rw [List.singleton_append, quotedWord, bind_rest, Mark.through_cons,
      Mark.across_of_not_isBreak hb]
    simp only [h, Bool.false_eq_true, if_false, if_true, if_neg hc]
    rfl

/-- An escape of one letter is read as the character that it stands for. -/
theorem shortEscape?_of_shortEscape? {c d : Char} (h : Yaml.shortEscape? c = some d) :
    isBreak d = false ∧ shortEscape? d = some c := by
  obtain ⟨l, r, hl, -⟩ := List.lookup_eq_some_iff.mp h
  have hmem : (c, d) ∈ l ++ (c, d) :: r := by simp
  rw [← hl] at hmem
  simp only [List.mem_cons, Prod.mk.injEq, List.not_mem_nil, or_false] at hmem
  obtain ⟨rfl, rfl⟩ | ⟨rfl, rfl⟩ | ⟨rfl, rfl⟩ | ⟨rfl, rfl⟩ | ⟨rfl, rfl⟩ | ⟨rfl, rfl⟩ | ⟨rfl, rfl⟩ |
    ⟨rfl, rfl⟩ | ⟨rfl, rfl⟩ | ⟨rfl, rfl⟩ | ⟨rfl, rfl⟩ | ⟨rfl, rfl⟩ | ⟨rfl, rfl⟩ |
    ⟨rfl, rfl⟩ := hmem <;>
  exact ⟨by decide, by decide⟩

theorem not_isBreak_of_mem_codePoint (count : Nat) (c : Char) :
    ∀ d ∈ codePoint count c, isBreak d = false := by
  intro d hd
  obtain ⟨e, he, rfl⟩ := List.mem_map.mp hd
  obtain ⟨n, hn, rfl⟩ := Text.exists_digitChar_of_mem_hexDigits he
  have : ∀ n < 16, isBreak n.digitChar.toUpper = false := by decide
  exact this n hn

theorem length_codePoint {count : Nat} {c : Char} (h : (Nat.toDigits 16 c.toNat).length ≤ count) :
    (codePoint count c).length = count := by
  rw [codePoint, List.length_map, Text.length_hexDigits h]

/-- The number of a character is no surrogate. -/
theorem toNat_valid (c : Char) : ¬ (0xd800 ≤ c.toNat ∧ c.toNat ≤ 0xdfff ∨ 0x10ffff < c.toNat) := by
  have h : c.toNat < 0xd800 ∨ 0xdfff < c.toNat ∧ c.toNat < 0x110000 := c.valid
  omega

theorem not_isBreak_of_mem_escape {x : Char} (hb : isBreak x = false) :
    ∀ d ∈ ['\\', x], isBreak d = false := by
  intro d hd
  simp only [List.mem_cons, List.not_mem_nil, or_false] at hd
  obtain rfl | rfl := hd
  · rfl
  · exact hb

/-- An escape by code point is read as its character. -/
theorem escape_codePoint {x : Char} {count : Nat} (hb : isBreak x = false)
    (hx : shortEscape? x = none) (hn : escapeDigits? x = some count) {c : Char}
    (h : (Nat.toDigits 16 c.toNat).length ≤ count) (start : Mark) (rest : List Char) (m : Mark) :
    escape x start ⟨'\\' :: x :: (codePoint count c ++ rest), m⟩ =
      .ok (c, ⟨rest, m.through ('\\' :: x :: codePoint count c)⟩) := by
  have hlen := length_codePoint h
  have hnumber : Text.number? 16 (codePoint count c) = some c.toNat :=
    Text.number?_map_hexDigits (by decide) Text.hexValue?_toUpper_digitChar count c.toNat
  have htake := take_append (not_isBreak_of_mem_escape hb) (codePoint count c ++ rest) m
  have hdigits := take_append (not_isBreak_of_mem_codePoint count c) rest
    (m.through ['\\', x])
  rw [hlen] at hdigits
  have hrest : (codePoint count c ++ rest).take count = codePoint count c := by
    rw [List.take_append_of_le_length (by omega), List.take_of_length_le (by omega)]
  simp only [escape, hx, hn]
  refine (bind_ok htake _).trans ?_
  rw [bind_rest]
  simp only [hrest, hnumber]
  rw [if_neg (by omega), if_neg (toNat_valid c), bind_ok hdigits, Char.ofNat_toNat]
  rfl

/-- Gaps other than spaces have escapes of one letter. -/
theorem not_isGap_of_shortEscape? {c : Char} (h : Yaml.shortEscape? c = none) (hc : c ≠ ' ') :
    isGap c = false := by
  cases hg : isGap c with
  | false => rfl
  | true =>
    simp only [isGap, isBlank, isBreak, isSeparator, Bool.or_eq_true, beq_iff_eq] at hg
    obtain (rfl | rfl) | (((rfl | rfl) | rfl) | rfl | rfl) := hg
    · exact absurd rfl hc
    all_goals exact absurd h (by decide)

theorem doubleQuotedChar_ne_nil (c : Char) : doubleQuotedChar c ≠ [] := by
  rw [doubleQuotedChar]
  split
  · simp
  · repeat' split
    all_goals simp

/-- What is written for a character in double quotes is read as the character, except for spaces,
which stand between words. -/
theorem written_double {c : Char} (h : c ≠ ' ') : Written false (doubleQuotedChar c) c := by
  refine ⟨doubleQuotedChar_ne_nil c, fun start f fuel read rest m => ?_⟩
  -- An escape of either form is one character of the word.
  have escaped {x : Char} {digits : List Char} (hb : isBreak x = false)
      (he : escape x start ⟨'\\' :: x :: (digits ++ rest), m⟩ =
        .ok (c, ⟨rest, m.through ('\\' :: x :: digits)⟩)) :
      quotedWord false start (f :: fuel) read ⟨'\\' :: x :: (digits ++ rest), m⟩ =
        quotedWord false start fuel (c :: read) ⟨rest, m.through ('\\' :: x :: digits)⟩ := by
    rw [quotedWord, bind_rest]
    simp only [show isGap '\\' = false from rfl, show ('\\' = '"') = False by decide, hb,
      Bool.false_eq_true, if_false, if_true]
    rw [bind_ok he]
  rw [doubleQuotedChar]
  split
  · rename_i d hd
    obtain ⟨hb, hs⟩ := shortEscape?_of_shortEscape? hd
    refine @escaped d [] hb ?_
    rw [escape]
    simp only [hs]
    exact bind_ok (take_append (not_isBreak_of_mem_escape hb) rest m) _
  · rename_i hshort
    have hg := not_isGap_of_shortEscape? hshort h
    have hquote : c ≠ '"' := by
      rintro rfl
      exact absurd hshort (by decide)
    have hslash : c ≠ '\\' := by
      rintro rfl
      exact absurd hshort (by decide)
    split
    · rw [List.singleton_append, quotedWord, bind_rest, Mark.through_cons,
        Mark.across_of_not_isBreak (isBreak_of_not_isGap hg)]
      simp only [hg, Bool.false_eq_true, if_false, if_neg hquote, if_neg hslash]
      rfl
    -- By code point: two, four or eight digits, whichever is enough.
    have fits {count : Nat} (hc : 0 < count) : c.toNat < 16 ^ count →
        (Nat.toDigits 16 c.toNat).length ≤ count :=
      (Nat.length_toDigits_le_iff (by decide) hc).mpr
    have hv := toNat_valid c
    · split
      · exact escaped rfl (escape_codePoint rfl rfl rfl (fits (by decide) (by omega)) start rest m)
      · split
        · exact escaped rfl
            (escape_codePoint rfl rfl rfl (fits (by decide) (by omega)) start rest m)
        · exact escaped rfl
            (escape_codePoint rfl rfl rfl (fits (by decide) (by omega)) start rest m)

/-! ### Words -/

/-- The quotes of a scalar. -/
def quoteOf (single : Bool) : Char := if single then '\'' else '"'

theorem quotedWord_gap {single : Bool} {start : Mark} {c : Char} (h : isGap c = true)
    (fuel read cs : List Char) (m : Mark) :
    quotedWord single start fuel read ⟨c :: cs, m⟩ = .ok ((read.reverse, false), ⟨c :: cs, m⟩) := by
  cases fuel with
  | nil => rfl
  | cons f fuel =>
    rw [quotedWord, bind_rest]
    simp only [h, if_true]
    rfl

theorem quotedWord_quote {single : Bool} {start : Mark} {cs : List Char}
    (h : cs.head? ≠ some (quoteOf single)) (fuel read : List Char) (m : Mark) :
    quotedWord single start fuel read ⟨quoteOf single :: cs, m⟩ =
      .ok ((read.reverse, false), ⟨quoteOf single :: cs, m⟩) := by
  cases fuel with
  | nil => rfl
  | cons f fuel =>
    rw [quotedWord, bind_rest]
    cases single with
    | true =>
      have h : ¬ cs.head? = some '\'' := h
      simp only [quoteOf, if_true, if_neg h]
      rfl
    | false => rfl

/-- The characters of a word are read one by one. -/
theorem quotedWord_word {single : Bool} (start : Mark) {written : Char → List Char}
    {word : List Char} (hw : ∀ c ∈ word, Written single (written c) c) {rest : List Char}
    (hrest : ∀ fuel read m, quotedWord single start fuel read ⟨rest, m⟩ =
      .ok ((read.reverse, false), ⟨rest, m⟩))
    {fuel : List Char} (hf : word.length ≤ fuel.length) (read : List Char) (m : Mark) :
    quotedWord single start fuel read ⟨word.flatMap written ++ rest, m⟩ =
      .ok ((read.reverse ++ word, false), ⟨rest, m.through (word.flatMap written)⟩) := by
  induction word generalizing fuel read m with
  | nil => simpa using hrest fuel read m
  | cons c word ih =>
    match fuel, hf with
    | f :: fuel, hf =>
      have ih := ih (fun x hx => hw x (List.mem_cons_of_mem c hx)) (by simpa using hf)
        (c :: read) (m.through (written c))
      rw [List.flatMap_cons, List.append_assoc, (hw c List.mem_cons_self).2, ih]
      simp

theorem length_le_flatMap {single : Bool} {written : Char → List Char} {word : List Char}
    (hw : ∀ c ∈ word, Written single (written c) c) :
    word.length ≤ (word.flatMap written).length := by
  induction word with
  | nil => exact Nat.le_refl 0
  | cons c word ih =>
    have ih := ih fun x hx => hw x (List.mem_cons_of_mem c hx)
    have hc := List.length_pos_iff.mpr (hw c List.mem_cons_self).1
    rw [List.flatMap_cons, List.length_append, List.length_cons]
    omega

/-- Line ends after a line end, and the indentation of the line after them. -/
theorem gap_broken {bs : List Char} (hb : ∀ b ∈ bs, isSeparator b = true) (n : Nat)
    {cs : List Char} (h : Text.Stops isGap cs) {g : Gap} (hg : g.broken = true)
    {fuel : List Char} (hf : bs.length + n ≤ fuel.length) (m : Mark) :
    gap none fuel g ⟨bs ++ (spaces n ++ cs), m⟩ =
      .ok ({ g with others := g.others ++ bs }, ⟨cs, m.through (bs ++ spaces n)⟩) := by
  induction bs generalizing g fuel m with
  | nil =>
    rw [List.nil_append, gap_indent_stop (by simpa using hf) hg h]
    simp
  | cons b bs ih =>
    cases fuel with
    | nil => simp at hf
    | cons f fuel =>
      simp only [List.length_cons] at hf
      have hgb : (g.addBreak [b]).broken = true := by
        rw [Gap.addBreak, if_pos hg]
        exact hg
      rw [List.cons_append, gap_break (.inr (hb b List.mem_cons_self)),
        ih (fun x hx => hb x (List.mem_cons_of_mem b hx)) hgb (by omega)]
      simp [Gap.addBreak, hg]

/-- Separators between words are kept, and the indentation after them is not. -/
theorem gap_separators {bs : List Char} (hb : ∀ b ∈ bs, isSeparator b = true) (nonempty : bs ≠ [])
    (n : Nat) {cs : List Char} (h : Text.Stops isGap cs) (m : Mark) :
    ∃ g, gap none (bs ++ (spaces n ++ cs)) {} ⟨bs ++ (spaces n ++ cs), m⟩ =
      .ok (g, ⟨cs, m.through (bs ++ spaces n)⟩) ∧ g.text = bs := by
  obtain ⟨b, bs, rfl⟩ := List.exists_cons_of_ne_nil nonempty
  have hsep := hb b List.mem_cons_self
  have hline : ¬ [b] = ['\n'] := by
    intro hbn
    obtain rfl := List.singleton_inj.mp hbn
    exact absurd hsep (by decide)
  refine ⟨{ broken := true, first := [b], others := bs }, ?_, ?_⟩
  · rw [List.cons_append, gap_break (.inr hsep),
      gap_broken (fun x hx => hb x (List.mem_cons_of_mem b hx)) n h rfl (by simp)]
    rfl
  · rw [Gap.text, if_pos rfl, Gap.folded, if_neg hline]
    rfl

end Lexer

/-! ### Bodies -/

/-- What may stand between quotes for a text. -/
inductive QuotedBody (single : Bool) (written : Char → List Char) : List Char → List Char → Prop
  | word {word : List Char} (hw : ∀ c ∈ word, Lexer.Written single (written c) c) :
      QuotedBody single written (word.flatMap written) word
  | spaces {word body cs : List Char} (n : Nat)
      (hw : ∀ c ∈ word, Lexer.Written single (written c) c) (stop : Text.Stops isGap body)
      (h : QuotedBody single written body cs) :
      QuotedBody single written (word.flatMap written ++ (spaces (n + 1) ++ body))
        (word ++ (spaces (n + 1) ++ cs))
  /-- Further lines are indented, so that none looks like the end of the document. -/
  | breaks {word bs body cs : List Char} (n : Nat)
      (hw : ∀ c ∈ word, Lexer.Written single (written c) c)
      (hb : ∀ b ∈ bs, isSeparator b = true) (nonempty : bs ≠ []) (stop : Text.Stops isGap body)
      (h : QuotedBody single written body cs) :
      QuotedBody single written (word.flatMap written ++ (bs ++ (spaces (n + 1) ++ body)))
        (word ++ (bs ++ cs))

namespace Lexer

theorem isGap_quoteOf (single : Bool) : isGap (quoteOf single) = false := by
  cases single <;> rfl

theorem isBreak_quoteOf (single : Bool) : isBreak (quoteOf single) = false :=
  isBreak_of_not_isGap (isGap_quoteOf single)

theorem stops_append_quote {body : List Char} (h : Text.Stops isGap body) (single : Bool)
    (rest : List Char) : Text.Stops isGap (body ++ quoteOf single :: rest) := by
  cases body with
  | nil =>
    rintro _ ⟨⟩
    exact isGap_quoteOf single
  | cons c cs =>
    rintro _ ⟨⟩
    exact h c rfl

/-- A word before the closing quote is the last one. -/
theorem quotedWords_quote {single : Bool} {start : Mark} {written : Char → List Char}
    {word : List Char} (hw : ∀ c ∈ word, Written single (written c) c) {rest : List Char}
    (hrest : rest.head? ≠ some (quoteOf single)) {m : Mark} (hm : 0 < m.column) (f : Char)
    (fuel : List Char) (parts : List (List Char)) :
    quotedWords single start (f :: fuel) parts
        ⟨word.flatMap written ++ quoteOf single :: rest, m⟩ =
      .ok (parts.reverse.flatten ++ word,
        ⟨rest, m.through (word.flatMap written ++ [quoteOf single])⟩) := by
  have hlen : word.length ≤ (word.flatMap written ++ quoteOf single :: rest).length := by
    rw [List.length_append]
    exact Nat.le_trans (length_le_flatMap hw) (Nat.le_add_right ..)
  have hread := quotedWord_word start hw (quotedWord_quote hrest) hlen [] m
  rw [quotedWords, bind_get]
  simp only [Cursor.atDocumentMarker_of_column hm, Bool.false_eq_true, if_false]
  rw [if_neg (by simp)]
  refine (bind_rest _ _).trans ((bind_ok hread _).trans ((bind_peek? _ _).trans ?_))
  refine (congrFun (if_pos rfl) _).trans ((bind_skip _ _ _ _).trans ?_)
  rw [Mark.through_append, Mark.through_cons, Mark.across_of_not_isBreak (isBreak_quoteOf single)]
  simp [pure_eq]

/-- A word before a gap is not the last one. -/
theorem quotedWords_gap {single : Bool} {start : Mark} {written : Char → List Char}
    {word : List Char} (hw : ∀ c ∈ word, Written single (written c) c) {c : Char}
    {rest : List Char} (hc : isGap c = true) {m : Mark} (hm : 0 < m.column) {g : Gap} {d : Cursor}
    (hg : gap none (c :: rest) {} ⟨c :: rest, m.through (word.flatMap written)⟩ = .ok (g, d))
    (f : Char) (fuel : List Char) (parts : List (List Char)) :
    quotedWords single start (f :: fuel) parts ⟨word.flatMap written ++ c :: rest, m⟩ =
      quotedWords single start fuel (g.text :: word :: parts) d := by
  have hlen : word.length ≤ (word.flatMap written ++ c :: rest).length := by
    rw [List.length_append]
    exact Nat.le_trans (length_le_flatMap hw) (Nat.le_add_right ..)
  have hread := quotedWord_word start hw
    (fun fuel read m => quotedWord_gap hc fuel read rest m) hlen [] m
  have hne : ¬ (c :: rest).head? = some (quoteOf single) := by
    intro h
    rw [Option.some.inj h, isGap_quoteOf] at hc
    exact nomatch hc
  rw [quotedWords, bind_get]
  simp only [Cursor.atDocumentMarker_of_column hm, Bool.false_eq_true, if_false]
  rw [if_neg (by simp)]
  refine (bind_rest _ _).trans ((bind_ok hread _).trans ((bind_peek? _ _).trans ?_))
  refine (congrFun (if_neg hne) _).trans ((bind_rest _ _).trans (bind_ok hg _))

/-- A body is read as its text up to its closing quote. -/
theorem quotedWords_body {single : Bool} (start : Mark) {written : Char → List Char}
    {body cs : List Char} (h : QuotedBody single written body cs) {rest : List Char}
    (hrest : rest.head? ≠ some (quoteOf single)) {m : Mark} (hm : 0 < m.column)
    {fuel : List Char} (hf : body.length < fuel.length) (parts : List (List Char)) :
    quotedWords single start fuel parts ⟨body ++ quoteOf single :: rest, m⟩ =
      .ok (parts.reverse.flatten ++ cs, ⟨rest, m.through (body ++ [quoteOf single])⟩) := by
  induction h generalizing m fuel parts with
  | word hw =>
    match fuel, hf with
    | f :: fuel, _ => exact quotedWords_quote hw hrest hm f fuel parts
  | @spaces word body cs n hw stop h ih =>
    match fuel, hf with
    | f :: fuel, hf =>
      simp only [List.length_append, List.length_cons, length_spaces] at hf
      have hgap := @gap_spaces_stop none (n + 1) _ (stops_append_quote stop single rest)
        (m.through (word.flatMap written))
      have hcol : 0 < ((m.through (word.flatMap written)).through (spaces (n + 1))).column := by
        rw [Mark.column_through not_isBreak_of_mem_spaces, length_spaces]
        omega
      rw [List.append_assoc, List.append_assoc]
      rw [spaces_succ, List.cons_append] at hgap ⊢
      rw [quotedWords_gap hw rfl hm hgap, ← spaces_succ, ih hcol (by omega)]
      simp [Gap.text]
  | @breaks word bs body cs n hw hb nonempty stop h ih =>
    -- A further line is indented, so the body cannot look like the end of the document there.
    match fuel, hf with
    | f :: fuel, hf =>
      obtain ⟨b, bs, rfl⟩ := List.exists_cons_of_ne_nil nonempty
      simp only [List.length_append, List.length_cons, length_spaces] at hf
      obtain ⟨g, hgap, htext⟩ := gap_separators hb nonempty (n + 1)
        (stops_append_quote stop single rest) (m.through (word.flatMap written))
      have hgapb := isGap_of_isBreak (isBreak_of_isSeparator (hb b List.mem_cons_self))
      have hcol : 0 < ((m.through (word.flatMap written)).through
          ((b :: bs) ++ spaces (n + 1))).column := by
        rw [Mark.through_append, Mark.column_through not_isBreak_of_mem_spaces, length_spaces]
        omega
      rw [List.append_assoc, List.append_assoc, List.append_assoc]
      rw [List.cons_append] at hgap ⊢
      rw [quotedWords_gap hw hgapb hm hgap, ih hcol (by omega)]
      simp [htext]

end Lexer

/-! ### Single quotes -/

theorem singleQuotedBody_word {indent : Nat} {word : List Char}
    (h : ∀ c ∈ word, isBreak c = false) (cs : List Char) :
    singleQuotedBody indent false (word ++ cs) =
      word.flatMap singleQuotedChar ++ singleQuotedBody indent false cs := by
  induction word with
  | nil => rfl
  | cons c word ih =>
    have hc := h c List.mem_cons_self
    rw [List.cons_append, singleQuotedBody, ih fun x hx => h x (List.mem_cons_of_mem c hx)]
    simp [hc, singleQuotedChar]

theorem singleQuotedBody_breaks {indent : Nat} {fresh : Bool} {bs : List Char}
    (h : ∀ b ∈ bs, isBreak b = true) (nonempty : bs ≠ []) (cs : List Char) :
    singleQuotedBody indent fresh (bs ++ cs) = bs ++ singleQuotedBody indent true cs := by
  induction bs generalizing fresh with
  | nil => exact absurd rfl nonempty
  | cons b bs ih =>
    have hb := h b List.mem_cons_self
    rw [List.cons_append, singleQuotedBody, if_pos hb]
    cases bs with
    | nil => rfl
    | cons d bs => rw [ih (fun x hx => h x (List.mem_cons_of_mem b hx)) (by simp)]; rfl

/-- A line that was begun is indented. -/
theorem singleQuotedBody_fresh (indent : Nat) {cs : List Char} (h : Text.Stops isBreak cs) :
    singleQuotedBody indent true cs = spaces indent ++ singleQuotedBody indent false cs := by
  cases cs with
  | nil => simp [singleQuotedBody]
  | cons c cs => simp [singleQuotedBody, h c rfl]

theorem flatMap_singleQuotedChar_spaces (n : Nat) :
    (spaces n).flatMap singleQuotedChar = spaces n := by
  induction n with
  | zero => rfl
  | succ n ih =>
    rw [spaces_succ, List.flatMap_cons, ih]
    rfl

theorem stops_singleQuotedBody (indent : Nat) {cs : List Char} (h : Text.Stops isGap cs) :
    Text.Stops isGap (singleQuotedBody indent false cs) := by
  cases cs with
  | nil => exact nofun
  | cons c cs =>
    have hc := h c rfl
    intro d hd
    rw [singleQuotedBody, if_neg (by simp [isBreak_of_not_isGap hc])] at hd
    obtain rfl : c = d := by
      by_cases hq : c = '\'' <;> simpa [hq] using hd
    exact hc

/-- After spaces a word stands, or nothing. -/
theorem stops_of_spaces {pre ds : List Char} {k : Nat}
    (hgap : ∀ c ∈ ds, isGap c = true → c = ' ' ∨ isSeparator c = true)
    (h : Style.hasSpaceBreak (pre ++ (spaces (k + 1) ++ ds)) = false) (hd : ds.head? ≠ some ' ') :
    Text.Stops isGap ds := by
  intro d hhead
  obtain ⟨es, rfl⟩ := List.head?_eq_some_iff.mp hhead
  cases hg : isGap d with
  | false => rfl
  | true =>
    obtain rfl | hsep := hgap d List.mem_cons_self hg
    · exact absurd hhead hd
    · have split : pre ++ (spaces (k + 1) ++ d :: es) = (pre ++ spaces k) ++ ' ' :: d :: es := by
        rw [spaces_add]
        simp [spaces_succ]
      rw [split] at h
      have := Style.not_of_anyPair h
      simp [isBreak_of_isSeparator hsep] at this

/-- After line ends a word stands, or nothing. -/
theorem stops_of_breaks {pre bs ds : List Char}
    (hgap : ∀ c ∈ ds, isGap c = true → c = ' ' ∨ isSeparator c = true)
    (h : Style.hasBreakSpace (pre ++ (bs ++ ds)) = false) (hb : ∀ b ∈ bs, isBreak b = true)
    (nonempty : bs ≠ []) (hd : Text.Stops isBreak ds) : Text.Stops isGap ds := by
  intro d hhead
  obtain ⟨es, rfl⟩ := List.head?_eq_some_iff.mp hhead
  cases hg : isGap d with
  | false => rfl
  | true =>
    obtain rfl | hsep := hgap d List.mem_cons_self hg
    · have split : pre ++ (bs ++ ' ' :: es) =
          (pre ++ bs.dropLast) ++ bs.getLast nonempty :: ' ' :: es := by
        have hlast := List.dropLast_concat_getLast nonempty
        rw [List.append_cons (pre ++ bs.dropLast), List.append_assoc pre, hlast, List.append_assoc]
      rw [split] at h
      have := Style.not_of_anyPair h
      simp [hb _ (List.getLast_mem nonempty)] at this
    · have := hd d rfl
      rw [isBreak_of_isSeparator hsep] at this
      exact nomatch this

/-- What stands in single quotes is a body for the text. -/
theorem quotedBody_single {cs : List Char}
    (hgap : ∀ c ∈ cs, isGap c = true → c = ' ' ∨ isSeparator c = true)
    (hsb : Style.hasSpaceBreak cs = false) (hbs : Style.hasBreakSpace cs = false) (indent : Nat) :
    QuotedBody true singleQuotedChar (singleQuotedBody (indent + 1) false cs) cs := by
  -- By induction on the length: a word is taken away together with the gap after it.
  induction hn : cs.length using Nat.strongRecOn generalizing cs with
  | ind n ih =>
    obtain ⟨word, rest, rfl, hword, hrest⟩ := Text.exists_run (!isGap ·) cs
    replace hword : ∀ c ∈ word, isGap c = false := fun c hc => by simpa using hword c hc
    have hwritten : ∀ c ∈ word, Lexer.Written true (singleQuotedChar c) c :=
      fun c hc => Lexer.written_single (hword c hc)
    have hline : ∀ c ∈ word, isBreak c = false := fun c hc => isBreak_of_not_isGap (hword c hc)
    replace hgap : ∀ c ∈ rest, isGap c = true → c = ' ' ∨ isSeparator c = true :=
      fun c hc => hgap c (List.mem_append_right _ hc)
    rw [List.length_append] at hn
    rw [singleQuotedBody_word hline]
    cases rest with
    | nil =>
      rw [singleQuotedBody, if_neg nofun, List.append_nil, List.append_nil]
      exact .word hwritten
    | cons c r =>
      obtain rfl | hsep := hgap c List.mem_cons_self (by simpa using hrest c rfl)
      · -- Spaces, which no line end follows.
        obtain ⟨k, ds, hds, hhead⟩ := exists_spaces (' ' :: r)
        cases k with
        | zero => exact absurd (congrArg List.head? hds).symm hhead
        | succ k =>
          rw [hds] at hgap hsb hbs hn ⊢
          replace hgap : ∀ c ∈ ds, isGap c = true → c = ' ' ∨ isSeparator c = true :=
            fun c hc => hgap c (List.mem_append_right _ hc)
          have stop := stops_of_spaces hgap hsb hhead
          rw [← List.append_assoc] at hsb hbs
          rw [List.length_append, length_spaces] at hn
          have tail := ih ds.length (by omega) hgap (Style.anyPair_of_append_right _ hsb)
            (Style.anyPair_of_append_right _ hbs) rfl
          rw [singleQuotedBody_word not_isBreak_of_mem_spaces, flatMap_singleQuotedChar_spaces]
          exact .spaces k hwritten (stops_singleQuotedBody _ stop) tail
      · -- Line ends, which no space follows.
        obtain ⟨bs, ds, hds, hb, hstop⟩ := Text.exists_run isBreak (c :: r)
        have nonempty : bs ≠ [] := by
          rintro rfl
          rw [List.nil_append] at hds
          exact absurd (hstop c (by rw [← hds]; rfl)) (by simp [isBreak_of_isSeparator hsep])
        rw [hds] at hgap hsb hbs hn ⊢
        have hbsep : ∀ b ∈ bs, isSeparator b = true := by
          intro b hbmem
          have hbgap := isGap_of_isBreak (hb b hbmem)
          refine (hgap b (List.mem_append_left _ hbmem) hbgap).resolve_left ?_
          rintro rfl
          exact absurd (hb _ hbmem) (by decide)
        replace hgap : ∀ c ∈ ds, isGap c = true → c = ' ' ∨ isSeparator c = true :=
          fun c hc => hgap c (List.mem_append_right _ hc)
        have stop := stops_of_breaks hgap hbs hb nonempty hstop
        rw [← List.append_assoc] at hsb hbs
        rw [List.length_append] at hn
        have := List.length_pos_iff.mpr nonempty
        have tail := ih ds.length (by omega) hgap (Style.anyPair_of_append_right _ hsb)
          (Style.anyPair_of_append_right _ hbs) rfl
        rw [singleQuotedBody_breaks hb nonempty, singleQuotedBody_fresh _ hstop]
        exact .breaks indent hwritten hbsep nonempty (stops_singleQuotedBody _ stop) tail

/-! ### Double quotes -/

theorem flatMap_doubleQuotedChar_spaces (n : Nat) :
    (spaces n).flatMap doubleQuotedChar = spaces n := by
  induction n with
  | zero => rfl
  | succ n ih =>
    rw [spaces_succ, List.flatMap_cons, ih]
    rfl

/-- A character other than a space does not start like a gap. -/
theorem head?_doubleQuotedChar {c d : Char} (h : c ≠ ' ')
    (hd : (doubleQuotedChar c).head? = some d) : isGap d = false := by
  rw [doubleQuotedChar] at hd
  split at hd
  · obtain rfl : '\\' = d := by simpa using hd
    rfl
  · rename_i hshort
    repeat' split at hd
    · obtain rfl : c = d := by simpa using hd
      exact Lexer.not_isGap_of_shortEscape? hshort h
    all_goals
      obtain rfl : '\\' = d := by simpa using hd
      rfl

theorem stops_flatMap_doubleQuotedChar {cs : List Char} (h : cs.head? ≠ some ' ') :
    Text.Stops isGap (cs.flatMap doubleQuotedChar) := by
  cases cs with
  | nil => exact nofun
  | cons c cs =>
    intro d hd
    obtain ⟨e, es, he⟩ := List.exists_cons_of_ne_nil (Lexer.doubleQuotedChar_ne_nil c)
    rw [List.flatMap_cons, he] at hd
    exact head?_doubleQuotedChar (by simpa using h) (by rw [he]; exact hd)

/-- What stands in double quotes is a body for the text. -/
theorem quotedBody_double (cs : List Char) :
    QuotedBody false doubleQuotedChar (cs.flatMap doubleQuotedChar) cs := by
  -- Line ends are escaped, so that only spaces stand between words.
  induction hn : cs.length using Nat.strongRecOn generalizing cs with
  | ind n ih =>
    obtain ⟨word, rest, rfl, hword, hrest⟩ := Text.exists_run (· != ' ') cs
    have hwritten : ∀ c ∈ word, Lexer.Written false (doubleQuotedChar c) c :=
      fun c hc => Lexer.written_double (by simpa using hword c hc)
    obtain ⟨k, ds, rfl, hhead⟩ := exists_spaces rest
    cases k with
    | zero =>
      obtain rfl : ds = [] := by
        cases ds with
        | nil => rfl
        | cons d ds =>
          have hd := hrest d rfl
          exact absurd (congrArg some (by simpa using hd)) hhead
      simpa using QuotedBody.word hwritten
    | succ k =>
      rw [List.length_append, List.length_append, length_spaces] at hn
      have tail := ih ds.length (by omega) ds rfl
      rw [List.flatMap_append, List.flatMap_append, flatMap_doubleQuotedChar_spaces]
      exact .spaces k hwritten (stops_flatMap_doubleQuotedChar hhead) tail

/-! ### Scalars -/

namespace Lexer

/-- A quoted body is read up to the end of its line. -/
theorem quotedScalar_body {single : Bool} {written : Char → List Char} {body cs : List Char}
    (h : QuotedBody single written body cs) (rest : List Char) (m : Mark) :
    quotedScalar single ⟨quoteOf single :: (body ++ quoteOf single :: '\n' :: rest), m⟩ =
      .ok (cs, ⟨'\n' :: rest, m.through (quoteOf single :: (body ++ [quoteOf single]))⟩) := by
  have hacross := Mark.across_of_not_isBreak (isBreak_quoteOf single) m
  have hrest : ('\n' :: rest).head? ≠ some (quoteOf single) := by cases single <;> exact nofun
  have hlen : body.length < (body ++ quoteOf single :: '\n' :: rest).length := by simp
  have hbody := quotedWords_body m h hrest
    (show 0 < (m.past (quoteOf single)).column from Nat.succ_pos _) hlen []
  rw [quotedScalar, bind_mark, bind_skip, bind_rest, hbody, Mark.through_cons, hacross]
  rfl

end Lexer

end ApiSurface.Yaml
