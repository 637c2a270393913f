/-
One round of dividing a text after the other.

A round goes to the next token and reads it. What matters of the tokens so far is their `Progress`:
their kinds and the columns of the open blocks. `Ready` says that the next token is about to be
read, and `Reaches` that some rounds lead from one such state to another, each one reading a
character at least, so that the rounds never run out.

* `prepare_spaces`, `prepare_line` — going to the next token, on the same line or on a further one;
* `Reaches.trans`, `Reaches.of_token` — rounds one after the other, and a single one.
-/
import ApiSurface.Proofs.Yaml.Gap
import ApiSurface.Yaml.TokenStream

namespace ApiSurface.Yaml

/-- How far a text is divided: the kinds of its tokens so far and the columns of the open blocks,
innermost first. -/
structure Progress where
  kinds : List TokenKind
  indent : Int
  outer : List Int

namespace Progress

/-- More tokens in the same blocks. -/
def add (p : Progress) (kinds : List TokenKind) : Progress := { p with kinds := p.kinds ++ kinds }

/-- The block at a column is open. -/
def opened (p : Progress) (column : Nat) (kind : TokenKind) : Progress :=
  if Int.ofNat column ≤ p.indent then p else ⟨p.kinds ++ [kind], column, p.indent :: p.outer⟩

/-- The blocks inside the given ones are closed down to a column. -/
def closeFrom (column : Int) (kinds : List TokenKind) (indent : Int) : List Int → Progress
  | [] => ⟨kinds, indent, []⟩
  | i :: outer =>
    if indent ≤ column then ⟨kinds, indent, i :: outer⟩
    else closeFrom column (kinds ++ [.blockEnd]) i outer

/-- The blocks that are indented more than a column are closed. -/
def close (p : Progress) (column : Int) : Progress := closeFrom column p.kinds p.indent p.outer

@[simp] theorem add_add (p : Progress) (ks ls : List TokenKind) :
    (p.add ks).add ls = p.add (ks ++ ls) := by
  simp [add]

@[simp] theorem add_indent (p : Progress) (ks : List TokenKind) :
    (p.add ks).indent = p.indent := rfl

theorem opened_of_le {p : Progress} {column : Nat} (h : Int.ofNat column ≤ p.indent)
    (kind : TokenKind) : p.opened column kind = p := if_pos h

theorem opened_of_lt {p : Progress} {column : Nat} (h : p.indent < column) (kind : TokenKind) :
    p.opened column kind = ⟨p.kinds ++ [kind], column, p.indent :: p.outer⟩ :=
  if_neg (Int.not_le.mpr h)

theorem close_of_le {p : Progress} {column : Int} (h : p.indent ≤ column) : p.close column = p := by
  obtain ⟨kinds, indent, outer⟩ := p
  cases outer with
  | nil => rfl
  | cons i outer => exact if_pos h

/-- Closing a block that is indented more than a column. -/
theorem close_cons {indent column : Int} (h : column < indent) (kinds : List TokenKind)
    (i : Int) (outer : List Int) :
    (⟨kinds, indent, i :: outer⟩ : Progress).close column =
      (⟨kinds ++ [.blockEnd], i, outer⟩ : Progress).close column :=
  if_neg (Int.not_le.mpr h)

end Progress

namespace Tokenizer

/-- How far a text is divided. -/
def progress (s : Tokenizer) : Progress := ⟨s.tokens.reverse.map (·.kind), s.indent, s.outer⟩

@[simp] theorem progress_push (s : Tokenizer) (kind : TokenKind) (start stop : Mark) :
    (s.push kind start stop).progress = s.progress.add [kind] := by
  simp [progress, push, Progress.add]

/-! ### Blocks -/

section Blocks

theorem progress_closeBlocksFrom (column : Int) {outer : List Int} {s : Tokenizer}
    (h : s.outer = outer) :
    (closeBlocksFrom column outer s).progress =
      Progress.closeFrom column s.progress.kinds s.indent outer := by
  induction outer generalizing s with
  | nil => simp [closeBlocksFrom, Progress.closeFrom, progress, h]
  | cons i outer ih =>
    rw [closeBlocksFrom, Progress.closeFrom]
    split
    · simp [progress, h]
    · rw [ih rfl]
      simp [progress, push]

/-- Closing blocks changes only the tokens and the blocks. -/
theorem closeBlocksFrom_frame (column : Int) (outer : List Int) (s : Tokenizer) :
    (closeBlocksFrom column outer s).cursor = s.cursor ∧
      (closeBlocksFrom column outer s).candidates = s.candidates ∧
        (closeBlocksFrom column outer s).keyAllowed = s.keyAllowed := by
  induction outer generalizing s with
  | nil => exact ⟨rfl, rfl, rfl⟩
  | cons i outer ih =>
    rw [closeBlocksFrom]
    split
    · exact ⟨rfl, rfl, rfl⟩
    · exact ih _

variable {s : Tokenizer} (column : Int)

theorem progress_closeBlocks (h : s.inFlow = false) :
    (s.closeBlocks column).progress = s.progress.close column := by
  rw [closeBlocks, h, if_neg Bool.false_ne_true, progress_closeBlocksFrom column rfl]
  rfl

theorem closeBlocks_frame (s : Tokenizer) :
    (s.closeBlocks column).cursor = s.cursor ∧ (s.closeBlocks column).candidates = s.candidates ∧
      (s.closeBlocks column).keyAllowed = s.keyAllowed := by
  rw [closeBlocks]
  split
  · exact ⟨rfl, rfl, rfl⟩
  · exact closeBlocksFrom_frame column s.outer s

theorem closeBlocks_of_le {column : Int} (h : s.indent ≤ column) : s.closeBlocks column = s := by
  rw [closeBlocks]
  split
  · rfl
  · cases ho : s.outer with
    | nil => rfl
    | cons i outer => exact if_pos h

end Blocks

/-! ### Candidates -/

section Candidates

variable {s : Tokenizer}

/-- A candidate on the same line that is not too far away is kept. -/
theorem isStale_of_near {c : Candidate} (line : s.mark.line ≤ c.mark.line)
    (index : s.mark.index ≤ c.mark.index + longestKey) : s.isStale c = false := by
  simp [isStale, line, index]

theorem mapM_same {ε α : Type} {f : α → Except ε α} {l : List α} (h : ∀ a ∈ l, f a = .ok a) :
    l.mapM f = .ok l := by
  induction l with
  | nil => rfl
  | cons a l ih =>
    rw [List.mapM_cons, h a List.mem_cons_self, ih fun b hb => h b (List.mem_cons_of_mem a hb)]
    rfl

theorem dropStale_eq (h : ∀ c, some c ∈ s.candidates → s.isStale c = false) :
    s.dropStale = .ok s := by
  rw [dropStale, mapM_same]
  · simp [bind, Except.bind, pure, Except.pure]
  · intro o ho
    cases o with
    | none => rfl
    | some c => simp [h c (List.mem_reverse.mp ho)]

/-- Where a line has ended, a candidate that need not be a key is given up. -/
theorem dropStale_line {o : Option Candidate} (h : s.candidates = [o])
    (optional : ∀ c, o = some c → c.required = false)
    (line : ∀ c, o = some c → c.mark.line < s.mark.line) :
    s.dropStale = .ok { s with candidates := [none] } := by
  cases o with
  | none =>
    rw [dropStale_eq (by simp [h])]
    rw [← h]
  | some c =>
    have hc : s.isStale c = true := by simp [isStale, line c rfl]
    simp only [dropStale, h, List.reverse_singleton, List.mapM_cons, List.mapM_nil, hc, if_true,
      optional c rfl, Bool.false_eq_true, if_false]
    rfl

/-- A candidate that need not be a key is kept or given up. -/
theorem dropStale_optional {o : Option Candidate} (h : s.candidates = [o])
    (optional : ∀ c, o = some c → c.required = false) :
    ∃ o', (∀ c, o' = some c → o = some c) ∧ s.dropStale = .ok { s with candidates := [o'] } := by
  cases o with
  | none => exact ⟨none, nofun, by rw [dropStale_eq (by simp [h]), ← h]⟩
  | some c =>
    cases hc : s.isStale c with
    | false =>
      refine ⟨some c, fun _ h => h, ?_⟩
      rw [dropStale_eq (by simp [h, hc]), ← h]
    | true =>
      refine ⟨none, nofun, ?_⟩
      simp only [dropStale, h, List.reverse_singleton, List.mapM_cons, List.mapM_nil, hc, if_true,
        optional c rfl, Bool.false_eq_true, if_false]
      rfl

end Candidates

end Tokenizer

/-! ### Going to the next token -/

/-- Whether no part of a text before its first token is skipped. -/
def StartsToken (cs : List Char) : Prop :=
  ∀ c, cs.head? = some c → isGap c = false ∧ c ≠ '#' ∧ c ≠ '\ufeff'

theorem StartsToken.stops {cs : List Char} (h : StartsToken cs) : Text.Stops isGap cs :=
  fun c hc => (h c hc).1

namespace Tokenizer

variable {s : Tokenizer}

/-- One round of skipping: the spaces on a line, and the line end if one is next. -/
theorem skipToToken_round {j : Nat} {rest : List Char} {m : Mark}
    (hs : s.cursor = ⟨spaces j ++ rest, m⟩) (stop : Text.Stops isBlank rest)
    (comment : rest.head? ≠ some '#') (order : rest.head? ≠ some '\ufeff') (f : Char)
    (fuel : List Char) :
    skipToToken (f :: fuel) s =
      if rest.head?.any isBreak then
        skipToToken fuel
          { s with
            cursor := (⟨rest, m.through (spaces j)⟩ : Cursor).lineBreak.2
            keyAllowed := s.keyAllowed || !s.inFlow }
      else { s with cursor := ⟨rest, m.through (spaces j)⟩ } := by
  have hspaces : ∀ c ∈ spaces j, (c == ' ' || (s.inFlow || !s.keyAllowed) && c == '\t') = true :=
    fun c hc => by simp [List.eq_of_mem_replicate hc]
  have hstop : Text.Stops (fun c => c == ' ' || (s.inFlow || !s.keyAllowed) && c == '\t') rest := by
    intro c hc
    have hblank := stop c hc
    simp only [isBlank, Bool.or_eq_false_iff] at hblank
    simp [hblank]
  -- A byte order mark counts where the skipping starts, and not after the spaces.
  have hbom : (spaces j ++ rest).head? ≠ some '\ufeff' := by
    cases j with
    | zero => exact order
    | succ j => simp [spaces_succ]
  have hcomment := Lexer.skipComment_eq (c := ⟨rest, m.through (spaces j)⟩) comment
  rw [skipToToken]
  simp only [lex, hs]
  rw [Lexer.bind_peek?, Lexer.bind_mark, if_neg fun h => hbom h.1,
    Lexer.bind_ok (Lexer.takeWhile_append hspaces not_isBreak_of_mem_spaces hstop m),
    Lexer.bind_ok hcomment]
  -- The line end does not change whether the text is inside a flow collection.
  have hflow (c : Cursor) : ({ s with cursor := c } : Tokenizer).inFlow = s.inFlow := rfl
  simp only [Lexer.peek?, Except.map, hflow]
  cases s.inFlow <;> simp

/-- On the same line. -/
theorem skipToToken_spaces {j : Nat} {rest : List Char} {m : Mark}
    (hs : s.cursor = ⟨spaces j ++ rest, m⟩) (start : StartsToken rest) :
    s.skipToToken s.cursor.rest = { s with cursor := ⟨rest, m.through (spaces j)⟩ } := by
  have hany : ¬ rest.head?.any isBreak = true := by
    cases rest with
    | nil => simp
    | cons c cs => simp [isBreak_of_not_isGap (start c rfl).1]
  rw [hs]
  cases hrest : spaces j ++ rest with
  | nil =>
    -- At the end of the text no round is left, and none is needed.
    obtain ⟨hj, rfl⟩ := List.append_eq_nil_iff.mp hrest
    rw [hj] at hs ⊢
    obtain ⟨cursor, tokens, count, indent, outer, keyAllowed, candidates⟩ := s
    obtain rfl : cursor = ⟨[], m⟩ := hs
    rfl
  | cons f fuel =>
    rw [skipToToken_round hs (fun c hc => isBlank_of_not_isGap (start c hc).1)
      (fun hc => (start _ hc).2.1 rfl) (fun hc => (start _ hc).2.2 rfl), if_neg hany]

/-- Past a line end, where a key may start. -/
theorem skipToToken_break {rest : List Char} {m : Mark} (hs : s.cursor = ⟨'\n' :: rest, m⟩)
    (block : s.inFlow = false) :
    s.skipToToken s.cursor.rest =
      skipToToken rest { s with cursor := ⟨rest, m.across '\n'⟩, keyAllowed := true } := by
  have hround := skipToToken_round (j := 0) hs (by rintro _ ⟨⟩; rfl) (by simp) (by simp) '\n' rest
  rw [hs, hround, if_pos (by rfl), block, Bool.not_false, Bool.or_true]
  rfl

/-- On a further line. -/
theorem skipToToken_line {j k : Nat} {rest : List Char} {m : Mark}
    (hs : s.cursor = ⟨'\n' :: (margin j k ++ rest), m⟩) (start : StartsToken rest)
    (block : s.inFlow = false) :
    s.skipToToken s.cursor.rest =
      { s with cursor := ⟨rest, m.through ('\n' :: margin j k)⟩, keyAllowed := true } := by
  -- One round for each line end and one for the line of the token.
  rw [skipToToken_break hs block]
  induction j generalizing s m with
  | zero =>
    exact skipToToken_spaces (s := { s with
      cursor := ⟨spaces k ++ rest, m.across '\n'⟩, keyAllowed := true }) rfl start
  | succ j ih =>
    let t : Tokenizer := { s with
      cursor := ⟨'\n' :: (margin j k ++ rest), m.across '\n'⟩, keyAllowed := true }
    exact (skipToToken_break (s := t) rfl block).trans (ih (s := t) rfl block)

/-- Goes to the next token. -/
def prepare (s : Tokenizer) : Except Fault Tokenizer := do
  let s ← (s.skipToToken s.cursor.rest).dropStale
  return s.closeBlocks s.mark.column

theorem next_eq (s : Tokenizer) :
    s.next = s.prepare >>= fun s => s.token >>= dropStale := by
  rw [next, prepare]
  cases (s.skipToToken s.cursor.rest).dropStale <;> rfl

/-- On the same line candidates are kept. -/
theorem prepare_spaces {j : Nat} {rest : List Char} {m : Mark}
    (hs : s.cursor = ⟨spaces j ++ rest, m⟩) (start : StartsToken rest)
    (near : ∀ c, some c ∈ s.candidates → c.mark.line = m.line ∧
      (m.through (spaces j)).index ≤ c.mark.index + longestKey) :
    s.prepare = .ok ({ s with cursor := ⟨rest, m.through (spaces j)⟩ }.closeBlocks
      (m.through (spaces j)).column) := by
  have hline : (m.through (spaces j)).line = m.line := Mark.line_through not_isBreak_of_mem_spaces m
  rw [prepare, skipToToken_spaces hs start, dropStale_eq]
  · rfl
  · intro c hc
    obtain ⟨line, index⟩ := near c hc
    exact isStale_of_near (by rw [line]; exact Nat.le_of_eq hline) index

/-- On a further line no candidate is left. -/
theorem prepare_line {j k : Nat} {rest : List Char} {m : Mark}
    (hs : s.cursor = ⟨'\n' :: (margin j k ++ rest), m⟩) (start : StartsToken rest)
    {o : Option Candidate} (ho : s.candidates = [o])
    (optional : ∀ c, o = some c → c.required = false)
    (line : ∀ c, o = some c → c.mark.line ≤ m.line) :
    s.prepare = .ok ({ s with
      cursor := ⟨rest, m.through ('\n' :: margin j k)⟩, keyAllowed := true,
      candidates := [none] }.closeBlocks k) := by
  have hline : m.line < (m.through ('\n' :: margin j k)).line :=
    (endsLine_append_newline []).line_lt_through m j k
  have hcol : (m.through ('\n' :: margin j k)).column = k :=
    Mark.column_through_margin (by rfl) m j k
  have hflow : s.inFlow = false := by simp [inFlow, ho]
  have hstale := dropStale_line (s := { s with
    cursor := ⟨rest, m.through ('\n' :: margin j k)⟩, keyAllowed := true }) ho optional
    fun c hc => Nat.lt_of_le_of_lt (line c hc) hline
  rw [prepare, skipToToken_line hs start hflow, hstale]
  show Except.ok (closeBlocks _ (m.through ('\n' :: margin j k)).column) = _
  rw [hcol]

/-- The next token is about to be read, in a block. -/
structure Ready (s : Tokenizer) (p : Progress) (rest : List Char) (column : Nat) : Prop where
  progress : s.progress = p
  rest : s.cursor.rest = rest
  column : s.mark.column = column
  candidates : s.candidates = [none]

theorem Ready.inFlow {p : Progress} {rest : List Char} {column : Nat}
    (h : s.Ready p rest column) : s.inFlow = false := by
  simp [Tokenizer.inFlow, h.candidates]

theorem Ready.cursor {p : Progress} {rest : List Char} {column : Nat}
    (h : s.Ready p rest column) : s.cursor = ⟨rest, s.mark⟩ := by
  rw [← h.rest]
  rfl

theorem Ready.indent {p : Progress} {rest : List Char} {column : Nat}
    (h : s.Ready p rest column) : s.indent = p.indent := by
  rw [← h.progress]
  rfl

theorem Ready.closeBlocks {p : Progress} {rest : List Char} {column : Nat}
    (h : s.Ready p rest column) (k : Int) : (s.closeBlocks k).Ready (p.close k) rest column := by
  obtain ⟨hcursor, hcandidates, -⟩ := closeBlocks_frame k s
  refine ⟨?_, ?_, ?_, ?_⟩
  · rw [progress_closeBlocks k h.inFlow, h.progress]
  · rw [hcursor, h.rest]
  · rw [mark, hcursor]
    exact h.column
  · rw [hcandidates, h.candidates]

/-! ### Rounds -/

/-- Whether rounds lead from one state before a token to another. -/
def Reaches (s t : Tokenizer) : Prop :=
  ∃ n, n + t.cursor.rest.length ≤ s.cursor.rest.length ∧
    ∀ r, r.prepare = .ok s → ∃ r', r'.prepare = .ok t ∧
      ∀ fuel, TokenStream.read (n + fuel) r = TokenStream.read fuel r'

namespace Reaches

theorem trans {t u : Tokenizer} (h : Reaches s t) (h' : Reaches t u) : Reaches s u := by
  obtain ⟨n, hn, hread⟩ := h
  obtain ⟨n', hn', hread'⟩ := h'
  -- The rounds add up, as what they read does.
  refine ⟨n + n', by omega, fun r hr => ?_⟩
  obtain ⟨q, hq, hq'⟩ := hread r hr
  obtain ⟨q', hprepare, hread⟩ := hread' q hq
  exact ⟨q', hprepare, fun fuel => by rw [Nat.add_assoc, hq', hread]⟩

/-- A token that is not the end of the text is read. -/
theorem of_token {s' r t : Tokenizer} {kind : TokenKind} {start stop : Mark} {tokens : List Token}
    (token : s.token = .ok s') (stale : s'.dropStale = .ok r)
    (pushed : r.tokens = ⟨kind, start, stop⟩ :: tokens) (goesOn : kind ≠ .streamEnd)
    (prepare : r.prepare = .ok t) (shorter : t.cursor.rest.length < s.cursor.rest.length) :
    Reaches s t := by
  refine ⟨1, by omega, fun q hq => ⟨r, prepare, fun fuel => ?_⟩⟩
  have hnext : q.next = .ok r := by
    rw [next_eq, hq]
    show s.token >>= dropStale = _
    rw [token]
    exact stale
  rw [Nat.add_comm, TokenStream.read, hnext]
  simp only [pushed]
  split
  · rename_i heq
    exact absurd (congrArg Token.kind (List.cons.inj heq).1) goesOn
  · rfl

end Reaches

end Tokenizer

end ApiSurface.Yaml
