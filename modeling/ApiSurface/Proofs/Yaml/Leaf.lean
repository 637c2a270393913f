/-
The tokens of nodes that open no block.

A scalar is one token, an empty collection is two. After the node the text goes on with the next
token, on a further line and indented no more than the collection around the node; the blocks that
are indented more than that token have ended. Empty lines before the next token make no difference,
unless the node is a literal block that keeps them.

* `token_plain`, `token_single`, `token_double`, `token_literal` — what a token starts with;
* `Ready.arrives_text` — the scalar that is written for a text, in whatever style;
* `Ready.arrives_empty` — an empty collection in brackets.
-/
import ApiSurface.Proofs.Yaml.Literal
import ApiSurface.Proofs.Yaml.Plain
import ApiSurface.Proofs.Yaml.Quoted
import ApiSurface.Proofs.Yaml.Rounds

namespace ApiSurface.Yaml

/-- An empty collection in brackets. -/
def brackets (isList : Bool) : List Char := if isList then ['[', ']'] else ['\x7b', '\x7d']

/-- The tokens of an empty collection. -/
def bracketKinds (isList : Bool) : List TokenKind :=
  if isList then [.flowSequenceStart, .flowSequenceEnd] else [.flowMappingStart, .flowMappingEnd]

namespace Tokenizer

variable {s : Tokenizer}

/-! ### What a token starts with -/

theorem token_plain {c : Char} {cs : List Char} (hs : s.cursor.rest = c :: cs)
    (block : s.inFlow = false) (gap : isGap c = false)
    (starts : Style.startsLikeOther (c :: cs) = false) : s.token = s.plainScalar := by
  simp only [Style.startsLikeOther, Bool.or_eq_false_iff, beq_eq_false_iff_ne] at starts
  obtain ⟨⟨⟨hother, halone⟩, hyphens⟩, points⟩ := starts
  simp [Style.indicators] at hother
  simp [String.contains_char_eq] at halone
  have hminus : s.cursor.startsMarker '-' = false := by
    rw [← hs] at hyphens
    simp [Cursor.startsMarker, hyphens]
  have hpoint : s.cursor.startsMarker '.' = false := by
    rw [← hs] at points
    simp [Cursor.startsMarker, points]
  -- A question mark, colon or hyphen starts a plain scalar when no gap follows it.
  have hstart : s.startsPlain c cs.head? = true := by
    by_cases hspecial : c = '?' ∨ c = ':' ∨ c = '-'
    · have hnext := halone hspecial
      cases hcs : cs.head? with
      | none => simp [hcs, isGapOrEnd] at hnext
      | some d =>
        have hd : isGap d = false := by simpa [hcs, isGapOrEnd] using hnext
        rcases hspecial with rfl | rfl | rfl <;>
          simp [startsPlain, block, isGapOrEnd, hd, isBlank_of_not_isGap hd]
    · simp only [not_or] at hspecial
      simp [startsPlain, gap, indicators, hother, hspecial]
  -- And then it is no indicator either.
  have hnext : ∀ d, d = '?' ∨ d = ':' ∨ d = '-' → ¬ (c = d ∧ isGapOrEnd cs.head? = true) := by
    rintro d hd ⟨rfl, hgap⟩
    exact absurd hgap (by simp [halone hd])
  simp only [token, hs, hminus, hpoint, hstart, block, hother]
  simp [if_neg (hnext '-' (by simp)), if_neg (hnext '?' (by simp)), if_neg (hnext ':' (by simp))]

theorem token_single {cs : List Char} (hs : s.cursor.rest = '\'' :: cs) :
    s.token = s.quotedScalar true := by
  simp [token, hs, Cursor.startsMarker]

theorem token_double {cs : List Char} (hs : s.cursor.rest = '"' :: cs) :
    s.token = s.quotedScalar false := by
  simp [token, hs, Cursor.startsMarker]

theorem token_literal {cs : List Char} (hs : s.cursor.rest = '|' :: cs)
    (block : s.inFlow = false) : s.token = s.blockScalar true := by
  simp [token, hs, Cursor.startsMarker, block]

/-! ### Up to the next line -/

/-- Whether rounds lead to the next token, where a key may start. -/
def Arrives (s : Tokenizer) (p : Progress) (rest : List Char) (column : Nat) : Prop :=
  ∃ t, Reaches s t ∧ t.Ready p rest column ∧ t.keyAllowed = true

theorem Reaches.arrives {t : Tokenizer} {p : Progress} {rest : List Char} {column : Nat}
    (h : Reaches s t) (ht : t.Arrives p rest column) : s.Arrives p rest column := by
  obtain ⟨u, hu, hready⟩ := ht
  exact ⟨u, h.trans hu, hready⟩

/-- The candidate that may be left by a token on one line. -/
def Candidate.Optional (o : Option Candidate) (m : Mark) : Prop :=
  ∀ c, o = some c → c.required = false ∧ c.mark.line ≤ m.line

section Line

variable {r : Tokenizer} {o : Option Candidate} {j k : Nat} {tail : List Char} {kind : TokenKind}
  {start stop m : Mark}

/-- A token before the end of its line. -/
theorem arrives_line (token : s.token = .ok (r.push kind start stop)) (goesOn : kind ≠ .streamEnd)
    (candidates : r.candidates = [o]) (optional : Candidate.Optional o m)
    (cursor : r.cursor = ⟨'\n' :: (margin j k ++ tail), m⟩) (hstart : StartsToken tail)
    (shorter : tail.length < s.cursor.rest.length) :
    s.Arrives ((r.progress.add [kind]).close k) tail k := by
  -- On its own line the candidate may still be fresh; going to the next line gives it up.
  obtain ⟨o', ho', hstale⟩ := dropStale_optional (s := r.push kind start stop) candidates
    fun c hc => (optional c hc).1
  have hprepare := prepare_line (s := { r.push kind start stop with candidates := [o'] }) cursor
    hstart rfl (fun c hc => (optional c (ho' c hc)).1) (fun c hc => (optional c (ho' c hc)).2)
  obtain ⟨hcursor, -, hkey⟩ := closeBlocks_frame k
    { r.push kind start stop with
      cursor := ⟨tail, m.through ('\n' :: margin j k)⟩, keyAllowed := true, candidates := [none] }
  refine ⟨_, .of_token token hstale rfl goesOn hprepare ?_, Ready.closeBlocks ?_ k, hkey⟩
  · rw [hcursor]
    exact shorter
  · exact ⟨progress_push .., rfl, Mark.column_through_margin (by rfl) m j k, rfl⟩

/-- A token that goes on to the next line. -/
theorem arrives_next (token : s.token = .ok (r.push kind start stop)) (goesOn : kind ≠ .streamEnd)
    (candidates : r.candidates = [o]) (optional : ∀ c, o = some c → c.required = false)
    (line : ∀ c, o = some c → c.mark.line < m.line) (cursor : r.cursor = ⟨tail, m⟩)
    (column : m.column = k) (keyAllowed : r.keyAllowed = true) (hstart : StartsToken tail)
    (shorter : tail.length < s.cursor.rest.length) :
    s.Arrives ((r.progress.add [kind]).close k) tail k := by
  have hmark : (r.push kind start stop).mark = m := congrArg Cursor.mark cursor
  -- The token has already gone past the line of the candidate.
  have hstale := dropStale_line (s := r.push kind start stop) candidates optional
    fun c hc => hmark ▸ line c hc
  have hprepare := prepare_spaces (s := { r.push kind start stop with candidates := [none] })
    (j := 0) cursor hstart (by simp)
  obtain ⟨hcursor, -, hkey⟩ := closeBlocks_frame k
    { r.push kind start stop with cursor := ⟨tail, m⟩, candidates := [none] }
  rw [spaces_zero, Mark.through_nil, column] at hprepare
  refine ⟨_, .of_token token hstale rfl goesOn hprepare ?_, Ready.closeBlocks ?_ k, ?_⟩
  · rw [hcursor]
    exact shorter
  · exact ⟨progress_push .., rfl, column, rfl⟩
  · rw [hkey]
    exact keyAllowed

end Line

/-! ### Scalars -/

section Scalars

variable {p : Progress} {column j k : Nat} {tail : List Char}

theorem Ready.dropCandidate {rest : List Char} (h : s.Ready p rest column) :
    s.dropCandidate = .ok s := by
  simp [Tokenizer.dropCandidate, candidate?, h.candidates]

/-- Where a key may start, that is remembered. -/
theorem Ready.saveCandidate_key {rest : List Char} (h : s.Ready p rest column)
    (keyAllowed : s.keyAllowed = true) :
    s.saveCandidate = .ok { s with
      candidates := [some ⟨s.indent == Int.ofNat s.mark.column, s.count, s.mark⟩] } := by
  rw [Tokenizer.saveCandidate, if_pos keyAllowed, h.dropCandidate, h.inFlow]
  simp only [setCandidate, h.candidates, bind, Except.bind, pure, Except.pure, List.tail_cons,
    Bool.not_false, Bool.true_and]

/-- Where a node is indented more than the collection around it, a key may stand but need not. -/
theorem Ready.saveCandidate {rest : List Char} (h : s.Ready p rest column)
    (hi : p.indent < column) :
    ∃ o, (∀ c, o = some c → c.required = false ∧ c.mark = s.mark) ∧
      s.saveCandidate = .ok { s with candidates := [o] } := by
  have hrequired : (s.indent == Int.ofNat s.mark.column) = false := by
    rw [h.indent, h.column, beq_eq_false_iff_ne]
    exact Int.ne_of_lt hi
  by_cases hkey : s.keyAllowed = true
  · refine ⟨some ⟨false, s.count, s.mark⟩, by rintro _ ⟨⟩; exact ⟨rfl, rfl⟩, ?_⟩
    rw [h.saveCandidate_key hkey, hrequired]
  · refine ⟨none, nofun, ?_⟩
    rw [Tokenizer.saveCandidate, if_neg hkey, ← h.candidates]

theorem lex_ok {α : Type} {l : Lexer α} {a : α} {c c' : Cursor} (hc : s.cursor = c)
    (h : l c = .ok (a, c')) : s.lex l = .ok (a, { s with cursor := c' }) := by
  rw [lex, hc, h]
  rfl

theorem startsLikeOther_append {cs : List Char} (h : Style.startsLikeOther cs = false)
    (nonempty : cs ≠ []) (rest : List Char) :
    Style.startsLikeOther (cs ++ '\n' :: rest) = false := by
  obtain ⟨c, cs, rfl⟩ := List.exists_cons_of_ne_nil nonempty
  -- Only the first three characters matter: the text has them itself, or it ends and the line end
  -- is one of them, which is a gap as the end of the text is.
  match cs, h with
  | [], h =>
    simp [Style.startsLikeOther, isGapOrEnd] at h ⊢
    simp [h]
  | [d], h =>
    simp [Style.startsLikeOther] at h ⊢
    exact h
  | d :: e :: es, h => simpa [Style.startsLikeOther] using h

theorem atDocumentMarker_of_startsLikeOther {cs : List Char}
    (h : Style.startsLikeOther cs = false) (m : Mark) :
    Cursor.atDocumentMarker ⟨cs, m⟩ = false := by
  cases cs with
  | nil => simp [Cursor.atDocumentMarker, Cursor.startsMarker]
  | cons c cs =>
    simp only [Style.startsLikeOther, Bool.or_eq_false_iff] at h
    simp only [Cursor.atDocumentMarker, Cursor.startsMarker, h.1.2, h.2, Bool.and_false,
      Bool.false_and, Bool.or_self]

/-- A text that may be plain. -/
theorem Ready.arrives_plain {cs : List Char} (allowed : Style.plainAllowed cs = true)
    (nonempty : cs ≠ []) (hs : s.Ready p (cs ++ '\n' :: (margin j k ++ tail)) column)
    (hi : p.indent < column) (hk : k ≤ p.indent ∨ tail = []) (hstart : StartsToken tail) :
    s.Arrives ((p.add [.scalar (String.ofList cs) .plain]).close k) tail k := by
  have h := PlainText.of_plainAllowed allowed nonempty
  have starts : Style.startsLikeOther cs = false := by
    simp only [Style.plainAllowed, Bool.and_eq_true, Bool.not_eq_true'] at allowed
    exact allowed.1.2
  obtain ⟨o, ho, hsave⟩ := hs.saveCandidate hi
  have hother := startsLikeOther_append starts h.nonempty (margin j k ++ tail)
  have hlimit : k < (s.indent + 1).toNat ∨ tail = [] :=
    hk.imp_left fun hk => by rw [hs.indent]; omega
  obtain ⟨q, hq, htext, hbroken⟩ := Lexer.plainScalar_line h hstart.stops hlimit
    (atDocumentMarker_of_startsLikeOther hother s.mark) (by rw [hs.indent, hs.column]; omega)
  have hends := endsLine_append_newline cs
  have hcol := hends.column_through s.mark j k
  have hline := hends.line_lt_through s.mark j k
  rw [List.append_assoc, List.singleton_append] at hcol hline
  -- The words and the way to the next token are one token, since a plain scalar may go on there.
  have htoken : s.token = .ok ({ s with
      candidates := [o], cursor := ⟨tail, s.mark.through (cs ++ '\n' :: margin j k)⟩,
      keyAllowed := true }.push (.scalar (String.ofList cs) .plain) s.mark q.stop) := by
    obtain ⟨c, ds, hcs⟩ := List.exists_cons_of_ne_nil h.nonempty
    have hrest : s.cursor.rest = c :: (ds ++ '\n' :: (margin j k ++ tail)) := by
      rw [hs.rest, hcs]
      rfl
    have hgap := (h.first c (by rw [hcs]; rfl)).1
    rw [hcs] at hother
    rw [token_plain hrest hs.inFlow hgap hother, plainScalar, hsave]
    have hlex := lex_ok (s := { s with candidates := [o] }) hs.cursor hq
    show lex _ _ >>= _ = _
    refine (congrArg (· >>= _) hlex).trans ?_
    rw [← htext, ← hbroken]
    rfl
  have := arrives_next htoken (by simp) rfl (fun c hc => (ho c hc).1)
    (fun c hc => by rw [(ho c hc).2]; exact hline) rfl hcol rfl hstart
    (by rw [hs.rest]; simp; omega)
  rwa [← hs.progress]

theorem lexToken_ok {l : Lexer TokenKind} {kind : TokenKind} {c c' : Cursor} (hc : s.cursor = c)
    (h : l c = .ok (kind, c')) :
    s.lexToken l = .ok ({ s with cursor := c' }.push kind s.mark c'.mark) := by
  rw [lexToken, lex_ok hc h]
  rfl

/-- A text in quotes. -/
theorem Ready.arrives_quoted {single : Bool} {written : Char → List Char} {body cs : List Char}
    (h : QuotedBody single written body cs)
    (hs : s.Ready p (Lexer.quoteOf single ::
      (body ++ Lexer.quoteOf single :: '\n' :: (margin j k ++ tail))) column)
    (hi : p.indent < column) (hstart : StartsToken tail) :
    s.Arrives ((p.add [.scalar (String.ofList cs)
      (if single then .singleQuoted else .doubleQuoted)]).close k) tail k := by
  obtain ⟨o, ho, hsave⟩ := hs.saveCandidate hi
  have hread := Lexer.quotedScalar_body h (margin j k ++ tail) s.mark
  generalize hm : s.mark.through _ = m at hread
  have hline : s.mark.line ≤ m.line := by
    rw [← hm]
    exact Mark.line_le_through ..
  have htoken : s.token = .ok ({ s with
      candidates := [o], cursor := ⟨'\n' :: (margin j k ++ tail), m⟩,
      keyAllowed := false }.push (.scalar (String.ofList cs)
        (if single then .singleQuoted else .doubleQuoted)) s.mark m) := by
    have hquoted : s.token = s.quotedScalar single := by
      cases single with
      | true => exact token_single hs.rest
      | false => exact token_double hs.rest
    rw [hquoted, quotedScalar, hsave]
    exact lexToken_ok hs.cursor (Lexer.bind_ok hread _)
  have := arrives_line htoken (by simp) rfl
    (fun c hc => ⟨(ho c hc).1, by rw [(ho c hc).2]; exact hline⟩) rfl hstart
    (by rw [hs.rest]; simp; omega)
  rwa [← hs.progress]

/-- A literal block. -/
theorem Ready.arrives_literal {cs : List Char} (nonempty : cs ≠ [])
    (printable : ∀ c ∈ cs, Style.isPrintable c = true) (hj : chompingOf cs = .keep → j = 0)
    (hs : s.Ready p (literal (p.indent.toNat + 2) cs ++ (margin j k ++ tail)) column)
    (hk : k < p.indent.toNat + 2) (hstart : StartsToken tail) :
    s.Arrives ((p.add [.scalar (String.ofList cs) .literal]).close k) tail k := by
  have hread := Lexer.blockScalar_literal nonempty printable hj hk hstart.stops s.mark
  have hends := endsLine_literal (p.indent.toNat + 2) cs
  have htoken : s.token = .ok ({ s with
      cursor := ⟨tail, s.mark.through (literal (p.indent.toNat + 2) cs ++ margin j k)⟩,
      keyAllowed := true }.push (.scalar (String.ofList cs) .literal) s.mark
        (s.mark.through (literal (p.indent.toNat + 2) cs ++ margin j k))) := by
    rw [token_literal hs.rest hs.inFlow, blockScalar, hs.dropCandidate]
    exact lexToken_ok hs.cursor (Lexer.bind_ok (hs.indent ▸ hread) _)
  have := arrives_next htoken (by simp) hs.candidates nofun nofun rfl
    (hends.column_through s.mark j k) rfl hstart (by rw [hs.rest, literal]; simp; omega)
  rwa [← hs.progress]

/-- The scalar that is written for a text. -/
theorem Ready.arrives_text {t : String}
    (hj : KeepsBreaks t → j = 0)
    (hs : s.Ready p (text (p.indent.toNat + 2) t ++ (margin j k ++ tail)) column)
    (hi : p.indent < column) (hk : k ≤ p.indent ∨ k = 0 ∧ tail = []) (hstart : StartsToken tail) :
    s.Arrives ((p.add [.scalar t (Style.ofText t)]).close k) tail k := by
  have spec := Style.ofText_spec t
  rw [text] at hs
  cases hstyle : Style.ofText t with
  | plain =>
    rw [hstyle] at spec hs
    obtain ⟨ambiguous, allowed⟩ := spec
    have nonempty := Style.ne_nil_of_not_isAmbiguous ambiguous
    simp only [List.append_assoc, List.singleton_append] at hs
    have := hs.arrives_plain allowed nonempty hi (hk.imp_right And.right) hstart
    rwa [String.ofList_toList] at this
  | singleQuoted =>
    rw [hstyle] at spec hs
    obtain ⟨hline, allowed⟩ := spec
    simp only [Style.singleAllowed, Bool.and_eq_true, Bool.not_eq_true',
      List.all_eq_true] at allowed
    -- Line ends in single quotes are separators, for a text with a newline is quoted otherwise.
    have hgap : ∀ c ∈ t.toList, isGap c = true → c = ' ' ∨ isSeparator c = true := by
      intro c hc hg
      refine (eq_space_of_isPrintable (allowed.1.1 c hc) hg).imp_right fun hend => ?_
      exact hend.resolve_left (by rintro rfl; exact hline hc)
    have hbody := quotedBody_single hgap allowed.1.2 allowed.2 (p.indent.toNat + 1)
    simp only [List.cons_append, List.append_assoc, List.nil_append] at hs
    have := Ready.arrives_quoted hbody hs hi hstart
    rwa [String.ofList_toList] at this
  | doubleQuoted =>
    rw [hstyle] at hs
    simp only [List.cons_append, List.append_assoc, List.nil_append] at hs
    have := Ready.arrives_quoted (quotedBody_double t.toList) hs hi hstart
    rwa [String.ofList_toList] at this
  | literal =>
    rw [hstyle] at spec hs
    obtain ⟨hline, allowed⟩ := spec
    simp only [Style.literalAllowed, Bool.and_eq_true, List.all_eq_true] at allowed
    have nonempty : t.toList ≠ [] := List.ne_nil_of_mem hline
    have := hs.arrives_literal nonempty allowed.1.1 (fun keep => hj ⟨hstyle, keep⟩) (by omega)
      hstart
    rwa [String.ofList_toList] at this
  | folded =>
    rw [hstyle] at spec
    -- No text is written folded.
    exact absurd spec id

end Scalars

/-! ### Empty collections -/

theorem take_one {c : Char} {cs : List Char} (hs : s.cursor.rest = c :: cs) (kind : TokenKind) :
    s.take 1 kind =
      { s with cursor := ⟨cs, s.mark.past c⟩ }.push kind s.mark (s.mark.past c) := by
  have hcursor : s.cursor = ⟨c :: cs, s.mark⟩ := by
    rw [← hs]
    rfl
  rw [take, hcursor]
  rfl

/-- Two brackets that open and close a collection. -/
theorem Ready.arrives_brackets {a b : Char} {opening closing : TokenKind} {p : Progress}
    {column j k : Nat} {tail : List Char}
    (hs : s.Ready p (a :: b :: '\n' :: (margin j k ++ tail)) column)
    (opens : s.token = s.flowStart opening)
    (closes : ∀ t : Tokenizer, t.cursor.rest = b :: '\n' :: (margin j k ++ tail) →
      t.token = t.flowEnd closing)
    (kinds : opening ≠ .streamEnd ∧ closing ≠ .streamEnd)
    (next : StartsToken (b :: '\n' :: (margin j k ++ tail))) (hi : p.indent < column)
    (hstart : StartsToken tail) :
    s.Arrives ((p.add [opening, closing]).close k) tail k := by
  obtain ⟨o, ho, hsave⟩ := hs.saveCandidate hi
  have near : ∀ c, o = some c → c.mark.line = s.mark.line ∧
      (s.mark.past a).index ≤ c.mark.index + longestKey := by
    intro c hc
    have := a.utf8Size_le_four
    rw [(ho c hc).2]
    refine ⟨rfl, ?_⟩
    show s.mark.index + a.utf8Size ≤ s.mark.index + 1024
    omega
  -- The state between the brackets, inside the flow collection.
  let t : Tokenizer := { s with
    candidates := [none, o], keyAllowed := true,
    cursor := ⟨b :: '\n' :: (margin j k ++ tail), s.mark.past a⟩ }.push opening s.mark
      (s.mark.past a)
  have hopen : s.token = .ok t := by
    rw [opens, flowStart, hsave]
    exact congrArg Except.ok (take_one (by exact hs.rest) opening)
  -- The first bracket may still turn out to start a key; it is too near to be given up.
  have hstale : t.dropStale = .ok t := by
    refine dropStale_eq fun c hc => ?_
    obtain ⟨line, index⟩ := near c (by simpa [t, push, eq_comm] using hc)
    exact isStale_of_near (Nat.le_of_eq line.symm) index
  have hprepare : t.prepare = .ok t := by
    refine prepare_spaces (j := 0) rfl next fun c hc => ?_
    exact near c (by simpa [t, push, eq_comm] using hc)
  have hreaches : Reaches s t :=
    .of_token hopen hstale rfl kinds.1 hprepare (by rw [hs.rest]; exact Nat.lt_succ_self _)
  have hclose : t.token = .ok ({ t with
      candidates := [o], keyAllowed := false,
      cursor := ⟨'\n' :: (margin j k ++ tail), t.mark.past b⟩ }.push closing t.mark
        (t.mark.past b)) := by
    rw [closes t rfl]
    exact congrArg Except.ok (take_one (by rfl) closing)
  have harrives := arrives_line (m := t.mark.past b) hclose kinds.2 rfl
    (fun c hc => ⟨(ho c hc).1, Nat.le_of_eq (near c hc).1⟩) rfl hstart
    (by simp [t, push]; omega)
  have hprogress : ({ t with
      candidates := [o], keyAllowed := false,
      cursor := ⟨'\n' :: (margin j k ++ tail), t.mark.past b⟩ } : Tokenizer).progress =
        p.add [opening] := by
    rw [← hs.progress]
    exact progress_push ..
  rw [hprogress, Progress.add_add] at harrives
  exact hreaches.arrives harrives

/-- An empty collection. -/
theorem Ready.arrives_empty (isList : Bool) {p : Progress} {column j k : Nat} {tail : List Char}
    (hs : s.Ready p (brackets isList ++ '\n' :: (margin j k ++ tail)) column)
    (hi : p.indent < column) (hstart : StartsToken tail) :
    s.Arrives ((p.add (bracketKinds isList)).close k) tail k := by
  have bracket (b : Char) (cs : List Char) (h : b = ']' ∨ b = '\x7d') : StartsToken (b :: cs) := by
    rintro _ ⟨⟩
    rcases h with rfl | rfl <;> decide
  cases isList with
  | true =>
    refine Ready.arrives_brackets hs ?_ (fun t ht => ?_) (by decide) (bracket _ _ (by simp)) hi
      hstart
    · simp [token, hs.rest, brackets, Cursor.startsMarker]
    · simp [token, ht, Cursor.startsMarker]
  | false =>
    refine Ready.arrives_brackets hs ?_ (fun t ht => ?_) (by decide) (bracket _ _ (by simp)) hi
      hstart
    · simp [token, hs.rest, brackets, Cursor.startsMarker]
    · simp [token, ht, Cursor.startsMarker]

end Tokenizer

end ApiSurface.Yaml
