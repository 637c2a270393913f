/-
The trees that are written without tags, and the tokens of their text.

`Writable` says which trees these are: every key is a word that is short enough to be seen as one,
and every number looks like a plain scalar. `nodeText` is the text of a node without what stands
before it, and `kinds` are the kinds of its tokens; a list after a key opens no block of its own.
`KeepsEnd` says that empty lines after the text would be read as a part of its last scalar.

* `write_top`, `write_afterHyphen`, `write_afterKey` — a node where it stands;
* `startsToken_nodeText` — nothing at the start of a node is skipped;
* `allowed_nodeText` — a written text has no character that may not stand in it.
-/
import ApiSurface.Proofs.Yaml.Leaf

namespace ApiSurface.Yaml

/-- A key of letters and digits that is seen as a key, and as a text, wherever it stands. -/
structure IsKey (key : String) : Prop where
  nonempty : key.toList ≠ []
  word : ∀ c ∈ key.toList, c.isAlphanum = true
  short : 4 * key.toList.length ≤ Tokenizer.longestKey
  unambiguous : Style.isAmbiguous key = false

instance (key : String) : Decidable (IsKey key) :=
  decidable_of_iff (key.toList ≠ [] ∧ key.toList.all Char.isAlphanum = true ∧
      4 * key.toList.length ≤ Tokenizer.longestKey ∧ Style.isAmbiguous key = false)
    ⟨fun ⟨h, h', h'', h'''⟩ => ⟨h, List.all_eq_true.mp h', h'', h'''⟩,
      fun h => ⟨h.1, List.all_eq_true.mpr h.2, h.3, h.4⟩⟩

/-- A tree without tags whose keys and numbers are read as they are written. -/
inductive Writable : Tree → Prop
  | null : Writable .null
  | bool (b : Bool) : Writable (.bool b)
  | number {n : Number} (nonempty : n.write Notation.yaml ≠ [])
      (plain : Style.plainAllowed (n.write Notation.yaml) = true) : Writable (.number n)
  | text (s : String) : Writable (.text s)
  | list {items : List Tree} (h : ∀ t ∈ items, Writable t) : Writable (.list items)
  | record {members : List (String × Tree)} (keys : ∀ m ∈ members, IsKey m.1)
      (h : ∀ m ∈ members, Writable m.2) : Writable (.record members)

/-- Whether a node is written as a block on further lines. -/
def opensBlock : Tree → Bool
  | .list items => !items.isEmpty
  | .record members => !members.isEmpty
  | _ => false

/-- Whether a node is a list that is written as a block. -/
def opensSequence : Tree → Bool
  | .list items => !items.isEmpty
  | _ => false

/-- The text of a node that stands at a column inside a collection, without what stands before
it. -/
def nodeText (outer : Int) (column : Nat) : Tree → List Char
  | .null => ['n', 'u', 'l', 'l', '\n']
  | .bool b => if b then ['t', 'r', 'u', 'e', '\n'] else ['f', 'a', 'l', 's', 'e', '\n']
  | .number n => n.write Notation.yaml ++ ['\n']
  | .text s => text (outer.toNat + 2) s
  | .list items => if items.isEmpty then brackets true ++ ['\n'] else writeItems column items
  | .record members =>
    if members.isEmpty then brackets false ++ ['\n'] else writeMembers column members
  | .tagged tag value =>
    '!' :: (tag.toList ++ writeTagged (if outer < 0 then .top else .afterKey) outer.toNat value)

mutual

/-- The kinds of the tokens of a node; `flush` says whether it stands after a key. -/
def kinds (flush : Bool) : Tree → List TokenKind
  | .null => [.scalar "null" .plain]
  | .bool b => [.scalar (if b then "true" else "false") .plain]
  | .number n => [.scalar (String.ofList (n.write Notation.yaml)) .plain]
  | .text s => [.scalar s (Style.ofText s)]
  | .list items =>
    if items.isEmpty then bracketKinds true
    else if flush then itemKinds items
    else .blockSequenceStart :: (itemKinds items ++ [.blockEnd])
  | .record members =>
    if members.isEmpty then bracketKinds false
    else .blockMappingStart :: (memberKinds members ++ [.blockEnd])
  | .tagged tag value => .tag "!" tag :: kinds false value

/-- The kinds of the tokens of items. -/
def itemKinds : List Tree → List TokenKind
  | [] => []
  | item :: rest => .blockEntry :: (kinds false item ++ itemKinds rest)

/-- The kinds of the tokens of members. -/
def memberKinds : List (String × Tree) → List TokenKind
  | [] => []
  | (key, value) :: rest =>
    .key :: .scalar key .plain :: .value :: (kinds true value ++ memberKinds rest)

end

mutual

/-- The last scalar of a tree, if it is a text. -/
def lastText? : Tree → Option String
  | .text s => some s
  | .list items => lastItem? items
  | .record members => lastMember? members
  | .tagged _ value => lastText? value
  | _ => none

/-- The last scalar of items, if it is a text. -/
def lastItem? : List Tree → Option String
  | [] => none
  | item :: rest => if rest.isEmpty then lastText? item else lastItem? rest

/-- The last scalar of members, if it is a text. -/
def lastMember? : List (String × Tree) → Option String
  | [] => none
  | (_, value) :: rest => if rest.isEmpty then lastText? value else lastMember? rest

end

/-- Whether the text of a tree ends with a literal block that keeps the line ends after it. -/
def KeepsEnd (t : Tree) : Prop := ∃ s, lastText? t = some s ∧ KeepsBreaks s

/-! ### Where a node stands -/

theorem write_top (t : Tree) : write .top 0 t = nodeText (-1) 0 t := by
  cases t <;> simp [write, nodeText, Position.gap, Position.opening, brackets]

/-- After its tag a node is written alike everywhere but at the top. -/
theorem writeTagged_of_ne_top {p : Position} (h : p ≠ .top) (indent : Nat) :
    (t : Tree) → writeTagged p indent t = writeTagged .afterKey indent t
  | .null | .bool _ | .number _ => rfl
  | .text _ | .list _ | .record _ => by simp [writeTagged, Position.tagged, h]
  | .tagged tag value => by
    rw [writeTagged, writeTagged, writeTagged_of_ne_top h indent value]

theorem write_afterHyphen (indent : Nat) (t : Tree) :
    write .afterHyphen indent t = ' ' :: nodeText indent (indent + 2) t := by
  have outside : ¬ (indent : Int) < 0 := by omega
  cases t with
  | null => rfl
  | bool b => cases b <;> rfl
  | number n => rfl
  | text s => rfl
  | list items => cases items <;> rfl
  | record members => cases members <;> rfl
  | tagged tag value =>
    rw [write, nodeText, if_neg outside, writeTagged_of_ne_top (p := .afterHyphen) (by simp)]
    rfl

/-- After a key a node goes on with the line or stands on a line of its own. -/
theorem write_afterKey (indent : Nat) (t : Tree) :
    opensBlock t = false ∧
        (∀ column, write .afterKey indent t = ' ' :: nodeText indent column t) ∨
      opensBlock t = true ∧ ∃ column,
        column = (if opensSequence t then indent else indent + 2) ∧
          write .afterKey indent t = '\n' :: (spaces column ++ nodeText indent column t) := by
  have outside : ¬ (indent : Int) < 0 := by omega
  cases t with
  | null => exact .inl ⟨rfl, fun _ => rfl⟩
  | bool b => exact .inl ⟨rfl, fun _ => by cases b <;> rfl⟩
  | number n => exact .inl ⟨rfl, fun _ => rfl⟩
  | text s => exact .inl ⟨rfl, fun _ => rfl⟩
  | list items =>
    cases items with
    | nil => exact .inl ⟨rfl, fun _ => rfl⟩
    | cons item rest => exact .inr ⟨rfl, _, rfl, rfl⟩
  | record members =>
    cases members with
    | nil => exact .inl ⟨rfl, fun _ => rfl⟩
    | cons m rest => exact .inr ⟨rfl, _, rfl, rfl⟩
  | tagged tag value =>
    refine .inl ⟨rfl, fun _ => ?_⟩
    rw [write, nodeText, if_neg outside]
    rfl

/-! ### Words -/

theorem isPrintable_of_isAlphanum {c : Char} (h : c.isAlphanum = true) :
    Style.isPrintable c = true := by
  delta Char.isAlphanum Char.isAlpha Char.isUpper Char.isLower Char.isDigit at h
  simp only [Bool.or_eq_true, Bool.and_eq_true, decide_eq_true_eq, ge_iff_le,
    UInt32.le_iff_toNat_le, Char.toNat_val, Char.reduceToNat] at h
  simp only [Style.isPrintable, Bool.or_eq_true, Bool.and_eq_true, beq_iff_eq, decide_eq_true_eq,
    bne_iff_ne]
  omega

theorem startsLikeOther_word {c : Char} (h : c.isAlphanum = true) (cs : List Char) :
    Style.startsLikeOther (c :: cs) = false := by
  have symbols : (Style.indicators ++ "?:-.").toList.all (fun d => !d.isAlphanum) = true := by
    decide
  have other : ∀ d ∈ (Style.indicators ++ "?:-.").toList, c ≠ d :=
    fun d hd => ne_of_isAlphanum h (by simpa using List.all_eq_true.mp symbols d hd)
  simp [Style.indicators] at other
  simp [Style.startsLikeOther, Style.indicators, String.contains_char_eq, other]

theorem startsLikeOther_minus {c : Char} (h : c.isAlphanum = true) (cs : List Char) :
    Style.startsLikeOther ('-' :: c :: cs) = false := by
  have hminus : c ≠ '-' := ne_of_isAlphanum h (by decide)
  simp [Style.startsLikeOther, Style.indicators, String.contains_char_eq, hminus, isGapOrEnd,
    isGap_of_isAlphanum h]

/-- A word of letters, digits and the signs of numbers may be plain if a letter or a digit stands
at its start, or after a minus there. -/
theorem plainAllowed_word {cs : List Char}
    (h : ∀ c ∈ cs, c.isAlphanum = true ∨ c = '.' ∨ c = '+' ∨ c = '-')
    (starts : Style.startsLikeOther cs = false) : Style.plainAllowed cs = true := by
  -- none of the characters is a blank, a break or a colon
  have tight : ∀ c ∈ cs, Style.isPrintable c = true ∧ isGap c = false ∧ c ≠ ':' ∧ c ≠ ' ' := by
    intro c hc
    obtain hc | rfl | rfl | rfl := h c hc
    · exact ⟨isPrintable_of_isAlphanum hc, isGap_of_isAlphanum hc, ne_of_isAlphanum hc (by decide),
        ne_of_isAlphanum hc (by decide)⟩
    · decide
    · decide
    · decide
  have hpair :
      Style.anyPair (fun a b => a == ':' && isGap b || isGap a && b == '#') cs = false := by
    refine Style.anyPair_of_append_left [' '] (Style.anyPair_of_forall (fun a ha b => ?_) ' ')
    simp [(tight a ha).2.1, (tight a ha).2.2.1]
  have loose (o : Option Char) (ho : ∀ c, o = some c → c ∈ cs) :
      o.any (fun c => c == ' ' || isBreak c) = false := by
    cases o with
    | none => rfl
    | some c =>
      obtain ⟨-, hgap, -, hspace⟩ := tight c (ho c rfl)
      simp [hspace, isBreak_of_not_isGap hgap]
  simp only [Style.plainAllowed, Style.hasLooseEnd, Style.endsEarly, starts, hpair,
    loose cs.head? fun c hc => List.mem_of_head? hc,
    loose cs.getLast? fun c hc => List.mem_of_getLast? hc, Bool.or_false, Bool.not_false,
    Bool.and_true, Bool.and_eq_true, List.all_eq_true, Bool.not_eq_true', List.any_eq_false,
    beq_eq_false_iff_ne]
  refine ⟨⟨fun c hc => (tight c hc).1, fun c hc => ?_⟩, fun hc => ?_⟩
  · rw [isBreak_of_not_isGap (tight c hc).2.1]
    exact Bool.false_ne_true
  · exact (tight ':' (List.mem_of_getLast? hc)).2.2.1 rfl

/-! ### How a node starts -/

theorem startsToken_of_isAlphanum {c : Char} (h : c.isAlphanum = true) (cs : List Char) :
    StartsToken (c :: cs) := by
  rintro _ ⟨⟩
  exact ⟨isGap_of_isAlphanum h, ne_of_isAlphanum h (by decide), ne_of_isAlphanum h (by decide)⟩

theorem startsToken_of_plainAllowed {cs : List Char} (h : Style.plainAllowed cs = true)
    (nonempty : cs ≠ []) (rest : List Char) : StartsToken (cs ++ rest) := by
  have first := (PlainText.of_plainAllowed h nonempty).first
  obtain ⟨c, cs, rfl⟩ := List.exists_cons_of_ne_nil nonempty
  rintro _ ⟨⟩
  refine ⟨(first c rfl).1, (first c rfl).2, ?_⟩
  rintro rfl
  simp only [Style.plainAllowed, Bool.and_eq_true, List.all_eq_true] at h
  exact absurd (h.1.1.1.1 _ List.mem_cons_self) (by decide)

theorem startsToken_text (indent : Nat) (s : String) (rest : List Char) :
    StartsToken (text indent s ++ rest) := by
  have quoted (c : Char) (cs : List Char) (h : c = '\'' ∨ c = '"' ∨ c = '|') :
      StartsToken (c :: cs ++ rest) := by
    rintro _ ⟨⟩
    rcases h with rfl | rfl | rfl <;> decide
  have spec := Style.ofText_spec s
  rw [text]
  cases hstyle : Style.ofText s with
  | plain =>
    rw [hstyle] at spec
    obtain ⟨ambiguous, allowed⟩ := spec
    rw [List.append_assoc]
    exact startsToken_of_plainAllowed allowed (Style.ne_nil_of_not_isAmbiguous ambiguous) _
  | singleQuoted => exact quoted _ _ (by simp)
  | doubleQuoted => exact quoted _ _ (by simp)
  | literal => exact quoted _ _ (by simp)
  | folded =>
    rw [hstyle] at spec
    exact absurd spec id

theorem startsToken_members {key : String} (h : IsKey key) (cs : List Char) :
    StartsToken (key.toList ++ cs) := by
  obtain ⟨c, ds, hcs⟩ := List.exists_cons_of_ne_nil h.nonempty
  rw [hcs]
  exact startsToken_of_isAlphanum (h.word c (by simp [hcs])) _

/-- Nothing at the start of a node is skipped. -/
theorem startsToken_nodeText {t : Tree} (h : Writable t) (outer : Int) (column : Nat)
    (rest : List Char) : StartsToken (nodeText outer column t ++ rest) := by
  have starts (c : Char) (cs : List Char)
      (hc : isGap c = false ∧ c ≠ '#' ∧ c ≠ '\ufeff') : StartsToken (c :: cs ++ rest) := by
    rintro _ ⟨⟩
    exact hc
  cases h with
  | null => exact starts _ _ (by decide)
  | bool b => cases b <;> exact starts _ _ (by decide)
  | number nonempty plain =>
    rw [nodeText, List.append_assoc]
    exact startsToken_of_plainAllowed plain nonempty _
  | text s => exact startsToken_text _ s rest
  | @list items h =>
    cases items with
    | nil => exact starts '[' _ (by decide)
    | cons item items => exact starts '-' _ (by decide)
  | @record members keys h =>
    cases members with
    | nil => exact starts '\x7b' _ (by decide)
    | cons m members =>
      show StartsToken (writeMembers column ((m.1, m.2) :: members) ++ rest)
      rw [writeMembers, List.append_assoc]
      exact startsToken_members (keys m List.mem_cons_self) _

/-! ### Characters -/

section Characters

open TokenStream

/-- Whether all characters of a text may stand in a document. -/
def Allowed (cs : List Char) : Prop := ∀ c ∈ cs, isAllowed c = true

@[simp] theorem allowed_nil : Allowed [] := nofun

@[simp] theorem allowed_cons (c : Char) (cs : List Char) :
    Allowed (c :: cs) ↔ isAllowed c = true ∧ Allowed cs := List.forall_mem_cons

@[simp] theorem allowed_append (cs ds : List Char) :
    Allowed (cs ++ ds) ↔ Allowed cs ∧ Allowed ds := List.forall_mem_append

@[simp] theorem allowed_spaces (n : Nat) : Allowed (spaces n) := by
  intro c hc
  rw [List.eq_of_mem_replicate hc]
  rfl

@[simp] theorem allowed_margin (j k : Nat) : Allowed (margin j k) := by
  rw [margin, allowed_append]
  refine ⟨fun c hc => ?_, allowed_spaces k⟩
  rw [List.eq_of_mem_replicate hc]
  decide

theorem firstControl?_eq_none {cs : List Char} (h : Allowed cs) (n : Nat) :
    firstControl? cs n = none := by
  induction cs generalizing n with
  | nil => rfl
  | cons c cs ih =>
    rw [allowed_cons] at h
    rw [firstControl?, if_pos h.1, ih h.2]

theorem isAllowed_of_isPrintable {c : Char} (h : Style.isPrintable c = true) :
    isAllowed c = true := by
  simp only [Style.isPrintable, Bool.or_eq_true, Bool.and_eq_true, beq_iff_eq, decide_eq_true_eq,
    bne_iff_ne] at h
  simp only [isAllowed, Bool.or_eq_true, Bool.and_eq_true, beq_iff_eq, decide_eq_true_eq]
  omega

theorem allowed_literalLines (indent : Nat) (fresh : Bool) {cs : List Char} (h : Allowed cs) :
    Allowed (literalLines indent fresh cs) := by
  induction cs generalizing fresh with
  | nil => exact allowed_nil
  | cons c cs ih =>
    rw [allowed_cons] at h
    rw [literalLines]
    split
    · simp [h.1, ih true h.2]
    · split <;> simp [h.1, ih false h.2]

theorem allowed_singleQuotedBody (indent : Nat) (fresh : Bool) {cs : List Char} (h : Allowed cs) :
    Allowed (singleQuotedBody indent fresh cs) := by
  induction cs generalizing fresh with
  | nil => rw [singleQuotedBody]; split <;> simp
  | cons c cs ih =>
    rw [allowed_cons] at h
    rw [singleQuotedBody]
    split
    · simp [h.1, ih true h.2]
    · split <;> split <;> simp [h.1, ih false h.2, show isAllowed '\'' = true from rfl]

theorem allowed_codePoint (count : Nat) (c : Char) : Allowed (codePoint count c) := by
  intro d hd
  obtain ⟨e, he, rfl⟩ := List.mem_map.mp hd
  obtain ⟨n, hn, rfl⟩ := Text.exists_digitChar_of_mem_hexDigits he
  have : ∀ n < 16, isAllowed n.digitChar.toUpper = true := by decide
  exact this n hn

theorem allowed_doubleQuotedChar (c : Char) : Allowed (doubleQuotedChar c) := by
  rw [doubleQuotedChar]
  split
  · rename_i d hd
    obtain ⟨l, r, hl, -⟩ := List.lookup_eq_some_iff.mp hd
    have hmem : (c, d) ∈ l ++ (c, d) :: r := by simp
    rw [← hl] at hmem
    have : ∀ e ∈ [('\x00', '0'), ('\x07', 'a'), ('\x08', 'b'), ('\t', 't'), ('\n', 'n'),
      ('\x0b', 'v'), ('\x0c', 'f'), ('\r', 'r'), ('\x1b', 'e'), ('"', '"'), ('\\', '\\'),
      ('\u0085', 'N'), ('\u2028', 'L'), ('\u2029', 'P')], isAllowed e.2 = true := by decide
    have := this _ hmem
    simp [this]
    decide
  · split
    · rename_i h
      simp [isAllowed_of_isPrintable h]
    · split <;> (try split) <;> simp [allowed_codePoint] <;> decide

theorem allowed_text (indent : Nat) (s : String) : Allowed (text indent s) := by
  -- what the styles put around and into the text
  have ascii : Allowed ['\n', '\'', '"', '|', '-', '+', '2'] := List.all_eq_true.mp (by decide)
  simp only [allowed_cons] at ascii
  have printable {cs : List Char} (h : cs.all Style.isPrintable = true) : Allowed cs :=
    fun c hc => isAllowed_of_isPrintable (List.all_eq_true.mp h c hc)
  have spec := Style.ofText_spec s
  rw [text]
  cases hstyle : Style.ofText s with
  | plain =>
    rw [hstyle] at spec
    simp only [Style.plainAllowed, Bool.and_eq_true] at spec
    simp [printable spec.2.1.1.1.1, ascii]
  | singleQuoted =>
    rw [hstyle] at spec
    simp only [Style.singleAllowed, Bool.and_eq_true] at spec
    simp [allowed_singleQuotedBody _ _ (printable spec.2.1.1), ascii]
  | doubleQuoted =>
    have : Allowed (s.toList.flatMap doubleQuotedChar) := by
      intro c hc
      obtain ⟨d, -, hd⟩ := List.mem_flatMap.mp hc
      exact allowed_doubleQuotedChar d c hd
    simp [this, ascii]
  | literal =>
    rw [hstyle] at spec
    simp only [Style.literalAllowed, Bool.and_eq_true] at spec
    have hlines := allowed_literalLines indent true (printable spec.2.1.1)
    have hindicators : Allowed (literalIndicators s.toList) := by
      rw [literalIndicators_eq]
      cases chompingOf s.toList <;> split <;> simp [Chomping.written, ascii]
    have hclosing : Allowed (closingBreak s.toList) := by
      rw [closingBreak]
      split <;> simp [ascii]
    rw [closingBreak] at hclosing
    simp [literal, hlines, hindicators, hclosing, ascii]
  | folded =>
    rw [hstyle] at spec
    exact absurd spec id

theorem allowed_writeItems {items : List Tree} (indent : Nat)
    (h : ∀ t ∈ items, ∀ outer column, Allowed (nodeText outer column t)) :
    Allowed (writeItems indent items) := by
  have ascii : isAllowed '-' = true ∧ isAllowed ' ' = true := by decide
  induction items with
  | nil => exact allowed_nil
  | cons t items ih =>
    have ht := h t List.mem_cons_self indent (indent + 2)
    have ih := ih fun x hx => h x (List.mem_cons_of_mem t hx)
    rw [writeItems, write_afterHyphen]
    split <;> simp [ascii, ht, ih]

theorem allowed_writeMembers {members : List (String × Tree)} (indent : Nat)
    (keys : ∀ m ∈ members, IsKey m.1)
    (h : ∀ m ∈ members, ∀ outer column, Allowed (nodeText outer column m.2)) :
    Allowed (writeMembers indent members) := by
  have ascii : isAllowed ':' = true ∧ isAllowed ' ' = true ∧ isAllowed '\n' = true := by decide
  induction members with
  | nil => exact allowed_nil
  | cons m members ih =>
    obtain ⟨key, t⟩ := m
    have hkey : Allowed key.toList :=
      fun c hc =>
        isAllowed_of_isPrintable (isPrintable_of_isAlphanum ((keys _ List.mem_cons_self).word c hc))
    have ht := h (key, t) List.mem_cons_self
    have ih := ih (fun x hx => keys x (List.mem_cons_of_mem _ hx))
      fun x hx => h x (List.mem_cons_of_mem _ hx)
    have hvalue : Allowed (write .afterKey indent t) := by
      obtain ⟨-, hwrite⟩ | ⟨-, column, -, hwrite⟩ := write_afterKey indent t
      · rw [hwrite 0]
        simp [ascii, ht]
      · rw [hwrite]
        simp [ascii, ht]
    rw [writeMembers]
    split <;> simp [hkey, hvalue, ascii, ih]

theorem allowed_nodeText {t : Tree} (h : Writable t) (outer : Int) (column : Nat) :
    Allowed (nodeText outer column t) := by
  have newline : isAllowed '\n' = true := by decide
  induction h generalizing outer column with
  | null =>
    simp [nodeText]
    decide
  | bool b => cases b <;> simp [nodeText] <;> decide
  | number nonempty plain =>
    simp only [Style.plainAllowed, Bool.and_eq_true, List.all_eq_true] at plain
    rw [nodeText, allowed_append]
    exact ⟨fun c hc => isAllowed_of_isPrintable (plain.1.1.1.1 c hc), by simp [newline]⟩
  | text s => exact allowed_text _ s
  | @list items h ih =>
    rw [nodeText]
    split
    · simp [brackets, newline]
      decide
    · exact allowed_writeItems column fun t ht outer column => ih t ht outer column
  | @record members keys h ih =>
    rw [nodeText]
    split
    · simp [brackets, newline]
      decide
    · exact allowed_writeMembers column keys fun m hm outer column => ih m hm outer column

end Characters

end ApiSurface.Yaml
