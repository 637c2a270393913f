/-
The tokens of a written tree.

The proof follows the tree. A hyphen or a key opens the block it belongs to, unless that block is
open, and leads to the node after it; a node leads to the next token, where the blocks that were
opened inside it have ended.

* `Ready.reaches_item`, `Ready.reaches_member` — a hyphen, or a key with its colon;
* `Ready.arrives_items`, `Ready.arrives_members` — a whole block;
* `passesNode` — a node of a writable tree;
* `TokenStream.ofText_write` — the tokens of a written document.
-/
import ApiSurface.Proofs.Yaml.Written

namespace ApiSurface.Yaml

theorem Progress.opened_indent {p : Progress} {column : Nat} (h : p.indent ≤ column)
    (kind : TokenKind) : (p.opened column kind).indent = column := by
  rw [Progress.opened]
  split
  · rename_i hle
    exact Int.le_antisymm h hle
  · rfl

namespace Tokenizer

variable {s : Tokenizer} {p : Progress} {rest : List Char} {column : Nat}

/-! ### Items -/

theorem Ready.openBlock (h : s.Ready p rest column) (kind : TokenKind) (m : Mark) :
    (s.openBlock column none kind m).Ready (p.opened column kind) rest column := by
  rw [Tokenizer.openBlock, h.inFlow, Bool.false_or, Progress.opened, h.indent]
  by_cases hle : Int.ofNat column ≤ p.indent
  · rw [if_pos (decide_eq_true hle), if_pos hle]
    exact h
  · rw [if_neg (by simpa using hle), if_neg hle]
    refine ⟨?_, h.rest, h.column, h.candidates⟩
    rw [← h.progress]
    simp [push, Tokenizer.progress]

theorem token_hyphen {cs : List Char} (hs : s.cursor.rest = '-' :: ' ' :: cs) :
    s.token = s.blockEntry := by
  simp [token, hs, Cursor.startsMarker, isGapOrEnd, isGap, isBlank]

/-- From a hyphen to its item. -/
theorem Ready.reaches_item (hs : s.Ready p ('-' :: ' ' :: rest) column)
    (keyAllowed : s.keyAllowed = true) (hle : p.indent ≤ column) (start : StartsToken rest) :
    ∃ t, Reaches s t ∧
      t.Ready ((p.opened column .blockSequenceStart).add [.blockEntry]) rest (column + 2) ∧
        t.keyAllowed = true := by
  have hopen := hs.openBlock .blockSequenceStart s.mark
  generalize hu : s.openBlock column none .blockSequenceStart s.mark = u at hopen
  -- The state after the hyphen, and the state at the item.
  let r : Tokenizer := { u with
    keyAllowed := true, cursor := ⟨' ' :: rest, u.mark.past '-'⟩ }.push .blockEntry u.mark
      (u.mark.past '-')
  have htoken : s.token = .ok r := by
    rw [token_hyphen hs.rest, blockEntry, hs.inFlow, keyAllowed, hs.column, hu, hopen.dropCandidate]
    exact congrArg Except.ok (take_one (by exact hopen.rest) .blockEntry)
  have hcandidates : r.candidates = [none] := hopen.candidates
  have hprogress : r.progress = (p.opened column .blockSequenceStart).add [.blockEntry] := by
    rw [← hopen.progress]
    exact progress_push ..
  have hcolumn : ((u.mark.past '-').past ' ').column = column + 2 := by
    rw [← hopen.column]
    rfl
  -- The item is indented more than its block, which stays open.
  have hindent : r.indent ≤ (column + 2 : Nat) := by
    have : r.indent = column := hopen.indent.trans (Progress.opened_indent hle _)
    omega
  have hprepare := prepare_spaces (s := r) (j := 1) rfl start (by simp [hcandidates])
  have hclose : Tokenizer.closeBlocks { r with cursor := ⟨rest, (u.mark.past '-').past ' '⟩ }
      ((u.mark.past '-').past ' ').column =
        { r with cursor := ⟨rest, (u.mark.past '-').past ' '⟩ } :=
    closeBlocks_of_le (by rw [hcolumn]; exact hindent)
  refine ⟨_, .of_token htoken (dropStale_eq (by simp [hcandidates])) rfl (by simp)
    (hprepare.trans (congrArg _ hclose)) ?_, ⟨hprogress, rfl, hcolumn, hcandidates⟩, rfl⟩
  rw [hs.rest]
  show rest.length < rest.length + 2
  omega

/-! ### Members -/

/-- A candidate before the last token turns out to be a key. -/
theorem progress_insertKey {w : Tokenizer} (block : w.inFlow = false) (column : Nat)
    (kind : TokenKind) (start stop m : Mark) :
    (((w.push kind start stop).insert w.count .key m).openBlock column (some w.count)
      .blockMappingStart m).progress =
        (w.progress.opened column .blockMappingStart).add [.key, kind] := by
  have hflow : ((w.push kind start stop).insert w.count .key m).inFlow = false := block
  have hindent : ((w.push kind start stop).insert w.count .key m).indent = w.progress.indent := rfl
  rw [openBlock, hflow, Bool.false_or, hindent, Progress.opened]
  by_cases hle : Int.ofNat column ≤ w.progress.indent
  · rw [if_pos (decide_eq_true hle), if_pos hle]
    simp [progress, insert, push, Progress.add]
  · rw [if_neg (by simpa using hle), if_neg hle]
    simp [progress, insert, push, Progress.add, Nat.add_assoc]

theorem openBlock_frame (s : Tokenizer) (column : Nat) (number : Option Nat) (kind : TokenKind)
    (m : Mark) :
    (s.openBlock column number kind m).cursor = s.cursor ∧
      (s.openBlock column number kind m).candidates = s.candidates := by
  rw [openBlock]
  split
  · exact ⟨rfl, rfl⟩
  · cases number <;> exact ⟨rfl, rfl⟩

theorem token_colon {d : Char} {cs : List Char} (hs : s.cursor.rest = ':' :: d :: cs)
    (hd : isGap d = true) : s.token = s.value := by
  simp [token, hs, Cursor.startsMarker, isGapOrEnd, hd]

/-- Whether the colon of a key comes next, after the token of the key: it is a candidate, and the
colon is on its line. -/
structure AtColon (w : Tokenizer) (p : Progress) (start : Mark) (rest : List Char) : Prop where
  progress : w.progress = p
  rest : w.cursor.rest = ':' :: rest
  line : w.mark.line = start.line
  beyond : start.column < w.mark.column
  near : w.mark.index ≤ start.index + longestKey
  candidate : ∃ required, w.candidates = [some ⟨required, w.count, start⟩]

/-- From a key to its colon. -/
theorem Ready.reaches_key {key : String} (h : IsKey key) {d : Char} {cs : List Char}
    (hd : isGap d = true) (hs : s.Ready p (key.toList ++ ':' :: d :: cs) column)
    (keyAllowed : s.keyAllowed = true) (hle : p.indent ≤ column) :
    ∃ w stop, AtColon w p s.mark (d :: cs) ∧
      Reaches s (w.push (.scalar key .plain) s.mark stop) := by
  obtain ⟨x, xs, hx⟩ := List.exists_cons_of_ne_nil h.nonempty
  have hline : ∀ c ∈ key.toList, isBreak c = false :=
    fun c hc => isBreak_of_not_isGap (isGap_of_isAlphanum (h.word c hc))
  obtain ⟨q, hq, htext, -⟩ :=
    Lexer.plainScalar_key h.nonempty h.word hd (s.indent + 1).toNat cs s.mark
  have hindex := s.mark.index_through_le key.toList
  have hshort := h.short
  have hcolumn := Mark.column_through hline s.mark
  have hmark := Mark.line_through hline s.mark
  have hlength : 0 < key.toList.length := List.length_pos_iff.mpr h.nonempty
  have hkey : String.ofList q.text = key := by rw [htext, String.ofList_toList]
  generalize s.mark.through key.toList = m at hq hindex hcolumn hmark
  let c : Candidate := ⟨s.indent == Int.ofNat s.mark.column, s.count, s.mark⟩
  let w : Tokenizer := { s with
    candidates := [some c], keyAllowed := q.broken, cursor := ⟨':' :: d :: cs, m⟩ }
  let t := w.push (.scalar key .plain) s.mark q.stop
  have atColon : AtColon w p s.mark (d :: cs) :=
    ⟨hs.progress, rfl, hmark, by show _ < m.column; omega, by show m.index ≤ _; omega, _, rfl⟩
  have htoken : s.token = .ok t := by
    have hrest := hs.rest
    rw [hx, List.cons_append] at hrest
    have hword := h.word x (by simp [hx])
    rw [token_plain hrest hs.inFlow (isGap_of_isAlphanum hword) (startsLikeOther_word hword _),
      plainScalar, hs.saveCandidate_key keyAllowed]
    have hlex := lex_ok (s := { s with candidates := [some c] }) hs.cursor hq
    show lex _ _ >>= _ = _
    refine (congrArg (· >>= _) hlex).trans ?_
    show Except.ok (w.push (.scalar (String.ofList q.text) .plain) s.mark q.stop) = _
    rw [hkey]
  -- The candidate is neither stale nor out of its block when the colon is reached.
  have near : ∀ b, some b ∈ t.candidates → b.mark.line = m.line ∧
      m.index ≤ b.mark.index + longestKey := by
    intro b hb
    obtain rfl : b = c := by simpa [t, w, push] using hb
    exact ⟨atColon.line.symm, atColon.near⟩
  have hstale : t.dropStale = .ok t :=
    dropStale_eq fun b hb => isStale_of_near (Nat.le_of_eq (near b hb).1.symm) (near b hb).2
  have hprepare : t.prepare = .ok t := by
    have hcolumn' := hs.column
    have hclose : t.closeBlocks m.column = t :=
      closeBlocks_of_le (by show s.indent ≤ m.column; rw [hs.indent]; omega)
    have hcolon : StartsToken (':' :: d :: cs) := by
      rintro _ ⟨⟩
      decide
    exact (prepare_spaces (s := t) (j := 0) rfl hcolon near).trans (congrArg _ hclose)
  refine ⟨w, q.stop, atColon, .of_token htoken hstale rfl (by simp) hprepare ?_⟩
  rw [hs.rest]
  show (':' :: d :: cs).length < (key.toList ++ ':' :: d :: cs).length
  rw [List.length_append]
  omega

/-- The colon puts the token of the key where the key starts, and opens the block of the key. -/
theorem AtColon.token {w : Tokenizer} {start : Mark} {d : Char} {cs : List Char}
    (h : AtColon w p start (d :: cs)) (hd : isGap d = true) (kind : TokenKind) (stop : Mark) :
    ∃ r : Tokenizer, r.cursor.rest = d :: cs ∧ start.column < r.mark.column ∧
      r.candidates = [none] ∧
      r.progress = (p.opened start.column .blockMappingStart).add [.key, kind, .value] ∧
      ∃ tokens, (w.push kind start stop).token = .ok r ∧
        r.tokens = ⟨.value, w.mark, r.mark⟩ :: tokens := by
  obtain ⟨required, hcandidate⟩ := h.candidate
  have hflow : w.inFlow = false := by simp [inFlow, hcandidate]
  let t := w.push kind start stop
  let u := (t.insert w.count .key start).openBlock start.column (some w.count) .blockMappingStart
    start
  obtain ⟨hcursor, hcandidates⟩ := openBlock_frame (t.insert w.count .key start) start.column
    (some w.count) .blockMappingStart start
  have hprogress : u.progress = (p.opened start.column .blockMappingStart).add [.key, kind] := by
    rw [← h.progress]
    exact progress_insertKey hflow start.column _ _ _ _
  have hrest : u.cursor.rest = ':' :: d :: cs := (congrArg Cursor.rest hcursor).trans h.rest
  have hmark : u.mark = w.mark := congrArg Cursor.mark hcursor
  let r : Tokenizer := { u.setCandidate none with
    keyAllowed := false, cursor := ⟨d :: cs, w.mark.past ':'⟩ }.push .value w.mark (w.mark.past ':')
  -- The remembered place of the key is where its tokens go.
  have htoken : t.token = .ok r := by
    have hcand : t.candidate? = some ⟨required, w.count, start⟩ := by
      show w.candidates.head?.join = _
      rw [hcandidate]
      rfl
    have hcolon : t.token = t.value := token_colon h.rest hd
    rw [hcolon, value, hcand]
    have htake := @take_one { u.setCandidate none with keyAllowed := false } ':' (d :: cs) hrest
      .value
    refine congrArg Except.ok (htake.trans ?_)
    simp only [r, ← hmark]
    rfl
  refine ⟨r, rfl, ?_, ?_, ?_, u.tokens, htoken, rfl⟩
  · have := h.beyond
    show start.column < w.mark.column + 1
    omega
  · show none :: u.candidates.tail = [none]
    rw [hcandidates]
    show none :: w.candidates.tail = [none]
    rw [hcandidate]
    rfl
  · show (u.push .value w.mark (w.mark.past ':')).progress = _
    rw [progress_push, hprogress, Progress.add_add]
    rfl

/-- From a key over its colon. -/
theorem Ready.reaches_colon {key : String} (h : IsKey key) {d : Char} {cs : List Char}
    (hd : isGap d = true) (hs : s.Ready p (key.toList ++ ':' :: d :: cs) column)
    (keyAllowed : s.keyAllowed = true) (hle : p.indent ≤ column) :
    ∃ r : Tokenizer, r.cursor.rest = d :: cs ∧ column < r.mark.column ∧ r.candidates = [none] ∧
      r.progress =
        (p.opened column .blockMappingStart).add [.key, .scalar key .plain, .value] ∧
      ∀ t, r.prepare = .ok t → t.cursor.rest.length ≤ cs.length → Reaches s t := by
  obtain ⟨w, stop, atColon, hkey⟩ := hs.reaches_key h hd keyAllowed hle
  obtain ⟨r, hrest, hcolumn, hnone, hprogress, tokens, htoken, htokens⟩ :=
    atColon.token hd (.scalar key .plain) stop
  rw [hs.column] at hcolumn hprogress
  refine ⟨r, hrest, hcolumn, hnone, hprogress, fun t ht hlen => hkey.trans ?_⟩
  refine .of_token htoken (dropStale_eq (by simp [hnone])) htokens (by simp) ht ?_
  show t.cursor.rest.length < w.cursor.rest.length
  rw [atColon.rest]
  exact Nat.lt_succ_of_le (Nat.le_succ_of_le hlen)

theorem opensSequence_of_not_opensBlock {t : Tree} (h : opensBlock t = false) :
    opensSequence t = false := by
  cases t with
  | list items => exact h
  | _ => rfl

theorem indent_eq_of_progress {r : Tokenizer} {kind : TokenKind} {ks : List TokenKind}
    (hle : p.indent ≤ column) (h : r.progress = (p.opened column kind).add ks) :
    r.indent = column := by
  have : r.indent = r.progress.indent := rfl
  rw [this, h, Progress.add_indent, Progress.opened_indent hle]

/-- From a key to its value: on the same line, or on the next one if it is a block. -/
theorem Ready.reaches_member {key : String} (h : IsKey key) {t : Tree} (ht : Writable t)
    (hs : s.Ready p (key.toList ++ ':' :: (write .afterKey column t ++ rest)) column)
    (keyAllowed : s.keyAllowed = true) (hle : p.indent ≤ column) :
    ∃ s' column', Reaches s s' ∧
      s'.Ready ((p.opened column .blockMappingStart).add [.key, .scalar key .plain, .value])
        (nodeText column column' t ++ rest) column' ∧
      (opensBlock t = true → s'.keyAllowed = true) ∧
        if opensSequence t then column' = column else column < column' := by
  obtain ⟨hblock, hwrite⟩ | ⟨hblock, column', hcolumn, hwrite⟩ := write_afterKey column t
  -- The value goes on with the line of the key, at whatever column that is.
  · have hnode := startsToken_nodeText ht column 0 rest
    have hsame (column' : Nat) : nodeText column 0 t = nodeText column column' t :=
      (List.cons.inj ((hwrite 0).symm.trans (hwrite column'))).2
    rw [hwrite 0, List.cons_append] at hs
    obtain ⟨r, hrest, hcol, hnone, hprogress, hreaches⟩ :=
      Ready.reaches_colon h (by decide) hs keyAllowed hle
    have hcursor : r.cursor = ⟨spaces 1 ++ (nodeText column 0 t ++ rest), r.mark⟩ := by
      show _ = Cursor.mk (' ' :: (nodeText column 0 t ++ rest)) r.mark
      rw [← hrest]
      rfl
    have hindent := indent_eq_of_progress hle hprogress
    have hprepare := prepare_spaces hcursor hnode (by simp [hnone])
    have hcolumn : (r.mark.through (spaces 1)).column = r.mark.column + 1 := rfl
    rw [closeBlocks_of_le (by rw [hcolumn]; show r.indent ≤ _; omega)] at hprepare
    refine ⟨_, r.mark.column + 1, hreaches _ hprepare (Nat.le_refl _), ⟨hprogress, ?_, rfl, hnone⟩,
      by simp [hblock], ?_⟩
    · exact congrArg (· ++ rest) (hsame _)
    · rw [if_neg (by simp [opensSequence_of_not_opensBlock hblock])]
      omega
  -- The value stands on the next line; a sequence may stand at the column of the key.
  · have hnode := startsToken_nodeText ht column column' rest
    rw [hwrite, List.cons_append] at hs
    obtain ⟨r, hrest, hcol, hnone, hprogress, hreaches⟩ :=
      Ready.reaches_colon h (by decide) hs keyAllowed hle
    have hcursor : r.cursor = ⟨'\n' :: (spaces column' ++ (nodeText column column' t ++ rest)),
        r.mark⟩ := by
      rw [← List.append_assoc, ← hrest]
      rfl
    have hindent := indent_eq_of_progress hle hprogress
    have hle' : column ≤ column' := by
      rw [hcolumn]
      split <;> omega
    have hprepare := prepare_line (j := 0) (k := column') hcursor hnode hnone (by simp) (by simp)
    rw [closeBlocks_of_le (by show r.indent ≤ _; omega)] at hprepare
    have hlen : (nodeText column column' t ++ rest).length ≤
        (spaces column' ++ nodeText column column' t ++ rest).length := by simp
    refine ⟨_, column', hreaches _ hprepare hlen, ⟨hprogress, rfl, ?_, rfl⟩, fun _ => rfl, ?_⟩
    · exact Mark.column_through_spaces (by rfl) r.mark column'
    · rw [hcolumn]
      split
      · rfl
      · omega

/-! ### Nodes -/

/-- Whether a node leads to the next token, wherever it stands. -/
def PassesNode (t : Tree) : Prop :=
  ∀ ⦃s : Tokenizer⦄ ⦃p : Progress⦄ ⦃column : Nat⦄ (j k : Nat) ⦃tail : List Char⦄ (flush : Bool),
    (KeepsEnd t → j = 0) →
    s.Ready p (nodeText p.indent column t ++ (margin j k ++ tail)) column →
    (opensBlock t = true → s.keyAllowed = true) →
    (if flush && opensSequence t then p.indent = column else p.indent < column) →
    k ≤ p.indent → StartsToken tail → s.Arrives ((p.add (kinds flush t)).close k) tail k

section Blocks

variable {j k : Nat} {tail : List Char}

/-- The items of a sequence, whose block may be open or not. -/
theorem Ready.arrives_items {items : List Tree} (nonempty : items ≠ [])
    (h : ∀ t ∈ items, Writable t ∧ PassesNode t) (hj : KeepsEnd (.list items) → j = 0)
    (hs : s.Ready p (writeItems column items ++ (margin j k ++ tail)) column)
    (keyAllowed : s.keyAllowed = true) (hle : p.indent ≤ column) (hk : k ≤ column)
    (hstart : StartsToken tail) :
    s.Arrives (((p.opened column .blockSequenceStart).add (itemKinds items)).close k) tail k := by
  -- Opening a block that is open changes nothing, so the first item is like the others.
  induction items generalizing s p with
  | nil => exact absurd rfl nonempty
  | cons t rest ih =>
    obtain ⟨hwritable, hpasses⟩ := h t List.mem_cons_self
    have hindent := Progress.opened_indent hle .blockSequenceStart
    rw [writeItems, write_afterHyphen] at hs
    simp only [List.cons_append, List.append_assoc] at hs
    obtain ⟨u, hreaches, hu, hkey⟩ := hs.reaches_item keyAllowed hle
      (startsToken_nodeText hwritable _ _ _)
    refine hreaches.arrives ?_
    generalize p.opened column .blockSequenceStart = q at hindent hu ⊢
    have hq : (q.add [.blockEntry]).indent = column := hindent
    have hdeeper : if false && opensSequence t then
          (q.add [.blockEntry]).indent = (column + 2 : Nat)
        else (q.add [.blockEntry]).indent < (column + 2 : Nat) := by
      rw [Bool.false_and, if_neg Bool.false_ne_true, hq]
      omega
    cases rest with
    | nil =>
      simp only [List.isEmpty_nil, if_true, List.nil_append] at hu
      rw [← hq] at hu
      have := hpasses j k false hj hu (fun _ => hkey) hdeeper (by omega) hstart
      simpa [itemKinds] using this
    | cons t' rest =>
      simp only [List.isEmpty_cons, Bool.false_eq_true, if_false, List.append_assoc] at hu
      rw [← hq] at hu
      have hnext : StartsToken (writeItems column (t' :: rest) ++ (margin j k ++ tail)) := by
        rintro _ ⟨⟩
        decide
      -- The next hyphen stands at the column of the block, which stays open.
      obtain ⟨v, hv, hready, hkey'⟩ :=
        hpasses 0 column false (fun _ => rfl) hu (fun _ => hkey) hdeeper (Int.le_of_eq hq.symm)
          hnext
      have hopen : ((q.add [.blockEntry]).add (kinds false t)).indent = column := hindent
      rw [Progress.close_of_le (Int.le_of_eq hopen)] at hready
      have := ih (by simp) (fun x hx => h x (List.mem_cons_of_mem t hx)) hj hready hkey'
        (Int.le_of_eq hopen)
      rw [Progress.opened_of_le (Int.le_of_eq hopen.symm)] at this
      refine hv.arrives ?_
      simpa [itemKinds] using this

/-- The members of a mapping, whose block may be open or not. -/
theorem Ready.arrives_members {members : List (String × Tree)} (nonempty : members ≠ [])
    (keys : ∀ m ∈ members, IsKey m.1) (h : ∀ m ∈ members, Writable m.2 ∧ PassesNode m.2)
    (hj : KeepsEnd (.record members) → j = 0)
    (hs : s.Ready p (writeMembers column members ++ (margin j k ++ tail)) column)
    (keyAllowed : s.keyAllowed = true) (hle : p.indent ≤ column) (hk : k ≤ column)
    (hstart : StartsToken tail) :
    s.Arrives (((p.opened column .blockMappingStart).add (memberKinds members)).close k) tail
      k := by
  induction members generalizing s p with
  | nil => exact absurd rfl nonempty
  | cons m rest ih =>
    obtain ⟨key, t⟩ := m
    obtain ⟨hwritable, hpasses⟩ := h (key, t) List.mem_cons_self
    have hindent := Progress.opened_indent hle .blockMappingStart
    rw [writeMembers] at hs
    simp only [List.cons_append, List.append_assoc] at hs
    obtain ⟨u, column', hreaches, hu, hkey, hcolumn⟩ :=
      Ready.reaches_member (keys _ List.mem_cons_self) hwritable hs keyAllowed hle
    refine hreaches.arrives ?_
    generalize p.opened column .blockMappingStart = q at hindent hu ⊢
    have hq : (q.add [.key, .scalar key .plain, .value]).indent = column := hindent
    have hvalue : if true && opensSequence t then
          (q.add [.key, .scalar key .plain, .value]).indent = column'
        else (q.add [.key, .scalar key .plain, .value]).indent < column' := by
      rw [Bool.true_and, hq]
      split at hcolumn
      · rw [if_pos ‹_›, hcolumn]
      · rw [if_neg ‹_›]
        omega
    cases rest with
    | nil =>
      simp only [List.isEmpty_nil, if_true, List.nil_append] at hu
      rw [← hq] at hu
      have := hpasses j k true hj hu hkey hvalue (by omega) hstart
      simpa [memberKinds] using this
    | cons m' rest =>
      simp only [List.isEmpty_cons, Bool.false_eq_true, if_false, List.append_assoc] at hu
      rw [← hq] at hu
      have hnext : StartsToken (writeMembers column (m' :: rest) ++ (margin j k ++ tail)) := by
        rw [writeMembers, List.append_assoc]
        exact startsToken_members (keys m' (by simp)) _
      -- The next key stands at the column of the block, which stays open.
      obtain ⟨v, hv, hready, hkey'⟩ :=
        hpasses 0 column true (fun _ => rfl) hu hkey hvalue (Int.le_of_eq hq.symm) hnext
      have hopen :
          ((q.add [.key, .scalar key .plain, .value]).add (kinds true t)).indent = column := hindent
      rw [Progress.close_of_le (Int.le_of_eq hopen)] at hready
      have := ih (by simp) (fun x hx => keys x (List.mem_cons_of_mem _ hx))
        (fun x hx => h x (List.mem_cons_of_mem _ hx)) hj hready hkey' (Int.le_of_eq hopen)
      rw [Progress.opened_of_le (Int.le_of_eq hopen.symm)] at this
      refine hv.arrives ?_
      simpa [memberKinds] using this

end Blocks

/-- A node that opens no block, at the top or inside a collection. -/
theorem Ready.arrives_leaf {t : Tree} {j k : Nat} {tail : List Char} (h : Writable t)
    (leaf : opensBlock t = false) (flush : Bool) (hj : KeepsEnd t → j = 0)
    (hs : s.Ready p (nodeText p.indent column t ++ (margin j k ++ tail)) column)
    (hi : p.indent < column) (hk : k ≤ p.indent ∨ k = 0 ∧ tail = []) (hstart : StartsToken tail) :
    s.Arrives ((p.add (kinds flush t)).close k) tail k := by
  -- What is written for values other than texts and numbers is a word.
  have word (cs : List Char) (hw : cs.all Char.isAlphanum = true)
      (nonempty : cs ≠ []) (hs : s.Ready p (cs ++ '\n' :: (margin j k ++ tail)) column) :
      s.Arrives ((p.add [.scalar (String.ofList cs) .plain]).close k) tail k := by
    obtain ⟨c, ds, rfl⟩ := List.exists_cons_of_ne_nil nonempty
    have hw := List.all_eq_true.mp hw
    have allowed := plainAllowed_word (fun d hd => .inl (hw d hd))
      (startsLikeOther_word (hw c List.mem_cons_self) ds)
    exact hs.arrives_plain allowed nonempty hi (hk.imp_right And.right) hstart
  cases h with
  | null => exact word ['n', 'u', 'l', 'l'] (by decide) (by simp) hs
  | bool b =>
    cases b with
    | true => exact word ['t', 'r', 'u', 'e'] (by decide) (by simp) hs
    | false => exact word ['f', 'a', 'l', 's', 'e'] (by decide) (by simp) hs
  | number nonempty plain =>
    rw [nodeText, List.append_assoc] at hs
    exact hs.arrives_plain plain nonempty hi (hk.imp_right And.right) hstart
  | text t => exact Ready.arrives_text (fun keeps => hj ⟨t, rfl, keeps⟩) hs hi hk hstart
  | @list items h =>
    obtain rfl : items = [] := by simpa [opensBlock] using leaf
    exact Ready.arrives_empty true (by simpa [nodeText] using hs) hi hstart
  | @record members keys h =>
    obtain rfl : members = [] := by simpa [opensBlock] using leaf
    exact Ready.arrives_empty false (by simpa [nodeText] using hs) hi hstart

theorem passesNode_leaf {t : Tree} (h : Writable t) (leaf : opensBlock t = false) :
    PassesNode t := by
  intro s p column j k tail flush hj hs _ hi hk hstart
  rw [opensSequence_of_not_opensBlock leaf, Bool.and_false, if_neg Bool.false_ne_true] at hi
  exact Ready.arrives_leaf h leaf flush hj hs hi (.inl hk) hstart

/-- A node of a writable tree leads to the next token. -/
theorem passesNode {t : Tree} (h : Writable t) : PassesNode t := by
  induction h with
  | null => exact passesNode_leaf .null rfl
  | bool b => exact passesNode_leaf (.bool b) rfl
  | number nonempty plain => exact passesNode_leaf (.number nonempty plain) rfl
  | text t => exact passesNode_leaf (.text t) rfl
  | @list items h ih =>
    have hitems : ∀ t ∈ items, Writable t ∧ PassesNode t := fun t ht => ⟨h t ht, ih t ht⟩
    cases items with
    | nil => exact passesNode_leaf (.list h) rfl
    | cons t rest =>
      intro s p column j k tail flush hj hs hkey hi hk hstart
      have hne : t :: rest ≠ [] := by simp
      have hkey := hkey rfl
      rw [opensSequence, List.isEmpty_cons, Bool.not_false, Bool.and_true] at hi
      cases flush with
      -- The block of the mapping holds the items too.
      | true =>
        rw [if_pos rfl] at hi
        have := Ready.arrives_items hne hitems hj hs hkey (by omega) (by omega) hstart
        rw [Progress.opened_of_le (Int.le_of_eq hi.symm)] at this
        exact this
      | false =>
        rw [if_neg Bool.false_ne_true] at hi
        have hlt : (k : Int) < column := by omega
        have := Ready.arrives_items hne hitems hj hs hkey (by omega) (by omega) hstart
        rw [Progress.opened_of_lt hi, Progress.add, Progress.close_cons hlt] at this
        simpa [kinds, Progress.add, Progress.close] using this
  | @record members keys h ih =>
    have hmembers : ∀ m ∈ members, Writable m.2 ∧ PassesNode m.2 :=
      fun m hm => ⟨h m hm, ih m hm⟩
    cases members with
    | nil => exact passesNode_leaf (.record keys h) rfl
    | cons m rest =>
      intro s p column j k tail flush hj hs hkey hi hk hstart
      replace hi : p.indent < column := by simpa [opensSequence] using hi
      have hne : m :: rest ≠ [] := by simp
      have hlt : (k : Int) < column := by omega
      have := Ready.arrives_members hne keys hmembers hj hs (hkey rfl) (by omega) (by omega) hstart
      rw [Progress.opened_of_lt hi, Progress.add, Progress.close_cons hlt] at this
      simpa [kinds, Progress.add, Progress.close] using this

/-! ### Documents -/

/-- A writable tree leads to the end of its document, where its blocks are still to be closed. -/
theorem Ready.arrives_document {t : Tree} (h : Writable t) {j : Nat} (hj : KeepsEnd t → j = 0)
    {before : List TokenKind} (hs : s.Ready ⟨before, -1, []⟩ (write .top 0 t ++ margin j 0) 0)
    (keyAllowed : s.keyAllowed = true) :
    ∃ q, s.Arrives q [] 0 ∧ q.close (-1) = ⟨before ++ kinds false t, -1, []⟩ := by
  have hend : StartsToken [] := nofun
  have hout : (-1 : Int) < (0 : Nat) := by decide
  have hclose (first ks : List TokenKind) :
      (((⟨first, (0 : Nat), [-1]⟩ : Progress).add ks).close (0 : Nat)).close (-1) =
        ⟨first ++ ks ++ [.blockEnd], -1, []⟩ := rfl
  rw [write_top, ← List.append_nil (margin j 0)] at hs
  -- `passesNode` does not apply: nothing is around the node, and nothing follows it.
  cases hleaf : opensBlock t with
  | false =>
    exact ⟨_, Ready.arrives_leaf h hleaf false hj hs hout (.inr ⟨rfl, rfl⟩) hend, rfl⟩
  | true =>
    cases h with
    | @list items h =>
      cases items with
      | nil => exact absurd hleaf (by simp [opensBlock])
      | cons t rest =>
        have := Ready.arrives_items (by simp) (fun x hx => ⟨h x hx, passesNode (h x hx)⟩) hj hs
          keyAllowed (Int.le_of_lt hout) (Nat.le_refl 0) hend
        refine ⟨_, this, ?_⟩
        rw [Progress.opened_of_lt hout, hclose]
        simp [kinds]
    | @record members keys h =>
      cases members with
      | nil => exact absurd hleaf (by simp [opensBlock])
      | cons m rest =>
        have := Ready.arrives_members (by simp) keys
          (fun x hx => ⟨h x hx, passesNode (h x hx)⟩) hj hs keyAllowed (Int.le_of_lt hout)
          (Nat.le_refl 0) hend
        refine ⟨_, this, ?_⟩
        rw [Progress.opened_of_lt hout, hclose]
        simp [kinds]
    | _ => exact absurd hleaf (by simp [opensBlock])

theorem token_end (h : s.cursor.rest = []) : s.token = s.finish := by
  simp [token, h]

/-- At the end of the text the blocks are closed. -/
theorem Ready.read_end (hs : s.Ready p [] 0) {r : Tokenizer} (hr : r.prepare = .ok s)
    (fuel : Nat) :
    ∃ tokens, TokenStream.read (fuel + 1) r = ⟨tokens, none⟩ ∧
      tokens.map (·.kind) = (p.close (-1)).kinds ++ [.streamEnd] := by
  have hready := hs.closeBlocks (-1)
  -- The last line has ended, so no other one is begun.
  have hmark : (if s.mark.column = 0 then s.mark
      else { s.mark with line := s.mark.line + 1, column := 0 }) = s.mark := if_pos hs.column
  have htoken : s.token = .ok ({ s.closeBlocks (-1) with
      keyAllowed := false }.push .streamEnd s.mark s.mark) := by
    rw [token_end hs.rest, finish]
    simp only [hmark]
    show ((s.closeBlocks (-1)).dropCandidate >>= _) = _
    rw [hready.dropCandidate]
    rfl
  have hnext : r.next = .ok ({ s.closeBlocks (-1) with
      keyAllowed := false }.push .streamEnd s.mark s.mark) := by
    rw [next_eq, hr]
    show s.token >>= dropStale = _
    rw [htoken]
    refine dropStale_eq fun c hc => ?_
    have : some c ∈ (s.closeBlocks (-1)).candidates := hc
    simp [hready.candidates] at this
  refine ⟨({ s.closeBlocks (-1) with
      keyAllowed := false }.push .streamEnd s.mark s.mark).tokens.reverse, ?_, ?_⟩
  · rw [TokenStream.read, hnext]
    rfl
  · have hprogress := congrArg Progress.kinds hready.progress
    rw [← hprogress]
    simp [push, Tokenizer.progress]

end Tokenizer

/-- The tokens of a text that leads to its end. -/
theorem TokenStream.ofText_of_arrives {cs : List Char} (start : StartsToken cs) (allowed : Allowed cs)
    {kinds : List TokenKind}
    (arrives : ∀ s : Tokenizer, s.Ready ⟨[.streamStart], -1, []⟩ cs 0 → s.keyAllowed = true →
      ∃ q, s.Arrives q [] 0 ∧ q.close (-1) = ⟨.streamStart :: kinds, -1, []⟩) :
    ∃ tokens, ofText cs = ⟨tokens, none⟩ ∧
      tokens.map (·.kind) = .streamStart :: (kinds ++ [.streamEnd]) := by
  let first : Tokenizer :=
    { cursor := ⟨cs, {}⟩, tokens := [⟨.streamStart, {}, {}⟩], count := 1 }
  have hprepare : first.prepare = .ok first := by
    refine (Tokenizer.prepare_spaces (j := 0) rfl start (by simp [first])).trans ?_
    exact congrArg Except.ok (Tokenizer.closeBlocks_of_le (show (-1 : Int) ≤ 0 by decide))
  have hready : first.Ready ⟨[.streamStart], -1, []⟩ cs 0 := ⟨rfl, rfl, rfl, rfl⟩
  obtain ⟨q, ⟨s, ⟨n, hn, hread⟩, hs, -⟩, hclose⟩ := arrives first hready rfl
  obtain ⟨r, hr, hread⟩ := hread first hprepare
  -- Each round reads a character at least, so there is a round left for the end of the text.
  have hlen : n + ((cs.length - n + 1) + 1) = cs.length + 2 := by
    have : n + s.cursor.rest.length ≤ cs.length := hn
    omega
  obtain ⟨tokens, hend, hkinds⟩ := hs.read_end hr (cs.length - n + 1)
  refine ⟨tokens, ?_, ?_⟩
  · rw [ofText, firstControl?_eq_none allowed]
    show read (cs.length + 2) first = _
    rw [← hlen, hread, hend]
  · rw [hkinds, hclose]
    rfl

/-- The tokens of a written document, with empty lines after it. -/
theorem TokenStream.ofText_write {t : Tree} (h : Writable t) {j : Nat} (hj : KeepsEnd t → j = 0) :
    ∃ tokens, ofText (write .top 0 t ++ margin j 0) = ⟨tokens, none⟩ ∧
      tokens.map (·.kind) = .streamStart :: (kinds false t ++ [.streamEnd]) := by
  refine ofText_of_arrives ?_ ?_ fun s hs keyAllowed => ?_
  · rw [write_top]
    exact startsToken_nodeText h _ _ _
  · rw [write_top, allowed_append]
    exact ⟨allowed_nodeText h _ _, allowed_margin j 0⟩
  · exact hs.arrives_document h hj keyAllowed

end ApiSurface.Yaml
