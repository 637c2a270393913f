/-
Documents of a choice that names its alternative by a tag.

The tag of a value at the top stands on a line of its own, before the block of the value. It is one
more token before those of the block, and the block's first event carries it; nothing else changes
(`Document.ofText_tagged`). The reader of a choice looks at that event alone to tell the
alternative, and the reader of the value does not look at the tag.

* `Lexer.tag_word`, `Tokenizer.Ready.arrives_tag` — the token of a tag;
* `EventReader.emitsContent_tagged` — the events of a tagged block;
* `decode_tagged` — a written choice is read back.
-/
import ApiSurface.Proofs.Yaml.RoundTrip

namespace ApiSurface.Yaml

/-! ### The token of a tag -/

namespace Lexer

variable {word : List Char} (h : ∀ c ∈ word, c.isAlphanum = true) (start : Mark) (cs : List Char)
  (m : Mark)

include h in
theorem tagHandle_word : tagHandle false start ⟨'!' :: (word ++ '\n' :: cs), m⟩
    = .ok ('!' :: word, ⟨'\n' :: cs, (m.past '!').through word⟩) := by
  have hword : ∀ c ∈ word, isWordChar c = true := fun c hc => by simp [isWordChar, h c hc]
  have hline : ∀ c ∈ word, isBreak c = false :=
    fun c hc => isBreak_of_not_isGap (isGap_of_isAlphanum (h c hc))
  have hstop : Text.Stops isWordChar ('\n' :: cs) := by
    rintro _ ⟨⟩
    decide
  have hrun := takeWhile_append hword hline hstop (m.past '!')
  rw [tagHandle, bind_peek?, if_neg (by simp)]
  refine (bind_skip ..).trans ((bind_ok hrun _).trans ?_)
  rw [bind_peek?, if_neg (by simp)]
  rfl

/-- No characters of a tag are left at the end of its line. -/
theorem tagText_break : tagText false .tagText ('!' :: word) start ⟨'\n' :: cs, m⟩
    = .ok (word, ⟨'\n' :: cs, m⟩) := by
  have hbreak : isTagChar false '\n' = false := by
    simp [isTagChar, isWordChar, String.contains_char_eq]
  have hchars : tagChars false .tagText start ('\n' :: cs) ⟨'\n' :: cs, m⟩
      = .ok ([], ⟨'\n' :: cs, m⟩) := by
    rw [tagChars, bind_peek?]
    simp only [List.head?_cons, hbreak]
    rfl
  rw [tagText, bind_rest, bind_ok hchars, List.tail_cons, List.append_nil]
  rfl

include h in
/-- A word after an exclamation mark is a tag whose handle is the mark alone. -/
theorem tag_word (nonempty : word ≠ []) (inFlow : Bool) :
    tag inFlow ⟨'!' :: (word ++ '\n' :: cs), m⟩
      = .ok (.tag "!" (String.ofList word), ⟨'\n' :: cs, m.through ('!' :: word)⟩) := by
  have hhandle := tagHandle_word h m cs m
  have htext := @tagText_break word m cs ((m.past '!').through word)
  have hend : ¬ (1 < ('!' :: word).length ∧ ('!' :: word).getLast? = some '!') := by
    rintro ⟨-, hlast⟩
    rw [List.getLast?_cons_of_ne_nil nonempty] at hlast
    exact absurd (h _ (List.mem_of_getLast? hlast)) (by decide)
  obtain ⟨c, ds, rfl⟩ := List.exists_cons_of_ne_nil nonempty
  -- The tag is not one in angle brackets.
  have hbracket : c ≠ '<' := ne_of_isAlphanum (h c List.mem_cons_self) (by decide)
  rw [tag, bind_mark, bind_rest]
  simp only [List.cons_append, List.cons.injEq, hbracket, false_and, and_false, imp_self,
    implies_true]
  refine (bind_ok hhandle _).trans ?_
  rw [if_neg hend]
  refine (bind_ok htext _).trans ((bind_ok (pure_eq _ _) _).trans ?_)
  have hgap : isGapOrEnd (some '\n') = true := by decide
  rw [bind_peek?, List.head?_cons, hgap, Bool.not_true, Bool.and_false, if_neg Bool.false_ne_true]
  rfl

end Lexer

namespace Tokenizer

variable {s : Tokenizer} {p : Progress} {column : Nat}

theorem token_tag {cs : List Char} (hs : s.cursor.rest = '!' :: cs) :
    s.token = s.nodeProperty (Lexer.tag s.inFlow) := by
  simp [token, hs, Cursor.startsMarker]

/-- From a tag to what stands on the next line. -/
theorem Ready.arrives_tag {name : String} (h : IsKey name) {k : Nat} {tail : List Char}
    (hs : s.Ready p ('!' :: (name.toList ++ '\n' :: (spaces k ++ tail))) column)
    (hi : p.indent < column) (hstart : StartsToken tail) :
    s.Arrives ((p.add [.tag "!" name]).close k) tail k := by
  obtain ⟨o, optional, hsave⟩ := hs.saveCandidate hi
  have hlex := Lexer.tag_word h.word (spaces k ++ tail) s.mark h.nonempty s.inFlow
  rw [String.ofList_toList] at hlex
  have hline : ∀ c ∈ '!' :: name.toList, isBreak c = false := by
    refine List.forall_mem_cons.mpr ⟨by decide, fun c hc => ?_⟩
    exact isBreak_of_not_isGap (isGap_of_isAlphanum (h.word c hc))
  generalize hm : s.mark.through ('!' :: name.toList) = m at hlex
  -- after the tag a key may start only on the next line
  let r : Tokenizer := { s with
    candidates := [o], keyAllowed := false, cursor := ⟨'\n' :: (spaces k ++ tail), m⟩ }
  have htoken : s.token = .ok (r.push (.tag "!" name) s.mark m) := by
    rw [token_tag hs.rest, nodeProperty, hsave]
    have hlex := lex_ok (s := { s with candidates := [o], keyAllowed := false }) hs.cursor hlex
    show lexToken _ _ = _
    rw [lexToken, hlex]
    rfl
  have hprogress : r.progress = p := hs.progress
  rw [← hprogress]
  refine arrives_line (j := 0) htoken (by simp) rfl ?_ rfl hstart ?_
  · intro c hc
    obtain ⟨hrequired, hmark⟩ := optional c hc
    refine ⟨hrequired, ?_⟩
    rw [hmark, ← hm, Mark.line_through hline]
  · rw [hs.rest]
    simp only [List.length_cons, List.length_append]
    omega

end Tokenizer

section Documents

variable {name : String} {members : List (String × Tree)}

/-- A tag stands on a line of its own before a block. -/
theorem write_tagged (nonempty : members ≠ []) : write .top 0 (.tagged name (.record members))
    = '!' :: (name.toList ++ '\n' :: write .top 0 (.record members)) := by
  have hempty : members.isEmpty = false := by simpa using nonempty
  simp [write, writeTagged, hempty, Position.gap, Position.tagged, Position.opening]

/-- The tokens of a tagged document. -/
theorem TokenStream.ofText_tagged (key : IsKey name) (h : Writable (.record members))
    (nonempty : members ≠ []) :
    ∃ tokens, ofText (write .top 0 (.tagged name (.record members))) = ⟨tokens, none⟩ ∧
      tokens.map (·.kind) = .streamStart ::
        (kinds false (.tagged name (.record members)) ++ [.streamEnd]) := by
  have hstart : StartsToken (write .top 0 (.record members)) := by
    have := startsToken_nodeText h (-1) 0 []
    rwa [List.append_nil, ← write_top] at this
  rw [write_tagged nonempty]
  refine ofText_of_arrives ?_ ?_ fun s hs keyAllowed => ?_
  · rintro _ ⟨⟩
    decide
  · have hname : Allowed name.toList := fun c hc =>
      isAllowed_of_isPrintable (isPrintable_of_isAlphanum (key.word c hc))
    have hblock : Allowed (write .top 0 (.record members)) := by
      rw [write_top]
      exact allowed_nodeText h _ _
    simp [hname, hblock]
    decide
  · -- The block starts in the first column, as it would without a tag.
    obtain ⟨u, hu, hready, hkey⟩ := hs.arrives_tag (k := 0) key (by decide) hstart
    rw [Progress.close_of_le (show (-1 : Int) ≤ _ by decide)] at hready
    have hready' : u.Ready ⟨[.streamStart, .tag "!" name], -1, []⟩
        (write .top 0 (.record members) ++ margin 0 0) 0 := by
      rw [margin_zero, spaces_zero, List.append_nil]
      exact hready
    obtain ⟨q, hq, hclose⟩ := hready'.arrives_document h (fun _ => rfl) hkey
    exact ⟨q, hu.arrives hq, hclose⟩

namespace EventReader

section Properties

variable {s : EventState} {t t' : Token} {ts : List Token}

theorem anchor?_none (hs : s.tokens = t :: ts) (h : ∀ name, t.kind ≠ .anchor name) :
    anchor? s = .ok none s := by
  rw [anchor?, bind_peek hs]
  cases hk : t.kind with
  | anchor name => exact absurd hk (h name)
  | _ => rfl

/-- A tag whose handle is an exclamation mark stands for the mark and the text after it. -/
theorem properties_tag (hs : s.tokens = t :: t' :: ts) (tag : t.kind = .tag "!" name)
    (node : startsNode t'.kind = true) (handles : s.handles = defaultHandles) :
    properties s = .ok ⟨none, some ("!" ++ name), t.start⟩ { s with tokens := t' :: ts } := by
  let u : EventState := { s with tokens := t' :: ts }
  have hbefore : anchor? s = .ok none s := anchor?_none hs (by simp [tag])
  have hafter : anchor? u = .ok none u := by
    refine anchor?_none rfl fun name hname => ?_
    rw [hname] at node
    cases node
  have htag : tag? s = .ok (some ("!", name, t.start)) u := by
    rw [tag?, bind_peek hs]
    simp only [tag]
    rw [bind_skip, hs]
    rfl
  have hresolve : resolveTag t.start (some ("!", name, t.start)) u
      = .ok (some ("!" ++ name)) u := by
    have hlookup : u.handles.lookup "!" = some "!" := by
      show s.handles.lookup "!" = some "!"
      rw [handles]
      rfl
    rw [resolveTag]
    refine (bind_get _).trans ?_
    rw [hlookup]
    rfl
  rw [properties, bind_peek hs, bind_ok hbefore, bind_ok htag]
  refine (bind_ok hafter _).trans ((bind_peek (s := u) rfl _).trans ?_)
  exact (bind_ok hresolve _).trans rfl

/-- What reads a node after its tag sees the tag. -/
theorem emits_tag {f : Properties → EventReader Unit} {k : TokenKind} {ks rest : List TokenKind}
    {es : List Event} (node : startsNode k = true)
    (h : ∀ m, Emits (f ⟨none, some ("!" ++ name), m⟩) (k :: ks) es rest)
    (handles : s.handles = defaultHandles)
    (hs : s.tokens.map (·.kind) = .tag "!" name :: (k :: ks ++ rest)) :
    ∃ s', (do f (← properties)) s = .ok () s' ∧ s'.tokens.map (·.kind) = rest ∧
      s'.events.map (·.event) = es.reverse ++ s.events.map (·.event) := by
  obtain ⟨t, ts, htokens, htag, hts⟩ := List.map_eq_cons_iff.mp hs
  obtain ⟨t', ts, rfl, rfl, -⟩ := List.map_eq_cons_iff.mp hts
  have hproperties := properties_tag htokens htag node handles
  obtain ⟨s', hread, hrest, hevents, -⟩ := h t.start { s with tokens := t' :: ts } hts
  exact ⟨s', (bind_ok hproperties f).trans hread, hrest, hevents⟩

end Properties

/-- The tag of a document is carried by the first event of its block. -/
theorem emitsContent_tagged (h : Writable (.record members)) (nonempty : members ≠ []) :
    EmitsContent (kinds false (.tagged name (.record members)))
      (events none (.tagged name (.record members))) where
  starts := by
    refine ⟨_, _, rfl, fun t ht => ?_⟩
    rw [isBoundary, ht]
  node fuel hf s handles hs := by
    have hempty : members.isEmpty = false := by simpa using nonempty
    have hkinds : kinds false (.tagged name (.record members))
        = .tag "!" name :: .blockMappingStart :: (memberKinds members ++ [.blockEnd]) := by
      simp [kinds, hempty]
    rw [hkinds] at hf hs
    simp only [List.length_cons, List.length_append] at hf
    obtain ⟨fuel, rfl⟩ := Nat.exists_eq_add_one.mpr (show 0 < fuel by omega)
    have hmembers : ∀ m ∈ members, Writable m.2 ∧ EmitsNode m.2 := by
      cases h with
      | record _ h => exact fun m hm => ⟨h m hm, emits_node (h m hm)⟩
    have hblock := @emits_members fuel [.streamEnd] _ hmembers (by omega) (by omega)
    obtain ⟨t, ts, htokens, htag, -⟩ := List.map_eq_cons_iff.mp hs
    rw [EventReader.node, bind_peek htokens]
    simp only [htag]
    refine emits_tag rfl (fun m => emits_peek fun t ht => ?_) handles hs
    simp only [ht]
    exact (emits_emit _ m _).bind ((emits_skip _ _).bind (hblock _))

end EventReader

theorem Document.ofText_tagged (key : IsKey name) (h : Writable (.record members))
    (nonempty : members ≠ []) :
    let d := ofText (document (.tagged name (.record members)))
    d.events.map (·.event) = Yaml.events none (.tagged name (.record members)) ∧
      d.defect = none ∧ d.continued = false :=
  ofText_of_tokens (EventReader.emitsContent_tagged h nonempty)
    (TokenStream.ofText_tagged key h nonempty)

/-! ### Reading a choice -/

theorem alternativeTag?_mark (nonempty : name.toList ≠ []) :
    alternativeTag? (some ("!" ++ name)) = some name := by
  obtain ⟨c, cs, hcs⟩ := List.exists_cons_of_ne_nil nonempty
  have htext : ("!" ++ name).toList = '!' :: c :: cs := by
    rw [String.toList_append, hcs]
    rfl
  rw [alternativeTag?, Option.map_some, htext]
  show some (String.ofList (c :: cs)) = _
  rw [← hcs, String.ofList_toList]

end Documents

open Reader

section Choices

variable {kept : Number → Prop} {σ ρ α β : Type} {label : String} {fields : Fields σ ρ}
  {there : ρ → α} {back : α → ρ} {n : Nat}

/-- A record is read whatever its tag is. -/
theorem reads_record_tag (hs : fields.IsUntagged) {a : α}
    (h : (Shape.view there back (.record label fields)).Keeps kept n a) {depth : Nat}
    (hd : n < depth) (tag : Option String) (sc : Scope) :
    Reads (read (.view there back (.record label fields)) depth sc)
      (events tag ((Shape.view there back (.record label fields)).encode a)) a := by
  obtain ⟨hback, hn, ha⟩ := h
  obtain ⟨d, rfl⟩ := Nat.exists_eq_add_one.mpr (show 0 < depth by omega)
  have hrecord : Reads (read (.record label fields) (d + 1) sc) (events tag (.record _)) (back a) :=
    reads_record sc (builds_fields fields (back a) hs ha d (by omega))
      (Fields.finish_filled fields (back a) ha) tag
  have hview := hrecord.map there
  rw [hback] at hview
  exact hview

/-- A value under the tag of its alternative is read as the alternative. -/
theorem reads_tagged_carrying {choice : Alternatives α β} {value : Scope → Reader α} {name : String}
    {members : List (String × Tree)} {a : α} {make : α → β} {sc : Scope}
    (hv : choice.variants.lookup name = some (.carrying make)) (nonempty : name.toList ≠ [])
    (h : Reads (value sc) (events (some ("!" ++ name)) (.record members)) a) :
    Reads (Reader.tagged sc choice value) (events none (.tagged name (.record members)))
      (make a) := by
  rw [events, events, Reader.tagged]
  refine reads_following rfl (reads_peek fun e he => ?_)
  rw [he, tagOf, alternativeTag?_mark nonempty]
  exact (reads_accept_find hv).bind (h.map make)

/-- A choice between bare names and records under a tag is read back. -/
theorem decode_tagged {choice : Alternatives α β} (hs : fields.IsUntagged) {b : β}
    (h : (Shape.tagged choice (.view there back (.record label fields))).Keeps kept n b)
    (hn : n < depthLimit)
    (written : ∀ name a, choice.split b = (name, some a) →
      IsKey name ∧ fields.encode (back a) ≠ []) :
    decode (.tagged choice (.view there back (.record label fields)))
      (document ((Shape.tagged choice (.view there back (.record label fields))).encode b))
        = ⟨.ok b, 0⟩ := by
  rw [Shape.Keeps] at h
  rw [Shape.encode]
  cases hb : choice.split b with
  | mk name value =>
    rw [hb] at h
    cases value with
    | none =>
      have hdocument := Document.ofText_write (j := 0) (.text name) fun _ => rfl
      rw [margin_zero, spaces_zero, List.append_nil] at hdocument
      exact decode_of_reads (fun sc => reads_tagged_bare h) hdocument
    | some a =>
      obtain ⟨hpos, ha, make, hv, rfl⟩ := h
      obtain ⟨key, nonempty⟩ := written name a hb
      have hwritable : Writable (.record (fields.encode (back a))) :=
        Shape.writable_encode (.view there back (.record label fields)) a hs ha
      exact decode_of_reads (fun sc => reads_tagged_carrying hv key.nonempty
        (reads_record_tag hs ha (by omega) _ sc)) (Document.ofText_tagged key hwritable nonempty)

end Choices

end ApiSurface.Yaml
