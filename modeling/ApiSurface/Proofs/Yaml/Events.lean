/-
The events of a written tree.

Reading a node takes the tokens of its tree away and adds the events of the tree; only the kinds of
the tokens matter, not the points where they stand. The fuel of the reader is more than twice the
number of tokens, so it never runs out.

* `emits_items`, `emits_members` — what is between the ends of a collection;
* `emits_node` — a node of a writable tree;
* `Document.ofText_write` — the document of a written tree.
-/
import ApiSurface.Proofs.Yaml.Blocks
import ApiSurface.Yaml.Document

namespace ApiSurface.Yaml

mutual

/-- The events of a node. -/
def events (tag : Option String) : Tree → List Event
  | .null => [.scalar "null" .plain tag]
  | .bool b => [.scalar (if b then "true" else "false") .plain tag]
  | .number n => [.scalar (String.ofList (n.write Notation.yaml)) .plain tag]
  | .text s => [.scalar s (Style.ofText s) tag]
  | .list items => .sequenceStart tag :: (itemEvents items ++ [.sequenceEnd])
  | .record members => .mappingStart tag :: (memberEvents members ++ [.mappingEnd])
  | .tagged name value => events (some ("!" ++ name)) value

/-- The events of items. -/
def itemEvents : List Tree → List Event
  | [] => []
  | item :: rest => events none item ++ itemEvents rest

/-- The events of members. -/
def memberEvents : List (String × Tree) → List Event
  | [] => []
  | (key, value) :: rest => .scalar key .plain none :: (events none value ++ memberEvents rest)

end

namespace EventReader

/-- The tokens that a node without an anchor and a tag may start with. -/
def startsNode : TokenKind → Bool
  | .scalar .. | .flowSequenceStart | .flowMappingStart | .blockSequenceStart
  | .blockMappingStart | .blockEntry => true
  | _ => false

section Running

variable {α β : Type} {s s' : EventState} {t : Token} {ts : List Token}

theorem bind_ok {r : EventReader α} {a : α} (h : r s = .ok a s') (f : α → EventReader β) :
    (r >>= f) s = f a s' := by
  show (EStateM.bind r f) s = _
  rw [EStateM.bind, h]

theorem bind_peek (h : s.tokens = t :: ts) (f : Token → EventReader β) :
    (peek >>= f) s = f t s := by
  refine bind_ok ?_ f
  rw [peek, h]

theorem bind_get (f : EventState → EventReader β) : (get >>= f) s = f s s := rfl

theorem bind_skip (f : Unit → EventReader β) :
    (skip >>= f) s = f () { s with tokens := s.tokens.tail } := rfl

/-- A node without an anchor and a tag. -/
theorem properties_none (h : s.tokens = t :: ts) (node : startsNode t.kind = true) :
    properties s = .ok ⟨none, none, t.start⟩ s := by
  have hanchor : anchor? s = .ok none s := by
    rw [anchor?, bind_peek h]
    cases hk : t.kind <;> first | rfl | simp [hk, startsNode] at node
  have htag : tag? s = .ok none s := by
    rw [tag?, bind_peek h]
    cases hk : t.kind <;> first | rfl | simp [hk, startsNode] at node
  rw [properties, bind_peek h, bind_ok hanchor, bind_ok htag]
  refine (bind_ok hanchor _).trans ?_
  exact bind_peek h _

end Running

/-! ### Steps -/

/-- Whether a reader takes tokens of some kinds away and adds some events, if tokens of the given
other kinds follow. -/
def Emits (r : EventReader Unit) (ks : List TokenKind) (es : List Event)
    (rest : List TokenKind) : Prop :=
  ∀ s : EventState, s.tokens.map (·.kind) = ks ++ rest → ∃ s', r s = .ok () s' ∧
    s'.tokens.map (·.kind) = rest ∧
      s'.events.map (·.event) = es.reverse ++ s.events.map (·.event) ∧ s'.handles = s.handles

section Steps

variable {k : TokenKind} {ks ls rest : List TokenKind} {es fs : List Event}

theorem emits_skip (k : TokenKind) (rest : List TokenKind) : Emits skip [k] [] rest := by
  intro s hs
  refine ⟨_, rfl, ?_, rfl, rfl⟩
  rw [List.map_tail, hs]
  rfl

theorem emits_emit (e : Event) (m : Mark) (rest : List TokenKind) : Emits (emit e m) [] [e] rest :=
  fun _ hs => ⟨_, rfl, hs, rfl, rfl⟩

theorem Emits.bind {r r' : EventReader Unit} (h : Emits r ks es (ls ++ rest))
    (h' : Emits r' ls fs rest) : Emits (do r; r') (ks ++ ls) (es ++ fs) rest := by
  intro s hs
  rw [List.append_assoc] at hs
  obtain ⟨u, hu, htokens, hevents, hhandles⟩ := h s hs
  obtain ⟨v, hv, htokens', hevents', hhandles'⟩ := h' u htokens
  refine ⟨v, (bind_ok hu _).trans hv, htokens', ?_, hhandles'.trans hhandles⟩
  rw [hevents', hevents]
  simp

theorem emits_peek {f : Token → EventReader Unit}
    (h : ∀ t, t.kind = k → Emits (f t) (k :: ks) es rest) :
    Emits (do f (← peek)) (k :: ks) es rest := by
  intro s hs
  obtain ⟨t, ts, htokens, hkind, -⟩ := List.map_eq_cons_iff.mp hs
  obtain ⟨s', hread, hs'⟩ := h t hkind s hs
  exact ⟨s', (bind_peek htokens f).trans hread, hs'⟩

theorem emits_properties {f : Properties → EventReader Unit} (node : startsNode k = true)
    (h : ∀ m, Emits (f ⟨none, none, m⟩) (k :: ks) es rest) :
    Emits (do f (← properties)) (k :: ks) es rest := by
  intro s hs
  obtain ⟨t, ts, htokens, rfl, -⟩ := List.map_eq_cons_iff.mp hs
  obtain ⟨s', hread, hs'⟩ := h t.start s hs
  exact ⟨s', (bind_ok (properties_none htokens node) f).trans hread, hs'⟩

end Steps

/-! ### Nodes -/

section Nodes

variable {fuel : Nat} {flush : Bool} {rest : List TokenKind}

theorem emits_scalar (text : String) (style : ScalarStyle) :
    Emits (node (fuel + 1) true flush) [.scalar text style] [.scalar text style none] rest := by
  rw [node]
  refine emits_peek fun t ht => ?_
  simp only [ht]
  refine emits_properties rfl fun m => emits_peek fun t ht => ?_
  simp only [ht]
  exact (emits_skip _ rest).bind (emits_emit _ m rest)

/-- A bracket that is closed at once. -/
theorem emits_flowItems_end (m : Mark) :
    Emits (flowItems (fuel + 1) true m) [.flowSequenceEnd] [.sequenceEnd] rest := by
  rw [flowItems]
  refine emits_peek fun t ht => emits_peek fun t ht => ?_
  simp only [ht]
  exact (emits_skip _ rest).bind (emits_emit _ _ rest)

theorem emits_flowMembers_end (m : Mark) :
    Emits (flowMembers (fuel + 1) true m) [.flowMappingEnd] [.mappingEnd] rest := by
  rw [flowMembers]
  refine emits_peek fun t ht => emits_peek fun t ht => ?_
  simp only [ht]
  exact (emits_skip _ rest).bind (emits_emit _ _ rest)

theorem emits_brackets (isList : Bool) :
    Emits (node (fuel + 2) true flush) (bracketKinds isList)
      (if isList then [.sequenceStart none, .sequenceEnd] else [.mappingStart none, .mappingEnd])
      rest := by
  rw [node]
  cases isList with
  | true =>
    refine emits_peek fun t ht => ?_
    simp only [ht]
    refine emits_properties rfl fun m => emits_peek fun t ht => ?_
    simp only [ht]
    exact (emits_emit _ m _).bind ((emits_skip _ _).bind (emits_flowItems_end _))
  | false =>
    refine emits_peek fun t ht => ?_
    simp only [ht]
    refine emits_properties rfl fun m => emits_peek fun t ht => ?_
    simp only [ht]
    exact (emits_emit _ m _).bind ((emits_skip _ _).bind (emits_flowMembers_end _))

/-- The first token of a node tells that the node is there. -/
theorem exists_kinds_cons (flush : Bool) {t : Tree} (h : Writable t) :
    ∃ k ks, kinds flush t = k :: ks ∧ startsNode k = true ∧ (flush = false → k ≠ .blockEntry) := by
  cases h with
  | @list items h =>
    cases items with
    | nil => exact ⟨_, _, rfl, rfl, by simp⟩
    | cons t rest => cases flush <;> exact ⟨_, _, rfl, rfl, by simp⟩
  | @record members keys h =>
    cases members with
    | nil => exact ⟨_, _, rfl, rfl, by simp⟩
    | cons m rest => exact ⟨_, _, rfl, rfl, by simp⟩
  | _ => exact ⟨_, _, rfl, rfl, by simp⟩

/-- Whether reading a node emits its events; after a key something other than an item follows. -/
def EmitsNode (t : Tree) : Prop :=
  ∀ ⦃fuel : Nat⦄ ⦃flush : Bool⦄ ⦃rest : List TokenKind⦄, 2 * (kinds flush t).length < fuel →
    flush = false ∨ (∃ k ks, rest = k :: ks ∧ k ≠ .blockEntry) →
      Emits (node fuel true flush) (kinds flush t) (events none t) rest

/-- What is there is read, whatever tells that nothing is. -/
theorem emits_present {k : TokenKind} {ks missing : List TokenKind} (present : k ∉ missing)
    {r r' : EventReader Unit} {es : List Event} (h : Emits r (k :: ks) es rest) :
    Emits (do if isOneOf (← peek) missing then r' else r) (k :: ks) es rest := by
  refine emits_peek fun t ht => ?_
  rwa [if_neg (by rwa [isOneOf, ht, List.contains_iff_mem])]

theorem emits_given {t : Tree} (ht : Writable t) {flush : Bool} {missing ls : List TokenKind}
    (absent : ∀ k ∈ missing, startsNode k = false ∨ flush = false ∧ k = .blockEntry)
    {r r' : EventReader Unit} {es : List Event} (h : Emits r (kinds flush t ++ ls) es rest) :
    Emits (do if isOneOf (← peek) missing then r' else r) (kinds flush t ++ ls) es rest := by
  obtain ⟨k, ks, hk, hpresent, hitem⟩ := exists_kinds_cons flush ht
  rw [hk] at h ⊢
  refine emits_present (fun hmem => ?_) h
  obtain hmem | ⟨hflush, rfl⟩ := absent k hmem
  · exact absurd hpresent (by simp [hmem])
  · exact hitem hflush rfl

theorem emits_items {items : List Tree} (h : ∀ t ∈ items, Writable t ∧ EmitsNode t)
    (hf : 2 * (itemKinds items).length ≤ fuel) (positive : 0 < fuel) (opened : Mark) :
    Emits (blockItems fuel opened) (itemKinds items ++ [.blockEnd])
      (itemEvents items ++ [.sequenceEnd]) rest := by
  obtain ⟨fuel, rfl⟩ := Nat.exists_eq_add_one.mpr positive
  induction items generalizing fuel with
  | nil =>
    rw [blockItems]
    refine emits_peek fun t ht => ?_
    simp only [ht]
    exact (emits_skip _ rest).bind (emits_emit _ _ rest)
  | cons t items ih =>
    obtain ⟨hwritable, hemits⟩ := h t List.mem_cons_self
    obtain ⟨k, ks, hk, -, -⟩ := exists_kinds_cons false hwritable
    -- The tokens of an item are two at least, and so are the rounds for it.
    have hlen : 0 < (kinds false t).length := by simp [hk]
    simp only [itemKinds, List.length_cons, List.length_append] at hf
    obtain ⟨fuel, rfl⟩ := Nat.exists_eq_add_one.mpr (show 0 < fuel by omega)
    have hnode := @hemits (fuel + 1) false (itemKinds items ++ [.blockEnd] ++ rest) (by omega)
      (.inl rfl)
    have ih := ih (fun x hx => h x (List.mem_cons_of_mem t hx)) fuel (by omega) (by omega)
    simp only [itemKinds, itemEvents, List.cons_append, List.append_assoc]
    rw [blockItems]
    refine emits_peek fun t' ht' => ?_
    simp only [ht']
    exact (emits_skip _ _).bind (emits_given hwritable (by decide) (hnode.bind ih))

/-- The items of a sequence after a key end where something other than an item follows. -/
theorem emits_flushItems {items : List Tree} (h : ∀ t ∈ items, Writable t ∧ EmitsNode t)
    (hf : 2 * (itemKinds items).length ≤ fuel) (positive : 0 < fuel)
    (follows : ∃ k ks, rest = k :: ks ∧ k ≠ .blockEntry) :
    Emits (flushItems fuel) (itemKinds items) (itemEvents items ++ [.sequenceEnd]) rest := by
  obtain ⟨fuel, rfl⟩ := Nat.exists_eq_add_one.mpr positive
  induction items generalizing fuel with
  | nil =>
    -- No token says that the items have ended; the one that follows shows it.
    obtain ⟨k, ks, rfl, hk⟩ := follows
    intro s hs
    obtain ⟨t, ts, htokens, hkind, -⟩ := List.map_eq_cons_iff.mp hs
    rw [flushItems, bind_peek htokens]
    cases hkind' : t.kind with
    | blockEntry => exact absurd (hkind.symm.trans hkind') hk
    | _ => exact emits_emit _ _ _ s hs
  | cons t items ih =>
    obtain ⟨hwritable, hemits⟩ := h t List.mem_cons_self
    obtain ⟨k, ks, hk, -, -⟩ := exists_kinds_cons false hwritable
    have hlen : 0 < (kinds false t).length := by simp [hk]
    simp only [itemKinds, List.length_cons, List.length_append] at hf
    obtain ⟨fuel, rfl⟩ := Nat.exists_eq_add_one.mpr (show 0 < fuel by omega)
    have hnode := @hemits (fuel + 1) false (itemKinds items ++ rest) (by omega) (.inl rfl)
    have ih := ih (fun x hx => h x (List.mem_cons_of_mem t hx)) fuel (by omega) (by omega)
    simp only [itemKinds, itemEvents, List.append_assoc]
    rw [flushItems]
    refine emits_peek fun t' ht' => ?_
    simp only [ht']
    exact (emits_skip _ _).bind (emits_given hwritable (by decide) (hnode.bind ih))

theorem emits_members {members : List (String × Tree)}
    (h : ∀ m ∈ members, Writable m.2 ∧ EmitsNode m.2)
    (hf : 2 * (memberKinds members).length ≤ fuel) (positive : 0 < fuel) (opened : Mark) :
    Emits (blockMembers fuel opened) (memberKinds members ++ [.blockEnd])
      (memberEvents members ++ [.mappingEnd]) rest := by
  obtain ⟨fuel, rfl⟩ := Nat.exists_eq_add_one.mpr positive
  induction members generalizing fuel with
  | nil =>
    rw [blockMembers]
    refine emits_peek fun t ht => ?_
    simp only [ht]
    exact (emits_skip _ rest).bind (emits_emit _ _ rest)
  | cons m members ih =>
    obtain ⟨key, t⟩ := m
    obtain ⟨hwritable, hemits⟩ := h (key, t) List.mem_cons_self
    simp only [memberKinds, List.length_cons, List.length_append] at hf
    obtain ⟨fuel, rfl⟩ := Nat.exists_eq_add_one.mpr (show 0 < fuel by omega)
    -- After a value comes the next key or the end of the block.
    have follows : ∃ k ks, memberKinds members ++ [.blockEnd] ++ rest = k :: ks ∧
        k ≠ .blockEntry := by
      cases members with
      | nil => exact ⟨_, _, rfl, by simp⟩
      | cons m members => exact ⟨_, _, rfl, by simp⟩
    have hkey := @emits_scalar fuel true (.value :: (kinds true t ++
      (memberKinds members ++ [.blockEnd])) ++ rest) key .plain
    have hvalue := @hemits (fuel + 1) true (memberKinds members ++ [.blockEnd] ++ rest)
      (show 2 * (kinds true t).length < fuel + 1 by omega) (.inr follows)
    have ih := ih (fun x hx => h x (List.mem_cons_of_mem _ hx)) fuel (by omega) (by omega)
    simp only [memberKinds, memberEvents, List.cons_append, List.append_assoc]
    rw [blockMembers]
    refine emits_peek fun t' ht' => ?_
    simp only [ht']
    refine (emits_skip _ _).bind (emits_present (by simp) (hkey.bind ?_))
    refine emits_peek fun v hv => ?_
    simp only [hv]
    exact (emits_skip _ _).bind (emits_given hwritable (by decide) (hvalue.bind ih))

/-- A node of a writable tree emits its events. -/
theorem emits_node {t : Tree} (h : Writable t) : EmitsNode t := by
  induction h with
  | null | bool | number | text =>
    intro fuel flush rest hf _
    obtain ⟨fuel, rfl⟩ := Nat.exists_eq_add_one.mpr (show 0 < fuel by omega)
    exact emits_scalar _ _
  | @list items h ih =>
    intro fuel flush rest hf follows
    have hitems : ∀ t ∈ items, Writable t ∧ EmitsNode t := fun t ht => ⟨h t ht, ih t ht⟩
    cases items with
    | nil =>
      -- an empty list is written as brackets
      simp [kinds, bracketKinds] at hf
      obtain ⟨fuel, rfl⟩ : ∃ f, fuel = f + 2 := ⟨fuel - 2, by omega⟩
      exact emits_brackets true
    | cons t items =>
      obtain ⟨fuel, rfl⟩ := Nat.exists_eq_add_one.mpr (show 0 < fuel by omega)
      rw [node]
      cases flush with
      | true =>
        -- the items stand in the column of the key, without a start of their own
        have hf : 2 * (itemKinds (t :: items)).length ≤ fuel := Nat.le_of_lt_succ hf
        have positive : 0 < fuel := by
          simp only [itemKinds, List.length_cons] at hf
          omega
        have := emits_flushItems hitems hf positive (follows.resolve_left Bool.noConfusion)
        refine emits_peek fun t' ht' => ?_
        simp only [ht']
        refine emits_properties rfl fun m => emits_peek fun t' ht' => ?_
        simp only [ht']
        exact (emits_emit _ m _).bind this
      | false =>
        -- the items are a block of their own
        have hf : 2 * (itemKinds (t :: items)).length + 3 < fuel := by
          simp only [kinds, List.isEmpty_cons, Bool.false_eq_true, if_false, List.length_cons,
            List.length_append] at hf ⊢
          omega
        have := @emits_items fuel rest _ hitems (by omega) (by omega)
        refine emits_peek fun t' ht' => ?_
        simp only [ht']
        refine emits_properties rfl fun m => emits_peek fun t' ht' => ?_
        simp only [ht']
        exact (emits_emit _ m _).bind ((emits_skip _ _).bind (this _))
  | @record members keys h ih =>
    intro fuel flush rest hf follows
    have hmembers : ∀ m ∈ members, Writable m.2 ∧ EmitsNode m.2 := fun m hm => ⟨h m hm, ih m hm⟩
    cases members with
    | nil =>
      simp [kinds, bracketKinds] at hf
      obtain ⟨fuel, rfl⟩ : ∃ f, fuel = f + 2 := ⟨fuel - 2, by omega⟩
      exact emits_brackets false
    | cons m members =>
      obtain ⟨fuel, rfl⟩ := Nat.exists_eq_add_one.mpr (show 0 < fuel by omega)
      have hf : 2 * (memberKinds (m :: members)).length + 3 < fuel := by
        simp only [kinds, List.isEmpty_cons, Bool.false_eq_true, if_false, List.length_cons,
          List.length_append] at hf ⊢
        omega
      have := @emits_members fuel rest _ hmembers (by omega) (by omega)
      rw [node]
      refine emits_peek fun t' ht' => ?_
      simp only [ht']
      refine emits_properties rfl fun p => emits_peek fun t' ht' => ?_
      have hflush : (flush && TokenKind.blockMappingStart == .blockEntry) = false := by
        cases flush <;> rfl
      simp only [ht', hflush]
      exact (emits_emit _ p _).bind ((emits_skip _ _).bind (this _))

end Nodes

/-! ### Documents -/

/-- Whether the tokens of a document are those of a node, which emits some events where only the usual
tag handles are known. -/
structure EmitsContent (ks : List TokenKind) (es : List Event) : Prop where
  starts : ∃ k ls, ks = k :: ls ∧ ∀ t : Token, t.kind = k → isBoundary t = false
  node : ∀ ⦃fuel : Nat⦄, 2 * ks.length < fuel → ∀ s : EventState, s.handles = defaultHandles →
    s.tokens.map (·.kind) = ks ++ [.streamEnd] → ∃ s', node fuel true false s = .ok () s' ∧
      s'.tokens.map (·.kind) = [.streamEnd] ∧
        s'.events.map (·.event) = es.reverse ++ s.events.map (·.event)

theorem emitsContent {t : Tree} (h : Writable t) : EmitsContent (kinds false t) (events none t) where
  starts := by
    obtain ⟨k, ks, hk, hstarts, -⟩ := exists_kinds_cons false h
    refine ⟨k, ks, hk, fun t ht => ?_⟩
    rw [isBoundary, ht]
    cases k <;> first | rfl | cases hstarts
  node fuel hf s _ hs := by
    obtain ⟨s', hread, hrest, hevents, -⟩ := emits_node h hf (.inl rfl) s hs
    exact ⟨s', hread, hrest, hevents⟩

/-- Without directives only the two usual tag handles are known. -/
theorem directives_none {s : EventState} {t : Token} {ts : List Token} (hs : s.tokens = t :: ts)
    (content : isBoundary t = false) (fuel : Nat) (handles : List (String × String)) :
    directives (fuel + 1) false handles s =
      .ok () { s with handles := handles ++ defaultHandles } := by
  rw [directives, bind_peek hs]
  cases hkind : t.kind with
  | versionDirective major minor => exact absurd content (by simp [hkind, isBoundary])
  | tagDirective handle leading => exact absurd content (by simp [hkind, isBoundary])
  | _ => rfl

theorem document_kinds {ks : List TokenKind} {es : List Event} (h : EmitsContent ks es)
    {s : EventState} (hs : s.tokens.map (·.kind) = .streamStart :: (ks ++ [.streamEnd])) :
    ∃ s', document s = .ok () s' ∧ s'.tokens.map (·.kind) = [.streamEnd] ∧
      s'.events.map (·.event) = es.reverse ++ s.events.map (·.event) := by
  obtain ⟨k, ls, hk, hstarts⟩ := h.starts
  obtain ⟨first, ts, htokens, -, hts⟩ := List.map_eq_cons_iff.mp hs
  have hlen : s.tokens.length = ks.length + 2 := by
    have := congrArg List.length hs
    simpa using this
  have hfuel : 3 * s.tokens.length + 10 = 3 * s.tokens.length + 9 + 1 := rfl
  -- The state after the start of the text, and after the directives that are not there.
  let u : EventState := { s with tokens := ts }
  have hkinds : u.tokens.map (·.kind) = k :: (ls ++ [.streamEnd]) := by
    rw [hts, hk]
    rfl
  obtain ⟨t', ts', ht', hkind, -⟩ := List.map_eq_cons_iff.mp hkinds
  have hboundary := hstarts t' hkind
  have hdirectives := directives_none ht' hboundary (3 * s.tokens.length + 9) []
  have hend : (t'.kind == .streamEnd) = false := by
    rw [beq_eq_false_iff_ne]
    intro hkind
    rw [isBoundary, hkind] at hboundary
    cases hboundary
  obtain ⟨v, hv, hvtokens, hvevents⟩ :=
    @h.node (3 * s.tokens.length + 10) (by omega) { u with handles := [] ++ defaultHandles } rfl hts
  obtain ⟨z, zs, hz, hzkind, -⟩ := List.map_eq_cons_iff.mp hvtokens
  refine ⟨v, ?_, hvtokens, hvevents⟩
  have hskip (f : Unit → EventReader Unit) : (skip >>= f) s = f () u := by
    rw [bind_skip, htokens]
    rfl
  unfold document
  refine (bind_get _).trans ((hskip _).trans ?_)
  refine (bind_peek ht' _).trans ?_
  rw [hend, if_neg Bool.false_ne_true]
  refine (bind_ok hdirectives _).trans ?_
  rw [hboundary]
  refine (bind_ok hv _).trans ?_
  refine (bind_peek hz _).trans ?_
  rw [hzkind]
  rfl

end EventReader

/-- The document of a text whose tokens are those of a node. -/
theorem Document.ofText_of_tokens {cs : List Char} {ks : List TokenKind} {es : List Event}
    (h : EventReader.EmitsContent ks es)
    (htokens : ∃ tokens, TokenStream.ofText cs = ⟨tokens, none⟩ ∧
      tokens.map (·.kind) = .streamStart :: (ks ++ [.streamEnd])) :
    let d := ofText (String.ofList cs)
    d.events.map (·.event) = es ∧ d.defect = none ∧ d.continued = false := by
  obtain ⟨tokens, htokens, hkinds⟩ := htokens
  have hs : (⟨tokens, ⟨.tokens, .endOfText, {}, none⟩, [], 0, [], [], []⟩ : EventState).tokens.map
      (·.kind) = .streamStart :: (ks ++ [.streamEnd]) := hkinds
  obtain ⟨s, hread, hrest, hevents⟩ := EventReader.document_kinds h hs
  simp only [ofText, String.toList_ofList, htokens, ofTokens, Option.getD_none, hread]
  refine ⟨?_, trivial, ?_⟩
  · rw [List.map_reverse, hevents]
    simp
  · obtain ⟨e, es, he, hkind, hes⟩ := List.map_eq_cons_iff.mp hrest
    rw [he, continues, List.dropWhile_cons_of_neg (by simp [hkind])]
    simp [hkind]

/-- The document of a written tree, with empty lines after it. -/
theorem Document.ofText_write {t : Tree} (h : Writable t) {j : Nat} (hj : KeepsEnd t → j = 0) :
    let d := ofText (String.ofList (write .top 0 t ++ margin j 0))
    d.events.map (·.event) = Yaml.events none t ∧ d.defect = none ∧ d.continued = false :=
  ofText_of_tokens (EventReader.emitsContent h) (TokenStream.ofText_write h hj)

end ApiSurface.Yaml
