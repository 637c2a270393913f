/-
YAML documents as trees.

The events of a document are those of a `Node`, and an alias in it leads to a node as well. Reading
events yields whole nodes only (`yields_node`, by induction on the fuel, one lemma for each kind of
collection), so every text that is read without a defect is empty or a node (`Document.exists_node`).
-/
import ApiSurface.Proofs.Yaml.Events

namespace ApiSurface.Yaml

/-- A node of a document. -/
inductive Node where
  | scalar (text : String) (style : ScalarStyle) (tag : Option String)
  | sequence (tag : Option String) (items : List Node)
  | mapping (tag : Option String) (members : List (Node × Node))
  /-- An alias of the node with an anchor, by the anchor's number. -/
  | link (anchor : Nat)

namespace Node

mutual

/-- The events of a node. -/
def events : Node → List Event
  | .scalar text style tag => [.scalar text style tag]
  | .sequence tag items => .sequenceStart tag :: (allEvents items ++ [.sequenceEnd])
  | .mapping tag members => .mappingStart tag :: (pairEvents members ++ [.mappingEnd])
  | .link anchor => [.alias anchor]

/-- The events of items. -/
def allEvents : List Node → List Event
  | [] => []
  | t :: ts => t.events ++ allEvents ts

/-- The events of members. -/
def pairEvents : List (Node × Node) → List Event
  | [] => []
  | (key, value) :: ms => key.events ++ (value.events ++ pairEvents ms)

end

mutual

/-- What holds of a node if it holds of its parts holds of every node. -/
@[elab_as_elim]
theorem induct {P : Node → Prop} (scalar : ∀ text style tag, P (.scalar text style tag))
    (link : ∀ anchor, P (.link anchor))
    (sequence : ∀ tag items, (∀ t ∈ items, P t) → P (.sequence tag items))
    (mapping : ∀ tag members, (∀ m ∈ members, P m.1 ∧ P m.2) → P (.mapping tag members)) :
    (t : Node) → P t
  | .scalar text style tag => scalar text style tag
  | .sequence tag items => sequence tag items (induct_items scalar link sequence mapping items)
  | .mapping tag members =>
    mapping tag members (induct_members scalar link sequence mapping members)
  | .link anchor => link anchor

theorem induct_items {P : Node → Prop} (scalar : ∀ text style tag, P (.scalar text style tag))
    (link : ∀ anchor, P (.link anchor))
    (sequence : ∀ tag items, (∀ t ∈ items, P t) → P (.sequence tag items))
    (mapping : ∀ tag members, (∀ m ∈ members, P m.1 ∧ P m.2) → P (.mapping tag members)) :
    (ts : List Node) → ∀ t ∈ ts, P t
  | [] => by simp
  | t :: ts => List.forall_mem_cons.mpr
    ⟨induct scalar link sequence mapping t, induct_items scalar link sequence mapping ts⟩

theorem induct_members {P : Node → Prop} (scalar : ∀ text style tag, P (.scalar text style tag))
    (link : ∀ anchor, P (.link anchor))
    (sequence : ∀ tag items, (∀ t ∈ items, P t) → P (.sequence tag items))
    (mapping : ∀ tag members, (∀ m ∈ members, P m.1 ∧ P m.2) → P (.mapping tag members)) :
    (ms : List (Node × Node)) → ∀ m ∈ ms, P m.1 ∧ P m.2
  | [] => by simp
  | (key, value) :: ms => List.forall_mem_cons.mpr
    ⟨⟨induct scalar link sequence mapping key, induct scalar link sequence mapping value⟩,
      induct_members scalar link sequence mapping ms⟩

end

/-- Whether a node is an alias. -/
def isLink : Node → Bool
  | .link _ => true
  | _ => false

end Node

/-- The nodes that anchors stand for, by number. -/
structure Anchors where
  node : Nat → Node
  isLink_node : ∀ n, (node n).isLink = false

/-- Whether every alias in a document leads to the node that its anchor stands for. -/
def Document.Resolves (d : Document) (anchors : Anchors) : Prop :=
  ∀ n, .alias n ∈ d.events.map (·.event) →
    ∃ after, (d.anchored n).map (·.event) = (anchors.node n).events ++ after

/-- Whether a text is one whole document with a node in it. -/
structure Node.IsDocument (t : Node) (anchors : Anchors) (text : String) : Prop where
  events : (Document.ofText text).events.map (·.event) = t.events
  resolves : (Document.ofText text).Resolves anchors
  whole : (Document.ofText text).defect = none
  alone : (Document.ofText text).continued = false

namespace EventReader

/-! ### What reading adds -/

/-- Whether an anchor stands at a node among events, the first of which has a place. -/
def Marks (es : List Event) (start : Nat) (a : Nat × Nat) : Prop :=
  ∃ (before : List Event) (t : Node) (after : List Event), es = before ++ (t.events ++ after) ∧
    a.2 = start + before.length ∧ t.isLink = false

/-- Whether every name of an anchor has a number with a place. -/
def Numbered (s : EventState) : Prop := ∀ p ∈ s.names, ∃ a ∈ s.anchors, a.1 = p.2

/-- Whether some events are what a state has more than another. -/
structure Adds (es : List Event) (s s' : EventState) : Prop where
  events : s'.events.map (·.event) = es.reverse ++ s.events.map (·.event)
  count : s'.count = s.count + es.length
  anchors : ∃ new, s'.anchors = new ++ s.anchors ∧ ∀ a ∈ new, Marks es s.count a
  numbered : Numbered s → Numbered s' ∧ ∀ n, .alias n ∈ es → ∃ a ∈ s'.anchors, a.1 = n

section Adding

variable {α β : Type} {s s' s'' : EventState} {es fs : List Event} {start : Nat} {a : Nat × Nat}

theorem Marks.append_right (h : Marks es start a) (fs : List Event) :
    Marks (es ++ fs) start a := by
  obtain ⟨before, t, after, rfl, hplace, ht⟩ := h
  exact ⟨before, t, after ++ fs, by simp only [List.append_assoc], hplace, ht⟩

theorem Marks.append_left (h : Marks fs (start + es.length) a) : Marks (es ++ fs) start a := by
  obtain ⟨before, t, after, rfl, hplace, ht⟩ := h
  refine ⟨es ++ before, t, after, by simp only [List.append_assoc], ?_, ht⟩
  rw [hplace, List.length_append, Nat.add_assoc]

theorem adds_nil (hevents : s'.events = s.events) (hcount : s'.count = s.count)
    (hnames : s'.names = s.names) (hanchors : s'.anchors = s.anchors) : Adds [] s s' where
  events := by rw [hevents]; rfl
  count := hcount
  anchors := ⟨[], hanchors, by simp⟩
  numbered h := ⟨by rwa [Numbered, hnames, hanchors], by simp⟩

theorem Adds.trans (h : Adds es s s') (h' : Adds fs s' s'') : Adds (es ++ fs) s s'' where
  events := by rw [h'.events, h.events, List.reverse_append, List.append_assoc]
  count := by rw [h'.count, h.count, List.length_append, Nat.add_assoc]
  anchors := by
    obtain ⟨new, hnew, hmarks⟩ := h.anchors
    obtain ⟨new', hnew', hmarks'⟩ := h'.anchors
    refine ⟨new' ++ new, by rw [hnew', hnew, List.append_assoc], fun a ha => ?_⟩
    obtain ha | ha := List.mem_append.mp ha
    · have := hmarks' a ha
      rw [h.count] at this
      exact this.append_left
    · exact (hmarks a ha).append_right fs
  numbered hs := by
    obtain ⟨hs', haliases⟩ := h.numbered hs
    obtain ⟨hs'', haliases'⟩ := h'.numbered hs'
    refine ⟨hs'', fun n hn => ?_⟩
    obtain hn | hn := List.mem_append.mp hn
    · obtain ⟨a, ha, heq⟩ := haliases n hn
      obtain ⟨new, hnew, -⟩ := h'.anchors
      exact ⟨a, by rw [hnew]; exact List.mem_append_right _ ha, heq⟩
    · exact haliases' n hn

end Adding

/-- Whether a reader that succeeds adds events of a certain form. -/
def Yields {α : Type} (r : EventReader α) (form : List Event → Prop) : Prop :=
  ∀ ⦃s a s'⦄, r s = .ok a s' → ∃ es, form es ∧ Adds es s s'

/-- Whether a reader adds no events. -/
def Silent {α : Type} (r : EventReader α) : Prop := ∀ ⦃s a s'⦄, r s = .ok a s' → Adds [] s s'

section Steps

variable {α β : Type} {form form' form'' : List Event → Prop}

theorem bind_eq_ok {r : EventReader α} {k : α → EventReader β} {s s' : EventState} {b : β} :
    (r >>= k) s = .ok b s' ↔ ∃ a t, r s = .ok a t ∧ k a t = .ok b s' := by
  constructor
  · intro h
    cases hr : r s with
    | error f t =>
      have : (r >>= k) s = .error f t := by
        show EStateM.bind r k s = _
        rw [EStateM.bind, hr]
      rw [this] at h
      cases h
    | ok a t => exact ⟨a, t, rfl, (bind_ok hr k).symm.trans h⟩
  · rintro ⟨a, t, hr, hk⟩
    rw [bind_ok hr, hk]

theorem Yields.bind {r : EventReader α} {k : α → EventReader β} (h : Yields r form)
    (h' : ∀ a, Yields (k a) form') (hform : ∀ es fs, form es → form' fs → form'' (es ++ fs)) :
    Yields (r >>= k) form'' := by
  intro s b s' hr
  obtain ⟨a, t, ha, hb⟩ := bind_eq_ok.mp hr
  obtain ⟨es, hes, hadds⟩ := h ha
  obtain ⟨fs, hfs, hadds'⟩ := h' a hb
  exact ⟨es ++ fs, hform es fs hes hfs, hadds.trans hadds'⟩

theorem Silent.bind {r : EventReader α} {k : α → EventReader β} (h : Silent r)
    (h' : ∀ a, Yields (k a) form) : Yields (r >>= k) form := by
  intro s b s' hr
  obtain ⟨a, t, ha, hb⟩ := bind_eq_ok.mp hr
  obtain ⟨es, hes, hadds⟩ := h' a hb
  exact ⟨es, hes, (h ha).trans hadds⟩

theorem Silent.and {r : EventReader α} {k : α → EventReader β} (h : Silent r)
    (h' : ∀ a, Silent (k a)) : Silent (r >>= k) := by
  intro s b s' hr
  obtain ⟨a, t, ha, hb⟩ := bind_eq_ok.mp hr
  exact (h ha).trans (h' a hb)

theorem yields_fail (p : Problem) (m : Mark) (context : Option (Activity × Mark)) :
    Yields (fail p m context : EventReader α) form := by
  intro s a s' h
  cases h

theorem silent_pure (a : α) : Silent (pure a) := by
  intro s b s' h
  cases h
  exact adds_nil rfl rfl rfl rfl

theorem silent_peek : Silent peek := by
  intro s t s' h
  rw [peek] at h
  split at h <;> cases h
  exact adds_nil rfl rfl rfl rfl

theorem silent_skip : Silent skip := by
  intro s t s' h
  cases h
  exact adds_nil rfl rfl rfl rfl

theorem silent_get : Silent get := by
  intro s t s' h
  cases h
  exact adds_nil rfl rfl rfl rfl

theorem silent_fail (p : Problem) (m : Mark) (context : Option (Activity × Mark)) :
    Silent (fail p m context : EventReader α) := by
  intro s a s' h
  cases h

theorem silent_anchor? : Silent anchor? := by
  refine silent_peek.and fun t => ?_
  split
  · exact silent_skip.and fun _ => silent_pure _
  · exact silent_pure _

theorem silent_tag? : Silent tag? := by
  refine silent_peek.and fun t => ?_
  split
  · exact silent_skip.and fun _ => silent_pure _
  · exact silent_pure _

theorem silent_resolveTag (start : Mark) (tag : Option (String × String × Mark)) :
    Silent (resolveTag start tag) := by
  cases tag with
  | none => exact silent_pure _
  | some t =>
    obtain ⟨handle, suffix, m⟩ := t
    rw [resolveTag]
    split
    · exact silent_pure _
    · refine silent_get.and fun s => ?_
      split
      · exact silent_pure _
      · exact silent_fail _ _ _

theorem silent_properties : Silent properties := by
  refine silent_peek.and fun t => silent_anchor?.and fun before => silent_tag?.and fun tag => ?_
  have hrest (anchor : Option String) : Silent (do
      let _ ← peek
      return (⟨anchor, ← resolveTag t.start tag, t.start⟩ : Properties)) :=
    silent_peek.and fun _ => (silent_resolveTag _ _).and fun _ => silent_pure _
  cases before with
  | some name => exact (silent_pure _).and hrest
  | none => exact silent_anchor?.and hrest

end Steps

/-! ### Events -/

/-- Whether events are those of a node. -/
def IsNode (es : List Event) : Prop := ∃ t : Node, es = t.events

section Events

variable {form : List Event → Prop} {e : Event}

theorem yields_emit (he : ∀ n, e ≠ .alias n) (m : Mark) : Yields (emit e m) (· = [e]) := by
  intro s a s' h
  cases h
  refine ⟨[e], rfl, rfl, rfl, ⟨[], rfl, by simp⟩, fun hs => ⟨hs, fun n hn => ?_⟩⟩
  exact absurd (List.mem_singleton.mp hn).symm (he n)

theorem yields_emitAlias (name : String) (m : Mark) :
    Yields (emitAlias name m) IsNode := by
  intro s a s' h
  rw [emitAlias] at h
  split at h
  · rename_i number hnumber
    cases h
    refine ⟨[.alias number], ⟨.link number, rfl⟩, rfl, rfl, ⟨[], rfl, by simp⟩, fun hs => ⟨hs, ?_⟩⟩
    intro n hn
    obtain rfl : n = number := by simpa using hn
    obtain ⟨before, after, hnames, -⟩ := List.lookup_eq_some_iff.mp hnumber
    exact hs (name, n) (by simp [hnames])
  · cases h

/-- The first event of a node, and what comes after it. -/
theorem adds_emitNode {s mid s' : EventState} {u : Unit} {es : List Event} {anchor : Option String}
    {m : Mark} (hemit : emitNode e anchor m s = .ok u mid) (hadds : Adds es mid s') {t : Node}
    (ht : e :: es = t.events) (body : t.isLink = false) : Adds t.events s s' := by
  rw [← ht]
  have he (n : Nat) : e ≠ .alias n := by
    rintro rfl
    cases t with
    | link => cases body
    | _ => cases ht
  cases anchor with
  | none =>
    obtain ⟨fs, rfl, hadds'⟩ := yields_emit he m hemit
    exact hadds'.trans hadds
  | some name =>
    cases hemit
    obtain ⟨new, hnew, hmarks⟩ := hadds.anchors
    refine ⟨?_, ?_, ⟨new ++ [(s.names.length, s.count)], ?_, ?_⟩, ?_⟩
    · rw [hadds.events]
      simp
    · rw [hadds.count]
      simp only [List.length_cons]
      omega
    · rw [hnew, List.append_assoc]
      rfl
    · intro a ha
      obtain ha | ha := List.mem_append.mp ha
      · show Marks ([e] ++ es) s.count a
        exact (hmarks a ha).append_left
      · -- The new anchor stands at the whole node.
        obtain rfl := List.mem_singleton.mp ha
        exact ⟨[], t, [], by simp [ht], rfl, body⟩
    · intro hs
      obtain ⟨hs', haliases⟩ := hadds.numbered (by
        intro p hp
        obtain rfl | hp := List.mem_cons.mp (show p ∈ _ :: _ from hp)
        · exact ⟨_, List.mem_cons_self, rfl⟩
        · obtain ⟨a, ha, heq⟩ := hs p (List.mem_filter.mp hp).1
          exact ⟨a, List.mem_cons_of_mem _ ha, heq⟩)
      refine ⟨hs', fun n hn => ?_⟩
      obtain hn | hn := List.mem_cons.mp hn
      · exact absurd hn.symm (he n)
      · exact haliases n hn

end Events

/-! ### Nodes -/

/-- Whether events are the items of a sequence and its end. -/
def IsItems (es : List Event) : Prop := ∃ ts, es = Node.allEvents ts ++ [.sequenceEnd]

/-- Whether events are the members of a mapping and its end. -/
def IsMembers (es : List Event) : Prop := ∃ ms, es = Node.pairEvents ms ++ [.mappingEnd]

/-- Whether events are a node and what follows it. -/
def IsNodeThen (form : List Event → Prop) (es : List Event) : Prop :=
  ∃ (t : Node) (fs : List Event), es = t.events ++ fs ∧ form fs

/-- Whether events are one member and the end of its mapping. -/
def IsPair : List Event → Prop := IsNodeThen (IsNodeThen (· = [.mappingEnd]))

theorem isItems_end {es : List Event} (h : es = [.sequenceEnd]) : IsItems es := ⟨[], h⟩

theorem isMembers_end {es : List Event} (h : es = [.mappingEnd]) : IsMembers es := ⟨[], h⟩

theorem IsItems.of_node {es : List Event} (h : IsNodeThen IsItems es) : IsItems es := by
  obtain ⟨t, fs, rfl, ts, rfl⟩ := h
  exact ⟨t :: ts, by rw [Node.allEvents, List.append_assoc]⟩

theorem IsMembers.of_node {es : List Event} (h : IsNodeThen (IsNodeThen IsMembers) es) :
    IsMembers es := by
  obtain ⟨k, fs, rfl, v, gs, rfl, ms, rfl⟩ := h
  exact ⟨(k, v) :: ms, by simp only [Node.pairEvents, List.append_assoc]⟩

theorem IsPair.exists_events {es : List Event} (h : IsPair es) :
    ∃ m, es = Node.pairEvents [m] ++ [.mappingEnd] := by
  obtain ⟨k, fs, rfl, v, gs, rfl, rfl⟩ := h
  exact ⟨(k, v), by simp only [Node.pairEvents, List.append_assoc, List.nil_append]⟩

section Forms

variable {form form' : List Event → Prop}

theorem Yields.mono {α : Type} {r : EventReader α} (h : Yields r form)
    (hform : ∀ {es}, form es → form' es) : Yields r form' := by
  intro s a s' hr
  obtain ⟨es, hes, hadds⟩ := h hr
  exact ⟨es, hform hes, hadds⟩

theorem Yields.node {r : EventReader Unit} {k : Unit → EventReader Unit} (h : Yields r IsNode)
    (hk : ∀ u, Yields (k u) form) : Yields (r >>= k) (IsNodeThen form) :=
  h.bind hk fun es fs hes hfs => by
    obtain ⟨t, rfl⟩ := hes
    exact ⟨t, fs, rfl, hfs⟩

theorem Yields.after {α β : Type} {r : EventReader α} {k : α → EventReader β} (h : Yields r form)
    (h' : ∀ a, Silent (k a)) : Yields (r >>= k) form := by
  intro s b s' hr
  obtain ⟨a, t, ha, hb⟩ := bind_eq_ok.mp hr
  obtain ⟨es, hes, hadds⟩ := h ha
  refine ⟨es, hes, ?_⟩
  have := hadds.trans (h' a hb)
  rwa [List.append_nil] at this

theorem silent_ite {α : Type} {c : Prop} [Decidable c] {r r' : EventReader α} (h : Silent r)
    (h' : Silent r') : Silent (if c then r else r') := by
  split
  · exact h
  · exact h'

theorem yields_ite {α : Type} {c : Prop} [Decidable c] {r r' : EventReader α} (h : Yields r form)
    (h' : Yields r' form) : Yields (if c then r else r') form := by
  split
  · exact h
  · exact h'

theorem yields_emitEmpty (m : Mark) : Yields (emitEmpty m) IsNode :=
  (yields_emit (by simp) m).mono fun h => ⟨.scalar "" .plain none, h⟩

theorem yields_scalar (text : String) (style : ScalarStyle) (tag anchor : Option String)
    (m : Mark) : Yields (emitNode (.scalar text style tag) anchor m) IsNode := by
  intro s u s' h
  exact ⟨_, ⟨_, rfl⟩, adds_emitNode h (adds_nil rfl rfl rfl rfl) (t := .scalar text style tag) rfl rfl⟩

theorem yields_sequence (tag anchor : Option String) (m : Mark)
    {k : Unit → EventReader Unit} (h : Yields (k ()) IsItems) :
    Yields (emitNode (.sequenceStart tag) anchor m >>= k) IsNode := by
  intro s u s' hr
  obtain ⟨_, mid, hemit, hk⟩ := bind_eq_ok.mp hr
  obtain ⟨es, ⟨ts, rfl⟩, hadds⟩ := h hk
  exact ⟨_, ⟨_, rfl⟩, adds_emitNode hemit hadds (t := .sequence tag ts) rfl rfl⟩

theorem yields_mapping (tag anchor : Option String) (m : Mark)
    {k : Unit → EventReader Unit} (h : Yields (k ()) IsMembers) :
    Yields (emitNode (.mappingStart tag) anchor m >>= k) IsNode := by
  intro s u s' hr
  obtain ⟨_, mid, hemit, hk⟩ := bind_eq_ok.mp hr
  obtain ⟨es, ⟨ms, rfl⟩, hadds⟩ := h hk
  exact ⟨_, ⟨_, rfl⟩, adds_emitNode hemit hadds (t := .mapping tag ms) rfl rfl⟩

end Forms

/-- Whether everything that is read with some fuel is whole. -/
structure Yielding (fuel : Nat) : Prop where
  node : ∀ inBlock flush, Yields (node fuel inBlock flush) IsNode
  blockItems : ∀ opened, Yields (blockItems fuel opened) IsItems
  flushItems : Yields (flushItems fuel) IsItems
  blockMembers : ∀ opened, Yields (blockMembers fuel opened) IsMembers
  flowItems : ∀ first opened, Yields (flowItems fuel first opened) IsItems
  flowPair : Yields (flowPair fuel) IsPair
  flowMembers : ∀ first opened, Yields (flowMembers fuel first opened) IsMembers

section Reading

variable {fuel : Nat} (ih : Yielding fuel)

theorem yielding_zero : Yielding 0 where
  node _ _ := silent_peek.bind fun _ => yields_fail _ _ _
  blockItems _ := silent_peek.bind fun _ => yields_fail _ _ _
  flushItems := silent_peek.bind fun _ => yields_fail _ _ _
  blockMembers _ := silent_peek.bind fun _ => yields_fail _ _ _
  flowItems _ _ := silent_peek.bind fun _ => yields_fail _ _ _
  flowPair := silent_peek.bind fun _ => yields_fail _ _ _
  flowMembers _ _ := silent_peek.bind fun _ => yields_fail _ _ _

include ih

theorem yields_blockItems (opened : Mark) : Yields (blockItems (fuel + 1) opened) IsItems := by
  rw [blockItems]
  refine silent_peek.bind fun t => ?_
  split
  · refine silent_skip.bind fun _ => silent_peek.bind fun _ => (yields_ite ?_ ?_).mono .of_node
    · exact (yields_emitEmpty _).node fun _ => ih.blockItems opened
    · exact (ih.node _ _).node fun _ => ih.blockItems opened
  · exact silent_skip.bind fun _ => (yields_emit (by simp) _).mono isItems_end
  · exact yields_fail _ _ _

theorem yields_flushItems : Yields (flushItems (fuel + 1)) IsItems := by
  rw [flushItems]
  refine silent_peek.bind fun t => ?_
  split
  · refine silent_skip.bind fun _ => silent_peek.bind fun _ => (yields_ite ?_ ?_).mono .of_node
    · exact (yields_emitEmpty _).node fun _ => ih.flushItems
    · exact (ih.node _ _).node fun _ => ih.flushItems
  · exact (yields_emit (by simp) _).mono isItems_end

/-- The value of a member of a block, and the members after it. -/
theorem yields_blockValue (opened : Mark) : Yields (do
    let v ← peek
    match v.kind with
    | .value =>
      skip
      if isOneOf (← peek) [.key, .value, .blockEnd] then emitEmpty v.stop
      else node fuel true true
    | _ => emitEmpty v.start
    blockMembers fuel opened) (IsNodeThen IsMembers) := by
  refine silent_peek.bind fun v => ?_
  split
  · refine silent_skip.bind fun _ => silent_peek.bind fun _ => yields_ite ?_ ?_
    · exact (yields_emitEmpty _).node fun _ => ih.blockMembers opened
    · exact (ih.node _ _).node fun _ => ih.blockMembers opened
  · exact (yields_emitEmpty _).node fun _ => ih.blockMembers opened

theorem yields_blockMembers (opened : Mark) :
    Yields (blockMembers (fuel + 1) opened) IsMembers := by
  rw [blockMembers]
  refine silent_peek.bind fun t => ?_
  split
  · have hvalue (_ : Unit) := yields_blockValue ih opened
    refine silent_skip.bind fun _ => silent_peek.bind fun _ => (yields_ite ?_ ?_).mono .of_node
    · exact (yields_emitEmpty _).node hvalue
    · exact (ih.node _ _).node hvalue
  · exact silent_skip.bind fun _ => (yields_emit (by simp) _).mono isMembers_end
  · exact yields_fail _ _ _

/-- An item of a flow sequence and those after it, or the end of the sequence. -/
theorem yields_flowItem (opened : Mark) : Yields (do
    let t ← peek
    match t.kind with
    | .flowSequenceEnd =>
      skip
      emit .sequenceEnd t.start
    | .key =>
      skip
      emit (.mappingStart none) t.start
      flowPair fuel
      flowItems fuel false opened
    | _ =>
      node fuel false false
      flowItems fuel false opened) IsItems := by
  refine silent_peek.bind fun t => ?_
  split
  · exact silent_skip.bind fun _ => (yields_emit (by simp) _).mono isItems_end
  · refine silent_skip.bind fun _ => ?_
    -- A member among the items is a mapping of its own.
    have hpair : Yields (do flowPair fuel; flowItems fuel false opened) fun es =>
        ∃ m fs, es = Node.pairEvents [m] ++ .mappingEnd :: fs ∧ IsItems fs :=
      ih.flowPair.bind (fun _ => ih.flowItems _ _) fun es fs hes hfs => by
        obtain ⟨m, rfl⟩ := hes.exists_events
        exact ⟨m, fs, by simp only [List.append_assoc, List.cons_append, List.nil_append], hfs⟩
    refine (yields_emit (by simp) _).bind (fun _ => hpair) fun es fs hes hfs => ?_
    obtain ⟨m, gs, rfl, hgs⟩ := hfs
    refine IsItems.of_node ⟨.mapping none [m], gs, ?_, hgs⟩
    rw [hes]
    simp only [Node.events, List.append_assoc, List.cons_append, List.nil_append]
  · exact ((ih.node _ _).node fun _ => ih.flowItems _ _).mono .of_node

theorem yields_flowItems (first : Bool) (opened : Mark) :
    Yields (flowItems (fuel + 1) first opened) IsItems := by
  rw [flowItems]
  have hitem (_ : Unit) := yields_flowItem ih opened
  refine silent_peek.bind fun t => yields_ite (yields_ite ?_ ?_) (hitem ())
  · exact silent_skip.bind hitem
  · exact (yields_fail _ _ _)

theorem yields_flowPair : Yields (flowPair (fuel + 1)) IsPair := by
  rw [flowPair]
  have hend (_ : Unit) : Yields (do emit .mappingEnd (← peek).start) (· = [.mappingEnd]) :=
    silent_peek.bind fun _ => yields_emit (by simp) _
  have hvalue (_ : Unit) : Yields (do
      if (← peek).kind == .value then
        skip
        let v ← peek
        if isOneOf v [.flowEntry, .flowSequenceEnd] then emitEmpty v.start
        else node fuel false false
      else emitEmpty (← peek).start
      emit .mappingEnd (← peek).start) (IsNodeThen (· = [.mappingEnd])) := by
    refine silent_peek.bind fun _ => yields_ite ?_ ?_
    · refine silent_skip.bind fun _ => silent_peek.bind fun _ => yields_ite ?_ ?_
      · exact (yields_emitEmpty _).node hend
      · exact (ih.node _ _).node hend
    · exact silent_peek.bind fun _ => (yields_emitEmpty _).node hend
  refine silent_peek.bind fun t => yields_ite ?_ ?_
  · exact silent_skip.bind fun _ => (yields_emitEmpty _).node hvalue
  · exact (ih.node _ _).node hvalue

/-- The value of a member of a flow mapping, and the members after it. -/
theorem yields_flowValue (opened : Mark) : Yields (do
    if (← peek).kind == .value then
      skip
      let v ← peek
      if isOneOf v [.flowEntry, .flowMappingEnd] then emitEmpty v.start
      else node fuel false false
    else emitEmpty (← peek).start
    flowMembers fuel false opened) (IsNodeThen IsMembers) := by
  have hrest (_ : Unit) := ih.flowMembers false opened
  refine silent_peek.bind fun _ => yields_ite ?_ ?_
  · refine silent_skip.bind fun _ => silent_peek.bind fun _ => yields_ite ?_ ?_
    · exact (yields_emitEmpty _).node hrest
    · exact (ih.node _ _).node hrest
  · exact silent_peek.bind fun _ => (yields_emitEmpty _).node hrest

/-- A member of a flow mapping and those after it, or the end of the mapping. -/
theorem yields_flowMember (opened : Mark) : Yields (do
    let t ← peek
    match t.kind with
    | .flowMappingEnd =>
      skip
      emit .mappingEnd t.start
    | .key =>
      skip
      let k ← peek
      if isOneOf k [.value, .flowEntry, .flowMappingEnd] then emitEmpty k.start
      else node fuel false false
      if (← peek).kind == .value then
        skip
        let v ← peek
        if isOneOf v [.flowEntry, .flowMappingEnd] then emitEmpty v.start
        else node fuel false false
      else emitEmpty (← peek).start
      flowMembers fuel false opened
    | _ =>
      node fuel false false
      emitEmpty (← peek).start
      flowMembers fuel false opened) IsMembers := by
  have hvalue (_ : Unit) := yields_flowValue ih opened
  refine silent_peek.bind fun t => ?_
  split
  · exact silent_skip.bind fun _ => (yields_emit (by simp) _).mono isMembers_end
  · refine silent_skip.bind fun _ => silent_peek.bind fun _ => (yields_ite ?_ ?_).mono .of_node
    · exact (yields_emitEmpty _).node hvalue
    · exact (ih.node _ _).node hvalue
  · refine Yields.mono ((ih.node _ _).node fun _ => ?_) .of_node
    exact silent_peek.bind fun _ => (yields_emitEmpty _).node fun _ => ih.flowMembers false opened

theorem yields_flowMembers (first : Bool) (opened : Mark) :
    Yields (flowMembers (fuel + 1) first opened) IsMembers := by
  rw [flowMembers]
  have hmember (_ : Unit) := yields_flowMember ih opened
  refine silent_peek.bind fun t => yields_ite (yields_ite ?_ ?_) (hmember ())
  · exact silent_skip.bind hmember
  · exact (yields_fail _ _ _)

theorem yields_node (inBlock flush : Bool) : Yields (node (fuel + 1) inBlock flush) IsNode := by
  rw [node]
  refine silent_peek.bind fun first => ?_
  split
  · exact silent_skip.bind fun _ => yields_emitAlias _ _
  · refine silent_properties.bind fun p => silent_peek.bind fun t => ?_
    split
    · exact silent_skip.bind fun _ => yields_scalar _ _ _ _ _
    · exact yields_sequence _ _ _ (silent_skip.bind fun _ => ih.flowItems _ _)
    · exact yields_mapping _ _ _ (silent_skip.bind fun _ => ih.flowMembers _ _)
    · refine yields_ite (yields_sequence _ _ _ ih.flushItems) (yields_ite ?_ (yields_ite ?_
        (yields_ite (yields_scalar _ _ _ _ _) (yields_fail _ _ _))))
      · exact yields_sequence _ _ _ (silent_skip.bind fun _ => ih.blockItems _)
      · exact yields_mapping _ _ _ (silent_skip.bind fun _ => ih.blockMembers _)

end Reading

/-- Everything that is read is whole. -/
theorem yielding (fuel : Nat) : Yielding fuel := by
  induction fuel with
  | zero => exact yielding_zero
  | succ fuel ih =>
    exact ⟨yields_node ih, yields_blockItems ih, yields_flushItems ih, yields_blockMembers ih,
      yields_flowItems ih, yields_flowPair ih, yields_flowMembers ih⟩

/-! ### Documents -/

/-- Whether events are those of a document. -/
def IsContent (es : List Event) : Prop := es = [.void] ∨ IsNode es

theorem silent_directives (fuel : Nat) (version : Bool) (handles : List (String × String)) :
    Silent (directives fuel version handles) := by
  induction fuel generalizing version handles with
  | zero => exact silent_pure ()
  | succ fuel ih =>
    rw [directives]
    refine silent_peek.and fun t => ?_
    split
    · have hrest (_ : Unit) : Silent (do skip; directives fuel true handles) :=
        silent_skip.and fun _ => ih true handles
      have hversion (major minor : Nat) (_ : Unit) : Silent (do
          if major ≠ 1 ∨ minor ≠ 1 ∧ minor ≠ 2 then fail .otherVersion t.start none
          skip
          directives fuel true handles) :=
        silent_ite ((silent_fail _ _ _).and hrest) (hrest ())
      exact silent_ite ((silent_fail _ _ _).and (hversion _ _)) (hversion _ _ ())
    · have hrest (handle leading : String) (_ : Unit) : Silent (do
          skip
          directives fuel version ((handle, leading) :: handles)) :=
        silent_skip.and fun _ => ih _ _
      exact silent_ite ((silent_fail _ _ _).and (hrest _ _)) (hrest _ _ ())
    · intro s u s' h
      cases h
      exact adds_nil rfl rfl rfl rfl

theorem yields_document : Yields document IsContent := by
  rw [document]
  refine silent_get.bind fun s => silent_skip.bind fun _ => silent_peek.bind fun t => ?_
  refine yields_ite ((yields_emit (by simp) _).mono .inl) ?_
  refine (silent_directives _ _ _).bind fun _ => ?_
  suffices h : Yields _ IsNode from h.mono .inr
  have hend (_ : Unit) : Silent (do if (← peek).kind == .documentEnd then skip) :=
    silent_peek.and fun _ => silent_ite silent_skip (silent_pure ())
  have hnode := (yielding (3 * s.tokens.length + 10)).node true false
  refine yields_ite (hnode.after hend) (silent_peek.bind fun start => ?_)
  have hcontent (_ : Unit) : Yields (do
      skip
      let content ← peek
      if isBoundary content || content.kind == .documentEnd then emitEmpty content.start
      else node (3 * s.tokens.length + 10) true false
      if (← peek).kind == .documentEnd then skip) IsNode :=
    silent_skip.bind fun _ => silent_peek.bind fun _ =>
      yields_ite ((yields_emitEmpty _).after hend) (hnode.after hend)
  exact yields_ite ((silent_fail _ _ _).bind hcontent) (hcontent ())

end EventReader

namespace Document

/-- The place of an anchor with a number is where a node begins. -/
theorem exists_anchored {d : Document}
    (hmarks : ∀ a ∈ d.anchors, EventReader.Marks (d.events.map (·.event)) 0 a) {n : Nat}
    (known : ∃ a ∈ d.anchors, a.1 = n) : ∃ u : Node, u.isLink = false ∧
      ∃ after, (d.anchored n).map (·.event) = u.events ++ after := by
  obtain ⟨a, ha, rfl⟩ := known
  cases hlookup : d.anchors.lookup a.1 with
  | none =>
    have := List.lookup_eq_none_iff.mp hlookup a ha
    simp at this
  | some place =>
    obtain ⟨l, r, hl, -⟩ := List.lookup_eq_some_iff.mp hlookup
    obtain ⟨before, u, after, hes, hplace, body⟩ := hmarks (a.1, place) (by simp [hl])
    refine ⟨u, body, after, ?_⟩
    obtain rfl : place = before.length := by simpa using hplace
    rw [anchored, hlookup, Option.getD_some, List.map_drop, hes, List.drop_left]

/-- Aliases whose anchors are known lead to nodes. -/
theorem exists_resolves {d : Document}
    (hmarks : ∀ a ∈ d.anchors, EventReader.Marks (d.events.map (·.event)) 0 a)
    (known : ∀ n, .alias n ∈ d.events.map (·.event) → ∃ a ∈ d.anchors, a.1 = n) :
    ∃ anchors : Anchors, d.Resolves anchors := by
  have hanchor (n : Nat) : ∃ u : Node, u.isLink = false ∧ (.alias n ∈ d.events.map (·.event) →
      ∃ after, (d.anchored n).map (·.event) = u.events ++ after) := by
    by_cases hn : .alias n ∈ d.events.map (·.event)
    · obtain ⟨u, body, after⟩ := exists_anchored hmarks (known n hn)
      exact ⟨u, body, fun _ => after⟩
    · -- A number that no alias has may stand for any node.
      exact ⟨.scalar "" .plain none, rfl, fun h => absurd h hn⟩
  obtain ⟨node, hnode⟩ := Classical.axiomOfChoice hanchor
  exact ⟨⟨node, fun n => (hnode n).1⟩, fun n => (hnode n).2⟩

/-- The events of a document without a defect are those of a node, unless it is empty, and its
aliases lead to nodes. -/
theorem exists_node (text : String) (whole : (ofText text).defect = none) :
    (ofText text).events.map (·.event) = [.void] ∨ ∃ (t : Node) (anchors : Anchors),
      (ofText text).events.map (·.event) = t.events ∧ (ofText text).Resolves anchors := by
  generalize hts : TokenStream.ofText text.toList = ts
  cases hr : EventReader.document
      { tokens := ts.tokens, fault := ts.fault.getD ⟨.tokens, .endOfText, {}, none⟩ } with
  | error e s =>
    simp only [ofText, hts, ofTokens, hr] at whole
    cases whole
  | ok u s =>
    simp only [ofText, hts, ofTokens, hr]
    obtain ⟨es, hform, hadds⟩ := EventReader.yields_document hr
    have hevents : s.events.reverse.map (·.event) = es := by
      rw [List.map_reverse, hadds.events]
      simp
    obtain hvoid | ⟨t, ht⟩ := hform
    · exact .inl (hevents.trans hvoid)
    obtain ⟨new, hnew, hmarks⟩ := hadds.anchors
    obtain rfl : s.anchors = new := by rw [hnew, List.append_nil]
    obtain ⟨-, hknown⟩ := hadds.numbered (by simp [EventReader.Numbered])
    subst hevents
    obtain ⟨anchors, hresolves⟩ := exists_resolves
      (d := ⟨s.events.reverse, s.anchors, none, continues s.tokens⟩) hmarks hknown
    exact .inr ⟨t, anchors, ht, hresolves⟩

end Document

end ApiSurface.Yaml
