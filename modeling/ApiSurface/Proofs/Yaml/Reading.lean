/-
Reading values from the events of a written tree.

`Reads r es a` says that the reader `r` takes events away that are `es`, apart from the points where
they stand, and gives `a`, whatever follows. No written tree has an alias, so no reader jumps.

* `reads_items`, `reads_members` — the items of a sequence, the members of a mapping;
* `reads_content` — a value of any kind, as the content of its tree.
-/
import ApiSurface.Proofs.Wire.Kept
import ApiSurface.Proofs.Yaml.Events
import ApiSurface.Proofs.Yaml.Number
import ApiSurface.Yaml.Decode

namespace ApiSurface.Yaml

/-- The events that a node without an alias may start with. -/
def Event.startsNode : Event → Bool
  | .scalar .. | .sequenceStart _ | .mappingStart _ => true
  | _ => false

theorem exists_events_cons (tag : Option String) :
    (t : Tree) → ∃ e es, events tag t = e :: es ∧ e.startsNode = true
  | .null | .bool _ | .number _ | .text _ => ⟨_, _, rfl, rfl⟩
  | .list _ | .record _ => ⟨_, _, rfl, rfl⟩
  | .tagged name value => exists_events_cons (some ("!" ++ name)) value

theorem length_le_itemEvents (ts : List Tree) : ts.length ≤ (itemEvents ts).length := by
  induction ts with
  | nil => exact Nat.zero_le _
  | cons t ts ih =>
    obtain ⟨e, es, he, -⟩ := exists_events_cons none t
    simp only [itemEvents, he, List.length_cons, List.length_append]
    omega

theorem length_le_memberEvents (ms : List (String × Tree)) :
    ms.length ≤ (memberEvents ms).length := by
  induction ms with
  | nil => exact Nat.zero_le _
  | cons m ms ih =>
    simp only [memberEvents, List.length_cons, List.length_append]
    omega

namespace Reader

/-- Whether a reader takes some events away and gives a value, whatever follows. -/
def Reads {α : Type} (r : Reader α) (es : List Event) (a : α) : Prop :=
  ∀ (s : State) (after : List Event), s.rest.map (·.event) = es ++ after →
    ∃ s', r s = .ok a s' ∧ s'.rest.map (·.event) = after ∧ s'.ignored = s.ignored

/-! ### Steps -/

section Steps

variable {α β : Type} {sc : Scope} {e : Event} {es fs : List Event} {a : α} {b : β}

theorem bind_ok {r : Reader α} {s s' : State} (h : r s = .ok a s') (f : α → Reader β) :
    (r >>= f) s = f a s' := by
  show (EStateM.bind r f) s = _
  rw [EStateM.bind, h]

theorem reads_pure (a : α) : Reads (pure a) [] a := fun _ _ hs => ⟨_, rfl, hs, rfl⟩

theorem Reads.bind {r : Reader α} {f : α → Reader β} (h : Reads r es a) (h' : Reads (f a) fs b) :
    Reads (do f (← r)) (es ++ fs) b := by
  intro s after hs
  rw [List.append_assoc] at hs
  obtain ⟨u, hu, hrest, hignored⟩ := h s _ hs
  obtain ⟨v, hv, hrest', hignored'⟩ := h' u after hrest
  exact ⟨v, (bind_ok hu f).trans hv, hrest', hignored'.trans hignored⟩

/-- What is read last decides the value. -/
theorem Reads.map {r : Reader α} (h : Reads r es a) (f : α → β) :
    Reads (do return f (← r)) es (f a) := by
  have := h.bind (f := fun a => (pure (f a) : Reader β)) (reads_pure (f a))
  rwa [List.append_nil] at this

theorem reads_peek {f : MarkedEvent → Reader α}
    (h : ∀ x : MarkedEvent, x.event = e → Reads (f x) (e :: es) a) :
    Reads (do f (← peek sc)) (e :: es) a := by
  intro s after hs
  obtain ⟨x, xs, hx, hevent, -⟩ := List.map_eq_cons_iff.mp hs
  obtain ⟨s', hread, hs'⟩ := h x hevent s after hs
  have hpeek : peek sc s = .ok x s := by rw [peek, hx]
  exact ⟨s', (bind_ok hpeek f).trans hread, hs'⟩

theorem reads_skip (e : Event) : Reads skip [e] () := by
  intro s after hs
  refine ⟨_, rfl, ?_, rfl⟩
  rw [List.map_tail, hs]
  rfl

theorem reads_next {f : MarkedEvent → Reader α}
    (h : ∀ x : MarkedEvent, x.event = e → Reads (f x) es a) :
    Reads (do f (← next sc)) (e :: es) a := by
  intro s after hs
  obtain ⟨x, xs, hx, hevent, htail⟩ := List.map_eq_cons_iff.mp hs
  obtain ⟨s', hread, hs'⟩ := h x hevent { s with rest := xs } after htail
  have hnext : next sc s = .ok x { s with rest := xs } := by
    have hpeek : peek sc s = .ok x s := by rw [peek, hx]
    rw [next, bind_ok hpeek]
    show EStateM.Result.ok x { s with rest := s.rest.tail } = _
    rw [hx]
    rfl
  exact ⟨s', (bind_ok hnext f).trans hread, hs'⟩

/-- The events that are left bound the rounds of a loop. -/
theorem reads_rest {f : List MarkedEvent → Reader α}
    (h : ∀ l : List MarkedEvent, es.length ≤ l.length → Reads (f l) es a) :
    Reads (do f (← rest)) es a := by
  intro s after hs
  have hlen := congrArg List.length hs
  simp only [List.length_map, List.length_append] at hlen
  exact h s.rest (by omega) s after hs

theorem reads_located {r : Reader α} (h : Reads r es a) (m : Mark) (path : Path) :
    Reads (located m path r) es a := by
  intro s after hs
  obtain ⟨s', hread, hs'⟩ := h s after hs
  exact ⟨s', by rw [located, hread], hs'⟩

theorem reads_following {r : Reader α} (node : e.startsNode = true) (h : Reads r (e :: es) a) :
    Reads (following sc r) (e :: es) a := by
  rw [following]
  refine reads_peek fun x hx => ?_
  rw [hx]
  cases e <;> first
    | exact h
    | exact absurd node Bool.false_ne_true

theorem reads_onEvent {r : MarkedEvent → Reader α} (node : e.startsNode = true)
    (h : ∀ x : MarkedEvent, x.event = e → Reads (r x) es a) : Reads (onEvent sc r) (e :: es) a :=
  reads_following node (reads_next fun x hx => reads_located (h x hx) _ _)

end Steps

/-! ### Scalars -/

section Scalars

variable {α : Type} {sc : Scope}

theorem ofEvent_text (s : String) :
    Scalar.ofEvent s (Style.ofText s) none = .ok (.text s) := by
  have spec := Style.ofText_spec s
  rw [Scalar.ofEvent]
  split
  · rename_i hplain
    rw [hplain] at spec
    rw [(Scalar.ofPlain_text spec.1).1]
  · rfl

variable (sc) in
theorem reads_text (expected s : String) (style : ScalarStyle) (tag : Option String) :
    Reads (Reader.text sc expected) [.scalar s style tag] s := by
  refine reads_onEvent rfl fun e he => ?_
  simp only [he]
  exact reads_pure s

theorem reads_flag (b : Bool) : Reads (Reader.flag sc) (events none (.bool b)) b := by
  rw [events]
  refine reads_onEvent rfl fun e he => ?_
  simp only [he]
  cases b <;> exact reads_pure _

theorem reads_optional_none (value : Reader α) :
    Reads (Reader.optional sc value) (events none .null) none := by
  rw [events]
  refine reads_following rfl (reads_peek fun e he => ?_)
  rw [he]
  exact (reads_pure true).bind ((reads_skip _).bind (reads_pure none))

/-- What is written for a value other than the absent one does not look absent. -/
theorem exists_isAbsent {t : Tree} (h : Writable t) (present : t ≠ .null) :
    ∃ e es, events none t = e :: es ∧ e.startsNode = true ∧ isAbsent e = .ok false := by
  cases h with
  | null => exact absurd rfl present
  | bool b => cases b <;> exact ⟨_, _, rfl, rfl, rfl⟩
  | @number n nonempty plain =>
    refine ⟨_, _, rfl, rfl, ?_⟩
    show Except.ok ((String.ofList (n.write Notation.yaml)).isEmpty
      || Scalar.isNull (String.ofList (n.write Notation.yaml))) = _
    rw [Scalar.not_absent_write]
  | text s =>
    refine ⟨_, _, rfl, rfl, ?_⟩
    have spec := Style.ofText_spec s
    rw [isAbsent]
    split
    · rfl
    · rename_i hplain
      -- A text that looks absent is quoted.
      rw [Decidable.not_not.mp hplain] at spec
      obtain ⟨-, hempty, hnull⟩ := Scalar.ofPlain_text spec.1
      rw [hempty, hnull]
      rfl
  | list h => exact ⟨_, _, rfl, rfl, rfl⟩
  | record keys h => exact ⟨_, _, rfl, rfl, rfl⟩

theorem reads_optional_some {value : Reader α} {t : Tree} {a : α} (ht : Writable t)
    (present : t ≠ .null) (h : Reads value (events none t) a) :
    Reads (Reader.optional sc value) (events none t) (some a) := by
  obtain ⟨e, es, he, hstarts, habsent⟩ := exists_isAbsent ht present
  rw [he] at h ⊢
  refine reads_following hstarts (reads_peek fun x hx => ?_)
  rw [hx, habsent]
  exact (reads_pure false).bind (h.map some)

end Scalars

/-! ### Collections -/

section Collections

variable {α σ : Type} (sc : Scope)

theorem reads_items {ι : Type} {item : Scope → Reader α} {tree : ι → Tree} {value : ι → α}
    {xs : List ι} (h : ∀ x ∈ xs, ∀ sc, Reads (item sc) (events none (tree x)) (value x))
    {fuel : List MarkedEvent} (hf : xs.length < fuel.length) (index : Nat) :
    Reads (items sc item fuel index) (itemEvents (xs.map tree) ++ [.sequenceEnd])
      (xs.map value) := by
  induction xs generalizing fuel index with
  | nil =>
    obtain ⟨f, fuel, rfl⟩ := List.exists_cons_of_length_pos hf
    rw [items]
    refine reads_peek fun x hx => ?_
    rw [hx]
    exact (reads_skip _).bind (reads_pure [])
  | cons x xs ih =>
    obtain ⟨f, fuel, rfl⟩ := List.exists_cons_of_length_pos (Nat.zero_lt_of_lt hf)
    have hx := h x List.mem_cons_self
    have ih := ih (fun y hy => h y (List.mem_cons_of_mem x hy)) (by simpa using hf) (index + 1)
    -- The item does not start with the end of the sequence.
    obtain ⟨e, es, he, hstarts⟩ := exists_events_cons none (tree x)
    have hread : Reads (do
        let a ← item { sc with path := sc.path.item index }
        return a :: (← items sc item fuel (index + 1)))
        (events none (tree x) ++ (itemEvents (xs.map tree) ++ [.sequenceEnd]))
        (value x :: xs.map value) := (hx _).bind (ih.map (value x :: ·))
    simp only [List.map_cons, itemEvents, List.append_assoc]
    rw [he] at hread ⊢
    rw [items]
    refine reads_peek fun y hy => ?_
    rw [hy]
    cases e with
    | scalar | sequenceStart | mappingStart => exact hread
    | _ => exact absurd hstarts Bool.false_ne_true

/-- Whether reading the values of members one by one builds up a state. -/
inductive Builds {κ : Type} (name : String → κ) (step : σ → κ → Scope → Reader σ) :
    σ → List (String × Tree) → σ → Prop
  | nil (acc : σ) : Builds name step acc [] acc
  | cons {acc mid last : σ} {key : String} {t : Tree} {ms : List (String × Tree)}
      (head : ∀ inner, Reads (step acc (name key) inner) (events none t) mid)
      (tail : Builds name step mid ms last) : Builds name step acc ((key, t) :: ms) last

theorem reads_members {κ : Type} {name : String → κ} {step : σ → κ → Scope → Reader σ}
    {acc last : σ} {ms : List (String × Tree)} (h : Builds name step acc ms last) {key : Reader κ}
    (keys : ∀ m ∈ ms, Reads key [.scalar m.1 .plain none] (name m.1)) {fuel : List MarkedEvent}
    (hf : ms.length < fuel.length) :
    Reads (members sc (fun acc inner => do step acc (← key) inner) fuel acc)
      (memberEvents ms ++ [.mappingEnd]) last := by
  induction h generalizing fuel with
  | nil acc =>
    obtain ⟨f, fuel, rfl⟩ := List.exists_cons_of_length_pos hf
    rw [members]
    refine reads_peek fun x hx => ?_
    rw [hx]
    exact (reads_skip _).bind (reads_pure acc)
  | @cons acc mid last k t ms head _ ih =>
    obtain ⟨f, fuel, rfl⟩ := List.exists_cons_of_length_pos (Nat.zero_lt_of_lt hf)
    have hkey := keys (k, t) List.mem_cons_self
    have hrest := ih (fun m hm => keys m (List.mem_cons_of_mem _ hm)) (by simpa using hf)
    rw [members]
    simp only [memberEvents, List.append_assoc, List.cons_append]
    refine reads_peek fun x hx => ?_
    rw [hx]
    exact (hkey.bind (head _)).bind hrest

/-- A list, one level further down. -/
theorem reads_list {ι : Type} {item : Nat → Scope → Reader α} {tree : ι → Tree} {value : ι → α}
    {xs : List ι} {depth : Nat}
    (h : ∀ x ∈ xs, ∀ sc, Reads (item depth sc) (events none (tree x)) (value x))
    (tag : Option String) :
    Reads (Reader.list sc (depth + 1) item) (events tag (.list (xs.map tree))) (xs.map value) := by
  rw [events]
  refine reads_onEvent rfl fun e he => ?_
  simp only [he]
  refine reads_rest fun l hl => reads_items sc h ?_ 0
  have := length_le_itemEvents (xs.map tree)
  simp only [List.length_map, List.length_append, List.length_singleton] at this hl
  omega

/-- A record, one level further down. -/
theorem reads_record {fields : Fields σ α} {label : String} {depth : Nat}
    {step : Nat → σ → String → Scope → Reader σ} {slots : σ} {ms : List (String × Tree)} {a : α}
    (h : Builds id (step depth) fields.empty ms slots) (finish : fields.finish slots = .ok a)
    (tag : Option String) :
    Reads (Reader.record sc fields label (depth + 1) fun depth slots inner => do
      step depth slots (← Reader.text sc "field identifier") inner)
        (events tag (.record ms)) a := by
  rw [events]
  refine reads_onEvent rfl fun e he => ?_
  simp only [he]
  refine reads_rest fun l hl => ?_
  have hlen := length_le_memberEvents ms
  simp only [List.length_append, List.length_singleton] at hl
  have hmembers := reads_members sc h
    (fun m _ => reads_text sc "field identifier" m.1 .plain none)
    (show ms.length < l.length by omega)
  have hfinish : Reads (accept (fields.finish slots)) [] a := by
    rw [finish]
    exact reads_pure a
  have := hmembers.bind (f := fun slots => accept (fields.finish slots)) hfinish
  rwa [List.append_nil] at this

end Collections

/-! ### Choices -/

section Choices

variable {α β : Type} {sc : Scope} {choice : Alternatives α β} {value : Nat → Scope → Reader α}
  {name : String} {depth : Nat}

theorem reads_accept_find {v : Variant α β} (hv : choice.variants.lookup name = some v) :
    Reads (accept (choice.find name)) [] v := by
  rw [Alternatives.find, hv]
  exact reads_pure v

theorem reads_bareName {b : β} (hv : choice.variants.lookup name = some (.bare b)) :
    Reads (bareName choice name) [] b := by
  rw [bareName]
  exact (reads_accept_find hv).bind (reads_pure b)

/-- The bare name of an alternative, which is a text wherever it is plain. -/
theorem reads_keyed_bare {b : β} (hv : choice.variants.lookup name = some (.bare b)) :
    Reads (Reader.keyed sc choice (depth + 1) value) (events none (.text name)) b := by
  rw [events, Reader.keyed]
  refine reads_peek fun e _ => reads_onEvent rfl fun e he => ?_
  simp only [he, ofEvent_text]
  exact (reads_pure (Scalar.text name)).bind (reads_bareName hv)

theorem reads_singleMember {value : Scope → Reader α} {t : Tree} {a : α} {make : α → β}
    (hv : choice.variants.lookup name = some (.carrying make))
    (h : ∀ sc, Reads (value sc) (events none t) a) :
    Reads (singleMember sc choice value) (memberEvents [(name, t)] ++ [.mappingEnd]) (make a) := by
  rw [singleMember]
  simp only [memberEvents, List.append_nil, List.cons_append]
  refine reads_peek fun key hkey => ?_
  rw [hkey]
  show Reads _ ([.scalar name .plain none] ++ (events none t ++ [.mappingEnd])) _
  refine Reads.bind (a := .carrying make) (reads_onEvent rfl fun e he => ?_) ?_
  · simp only [he]
    exact reads_accept_find hv
  · refine (h _).bind (reads_peek fun e he => ?_)
    rw [he]
    exact (reads_skip _).bind (reads_pure (make a))

/-- A choice that names no value is read by its bare name. -/
theorem reads_tagged_bare {value : Scope → Reader α} {b : β}
    (hv : choice.variants.lookup name = some (.bare b)) :
    Reads (Reader.tagged sc choice value) (events none (.text name)) b := by
  rw [events, Reader.tagged]
  refine reads_following rfl (reads_peek fun e he => ?_)
  rw [he]
  refine reads_onEvent rfl fun e he => ?_
  simp only [he]
  exact reads_bareName hv

/-- A record with one member is read as the alternative that the member names. -/
theorem reads_keyed_carrying {t : Tree} {a : α} {make : α → β}
    (hv : choice.variants.lookup name = some (.carrying make))
    (h : ∀ sc, Reads (value depth sc) (events none t) a) :
    Reads (Reader.keyed sc choice (depth + 2) value) (events none (.record [(name, t)]))
      (make a) := by
  rw [events, Reader.keyed]
  refine reads_peek fun e _ => reads_onEvent rfl fun e he => ?_
  simp only [he]
  exact reads_singleMember hv h

end Choices

/-! ### Values of any kind -/

/-- What `content` does at an event. -/
theorem content_eq (depth : Nat) (sc : Scope) : content depth sc = onEvent sc fun e =>
    if (alternativeTag? (tagOf e.event)).isSome then refuse .taggedForm
    else match e.event with
      | .scalar s style tag => do accept (← accept (Scalar.ofEvent s style tag)).content
      | .sequenceStart _ =>
        match depth with
        | 0 => throw (.nestedTooDeep e.mark)
        | d + 1 => do return .list (← items sc (content d) (← rest) 0)
      | .mappingStart _ =>
        match depth with
        | 0 => throw (.nestedTooDeep e.mark)
        | d + 1 => do
          let entries ← members sc (fun entries inner => do
            let key ← content d sc
            return (key, ← content d inner) :: entries) (← rest) []
          return .map entries.reverse
      | _ => return .null := by
  -- The recursion is behind the match on the event, so the depth and the event are both needed.
  cases depth <;>
  · delta content
    refine congrArg (onEvent sc) (funext fun e => ?_)
    obtain ⟨event, mark⟩ := e
    cases event <;> rfl

theorem builds_entries {depth : Nat} {ms : List (String × Tree)}
    (h : ∀ m ∈ ms, ∀ sc, Reads (content depth sc) (events none m.2) m.2.content)
    (acc : List (Content × Content)) :
    Builds Content.text (fun entries key inner => do
      return (key, ← content depth inner) :: entries) acc ms
        ((Tree.entries ms).reverse ++ acc) := by
  induction ms generalizing acc with
  | nil => exact .nil acc
  | cons m ms ih =>
    obtain ⟨key, t⟩ := m
    have htail := ih (fun m hm => h m (List.mem_cons_of_mem _ hm)) ((.text key, t.content) :: acc)
    -- The entries are gathered in front, so they come out in reverse.
    rw [Tree.entries, List.reverse_cons, List.append_assoc, List.singleton_append]
    refine .cons (fun inner => ?_) htail
    exact (h (key, t) List.mem_cons_self inner).map fun c => (.text key, c) :: acc

/-- The key of a member is read as a text. -/
theorem reads_content_key {key : String} (h : IsKey key) (depth : Nat) (sc : Scope) :
    Reads (content depth sc) [.scalar key .plain none] (.text key) := by
  have hplain := (Scalar.ofPlain_text h.unambiguous).1
  rw [content_eq]
  refine reads_onEvent rfl fun e he => ?_
  simp only [he, tagOf, Scalar.ofEvent, hplain]
  exact reads_pure (Content.text key)

/-- A value of any kind is read as the content of its tree. -/
theorem reads_content {kept : Number → Prop} {n : Nat} {t : Tree} (simple : t.Simple kept n)
    (writable : Writable t) {depth : Nat} (hd : n < depth) (sc : Scope) :
    Reads (content depth sc) (events none t) t.content := by
  induction simple generalizing depth sc with
  | null =>
    rw [content_eq]
    refine reads_onEvent rfl fun e he => ?_
    simp only [he]
    exact reads_pure Content.null
  | bool b =>
    rw [content_eq]
    refine reads_onEvent rfl fun e he => ?_
    simp only [he]
    cases b <;> exact reads_pure (Content.bool _)
  | @number n x _ =>
    have hplain := Scalar.ofPlain_write x
    rw [content_eq]
    refine reads_onEvent rfl fun e he => ?_
    simp only [he, tagOf, Scalar.ofEvent, hplain]
    exact reads_pure (Content.number x)
  | text s =>
    rw [content_eq]
    refine reads_onEvent rfl fun e he => ?_
    simp only [he, tagOf, ofEvent_text]
    exact reads_pure (Content.text s)
  | @list n items hs ih =>
    obtain ⟨d, rfl⟩ := Nat.exists_eq_add_one.mpr (show 0 < depth by omega)
    cases writable with
    | list hw =>
      have hitems : ∀ t ∈ items, ∀ sc, Reads (content d sc) (events none t) t.content :=
        fun t ht sc => ih t ht (hw t ht) (by omega) sc
      have hlen := length_le_itemEvents items
      rw [content_eq, events]
      refine reads_onEvent rfl fun e he => ?_
      simp only [he]
      -- the events that are left are more than the items, so they are fuel enough
      refine reads_rest fun l hl => ?_
      simp only [List.length_append, List.length_singleton] at hl
      have hread : Reads (Reader.items sc (content d) l 0)
          (itemEvents (items.map id) ++ [.sequenceEnd]) (items.map Tree.content) :=
        reads_items sc hitems (by omega) 0
      rw [List.map_id] at hread
      rw [Tree.content, Tree.contents_eq_map]
      exact hread.map Content.list
  | @record n ms hs ih =>
    obtain ⟨d, rfl⟩ := Nat.exists_eq_add_one.mpr (show 0 < depth by omega)
    cases writable with
    | record keys hw =>
      have hvalues : ∀ m ∈ ms, ∀ sc, Reads (content d sc) (events none m.2) m.2.content :=
        fun m hm sc => ih m hm (hw m hm) (by omega) sc
      have hlen := length_le_memberEvents ms
      rw [content_eq, events]
      refine reads_onEvent rfl fun e he => ?_
      simp only [he]
      refine reads_rest fun l hl => ?_
      simp only [List.length_append, List.length_singleton] at hl
      have hread := reads_members sc (builds_entries hvalues [])
        (fun m hm => reads_content_key (keys m hm) d sc) (show ms.length < l.length by omega)
      have := hread.map fun entries => Content.map entries.reverse
      rwa [List.append_nil, List.reverse_reverse] at this

end Reader

end ApiSurface.Yaml
