/-
Values that survive being written.

`Shape.Keeps kept n s a` says that nothing of the value `a` is lost when it is written in the shape
`s` and read again with `n` levels of nesting: hidden members have their default, names of members
and alternatives are told apart, and a buffered value can be told from the content of its tree, in
which all numbers are `kept`. It knows nothing of either document language, so both round trips rest
on it.

* `Fields.finish_filled` — the slots of the written members make up the record again;
* `Model.keeps_shape` — a whole model is kept if its numbers are.
-/
import ApiSurface.Enrichment
import ApiSurface.Wire.Schema

namespace ApiSurface

/-- A tree without tags, nested at most to a depth, whose numbers are kept. -/
inductive Tree.Simple (kept : Number → Prop) : Nat → Tree → Prop where
  | null {n : Nat} : Simple kept n .null
  | bool {n : Nat} (b : Bool) : Simple kept n (.bool b)
  | number {n : Nat} {x : Number} (h : kept x) : Simple kept n (.number x)
  | text {n : Nat} (s : String) : Simple kept n (.text s)
  | list {n : Nat} {items : List Tree} (h : ∀ t ∈ items, Simple kept n t) :
      Simple kept (n + 1) (.list items)
  | record {n : Nat} {members : List (String × Tree)} (h : ∀ m ∈ members, Simple kept n m.2) :
      Simple kept (n + 1) (.record members)

theorem Tree.Simple.mono {kept : Number → Prop} {n k : Nat} {t : Tree} (h : t.Simple kept n)
    (hnk : n ≤ k) : t.Simple kept k := by
  induction h generalizing k with
  | null => exact .null
  | bool b => exact .bool b
  | number h => exact .number h
  | text s => exact .text s
  | list _ ih =>
    obtain ⟨j, rfl⟩ : ∃ j, k = j + 1 := ⟨k - 1, by omega⟩
    exact .list fun t ht => ih t ht (by omega)
  | record _ ih =>
    obtain ⟨j, rfl⟩ : ∃ j, k = j + 1 := ⟨k - 1, by omega⟩
    exact .record fun m hm => ih m hm (by omega)

mutual

/-- What a tree stands for where the type of a value is not known. -/
def Tree.content : Tree → Content
  | .null => .null
  | .bool b => .bool b
  | .number n => .number n
  | .text s => .text s
  | .list items => .list (Tree.contents items)
  | .record members => .map (Tree.entries members)
  | .tagged tag value => .map [(.text tag, value.content)]

/-- The contents of the items of a list. -/
def Tree.contents : List Tree → List Content
  | [] => []
  | t :: rest => t.content :: Tree.contents rest

/-- The contents of the members of a record. -/
def Tree.entries : List (String × Tree) → List (Content × Content)
  | [] => []
  | (key, value) :: rest => (.text key, value.content) :: Tree.entries rest

end

theorem Tree.contents_eq_map (ts : List Tree) : Tree.contents ts = ts.map Tree.content := by
  induction ts with
  | nil => rfl
  | cons t ts ih => rw [Tree.contents, ih, List.map_cons]

/-- The names of the members of a record. -/
def Fields.names : {σ α : Type} → Fields σ α → List String
  | _, _, .nil => []
  | _, _, .cons field _ rest => field.name :: rest.names

/-- The slots after the written members were read. -/
def Fields.filled : {σ α : Type} → Fields σ α → α → σ
  | _, _, .nil, _ => ()
  | _, _, .cons field _ rest, (a, b) => (if field.hidden a then none else some a, rest.filled b)

mutual

/-- Whether a value can be told from what is written for it, within some levels of nesting. -/
def Shape.Keeps (kept : Number → Prop) : {α : Type} → Nat → Shape α → α → Prop
  | _, _, .text, _ => True
  | _, _, .flag, _ => True
  | _, _, .nothing, _ => True
  | _, n, .optional s, o => ∀ a, o = some a → s.Keeps kept n a ∧ s.encode a ≠ .null
  | _, n, .list item, l => 0 < n ∧ ∀ a ∈ l, item.Keeps kept (n - 1) a
  | _, n, .record _ fields, a => 0 < n ∧ fields.Keeps kept (n - 1) a
  | _, n, .tagged choice s, b => match choice.split b with
    | (name, some a) => 0 < n ∧ s.Keeps kept (n - 1) a ∧
        ∃ make, choice.variants.lookup name = some (.carrying make) ∧ make a = b
    | (name, none) => choice.variants.lookup name = some (.bare b)
  | _, n, .keyed choice s, b => match choice.split b with
    | (name, some a) => 1 < n ∧ s.Keeps kept (n - 2) a ∧
        ∃ make, choice.variants.lookup name = some (.carrying make) ∧ make a = b
    | (name, none) => 0 < n ∧ choice.variants.lookup name = some (.bare b)
  | _, n, .buffered read write, a => (write a).Simple kept n ∧ read (write a).content = ⟨.ok a, 0⟩
  | _, n, .view there back s, b => there (back b) = b ∧ s.Keeps kept n (back b)

/-- Whether a record can be told from its written members. -/
def Fields.Keeps (kept : Number → Prop) : {σ α : Type} → Nat → Fields σ α → α → Prop
  | _, _, _, .nil, _ => True
  | _, _, n, .cons field s rest, (a, b) =>
    (if field.hidden a then field.default = some a else s.Keeps kept n a) ∧
      field.name ∉ rest.names ∧ rest.Keeps kept n b

end

/-- Whether a tree is no number other than one that is kept. -/
def Tree.Holds (kept : Number → Prop) (t : Tree) : Prop := ∀ x, t = .number x → kept x

variable {kept : Number → Prop}

theorem Tree.Simple.holds {n : Nat} {t : Tree} (h : t.Simple kept n) : t.Holds kept := by
  rintro x rfl
  cases h with
  | number h => exact h

/-- A value that is kept is no other number. -/
theorem Shape.Keeps.holds : {α : Type} → {s : Shape α} → {n : Nat} → {a : α} →
    s.Keeps kept n a → (s.encode a).Holds kept
  | _, .text, _, _, _ => by simp [Shape.encode, Tree.Holds]
  | _, .flag, _, _, _ => by simp [Shape.encode, Tree.Holds]
  | _, .nothing, _, e, _ => nomatch e
  | _, .optional s, _, none, _ => by simp [Shape.encode, Tree.Holds]
  | _, .optional s, _, some a, h => (h a rfl).1.holds
  | _, .list _, _, _, _ => by simp [Shape.encode, Tree.Holds]
  | _, .record _ _, _, _, _ => by simp [Shape.encode, Tree.Holds]
  | _, .tagged choice _, _, b, _ => by
    intro x hx
    rw [Shape.encode] at hx
    split at hx <;> exact nomatch hx
  | _, .keyed choice _, _, b, _ => by
    intro x hx
    rw [Shape.encode] at hx
    split at hx <;> exact nomatch hx
  | _, .buffered _ _, _, _, h => h.1.holds
  | _, .view _ _ s, _, _, h => h.2.holds

namespace Fields

theorem mem_names_of_mem_encode : {σ α : Type} → (fields : Fields σ α) → (a : α) →
    ∀ m ∈ fields.encode a, m.1 ∈ fields.names
  | _, _, .nil, _ => by simp [encode]
  | _, _, .cons field s rest, (a, b) => by
    intro m hm
    have ih := mem_names_of_mem_encode rest b m
    rw [encode] at hm
    split at hm
    · exact List.mem_cons_of_mem _ (ih hm)
    · obtain rfl | hm := List.mem_cons.mp hm
      · exact List.mem_cons_self
      · exact List.mem_cons_of_mem _ (ih hm)

/-- A hidden member has to have the default, and every member has to have a name of its own. -/
theorem keeps_cons {α σ β : Type} {n : Nat} {field : Field α} {s : Shape α} {rest : Fields σ β}
    {a : α} {b : β} (hidden : field.hidden a = true → field.default = some a) (ha : s.Keeps kept n a)
    (name : field.name ∉ rest.names) (hb : rest.Keeps kept n b) :
    (Fields.cons field s rest).Keeps kept n (a, b) := by
  refine ⟨?_, name, hb⟩
  split
  · exact hidden ‹_›
  · exact ha

/-- A record is put together again from the slots that its written members fill. -/
theorem finish_filled : {σ α : Type} → (fields : Fields σ α) → {n : Nat} → (a : α) →
    fields.Keeps kept n a → fields.finish (fields.filled a) = .ok a
  | _, _, .nil, _, _, _ => rfl
  | _, _, .cons field s rest, n, (a, b), h => by
    obtain ⟨ha, -, hb⟩ := h
    have ih := finish_filled rest b hb
    cases hidden : field.hidden a with
    | true =>
      -- The slot of a hidden member is filled with the default, which the member had.
      have hd : field.default = some a := by simpa [hidden] using ha
      simp [filled, finish, hidden, hd, ih, bind, Except.bind, pure, Except.pure]
    | false => simp [filled, finish, hidden, ih, bind, Except.bind, pure, Except.pure]

end Fields

/-! ### The shapes of a model -/

theorem keeps_commentsShape {n : Nat} (h : 0 < n) (l : List String) :
    commentsShape.Keeps kept n l := by
  simp [commentsShape, Shape.Keeps, Shape.encode, h]

theorem keeps_optional_text (n : Nat) (o : Option String) :
    (Shape.optional .text).Keeps kept n o := by
  simp [Shape.Keeps, Shape.encode]

namespace Marker

theorem simple_encode (m : Marker) : (shape.encode m).Simple kept 1 := by
  refine .record fun d hd => ?_
  rcases m with ⟨_ | s, _ | b⟩ <;>
    simp [Fields.encode, Field.optional, sinceField, forRemovalField, detailShape,
      Shape.encode] at hd
  · subst hd
    exact .bool b
  · subst hd
    exact .text s
  · obtain rfl | rfl := hd
    · exact .text s
    · exact .bool b

/-- The content of a written marker is read as the marker. -/
theorem slotOf_encode (m : Marker) : slotOf (shape.encode m).content = ⟨.ok (some m), 0⟩ := by
  rcases m with ⟨_ | s, _ | b⟩ <;>
    simp [shape, Shape.encode, Fields.encode, Field.optional, sinceField, forRemovalField,
      detailShape, Tree.content, Tree.entries, slotOf, ofEntries, ofEntries.next, keyOf, detailOf,
      sinceOf, forRemovalOf, Except.map]

end Marker

theorem Marker.encode_ne_null (m : Marker) : shape.encode m ≠ .null := by
  simp [shape, Shape.encode]

theorem keeps_markerSlotShape {n : Nat} (h : 0 < n) (o : Option Marker) :
    markerSlotShape.Keeps kept n o := by
  refine ⟨by cases o <;> rfl, fun a ha => ?_⟩
  obtain ⟨m, rfl, rfl⟩ := Option.map_eq_some_iff.mp ha
  refine ⟨⟨?_, Marker.slotOf_encode m⟩, Marker.encode_ne_null m⟩
  obtain ⟨k, rfl⟩ : ∃ k, n = k + 1 := ⟨n - 1, by omega⟩
  exact (Marker.simple_encode m).mono (by omega)

theorem SourceElement.keeps_shape {n : Nat} (h : 1 < n) (e : SourceElement) :
    SourceElement.shape.Keeps kept n e := by
  refine ⟨rfl, by omega, Fields.keeps_cons (by simp [Field.required]) trivial
    (by simp [Fields.names, Field.required, Field.optional]) ?_⟩
  exact Fields.keeps_cons (by cases e.deprecated <;> simp [Field.optional])
    (keeps_markerSlotShape (by omega) _) (by simp [Fields.names]) trivial

theorem keeps_originShape {n : Nat} (h : 1 < n) (o : Option SourceElement) :
    originShape.Keeps kept n o := by
  intro e _
  exact ⟨SourceElement.keeps_shape h e, by simp [SourceElement.shape, Shape.encode]⟩

theorem MemberOrigin.keeps_slotShape {n : Nat} (h : 3 < n) (o : MemberOrigin) :
    MemberOrigin.slotShape.Keeps kept n o := by
  refine ⟨rfl, fun a ha => ?_⟩
  obtain rfl : o = a := by simpa using ha
  cases o with
  | method e =>
    exact ⟨⟨by omega, SourceElement.keeps_shape (by omega) e, .method, rfl, rfl⟩,
      by simp [Shape.encode, choice]⟩
  | field e =>
    exact ⟨⟨by omega, SourceElement.keeps_shape (by omega) e, .field, rfl, rfl⟩,
      by simp [Shape.encode, choice]⟩
  | none => exact ⟨⟨by omega, rfl⟩, by simp [Shape.encode, choice]⟩

theorem Property.keeps_shape {n : Nat} (h : 4 < n) (p : Property) :
    Property.shape.Keeps kept n p := by
  refine ⟨rfl, by omega, ?_⟩
  refine Fields.keeps_cons nofun trivial (by decide) ?_
  refine Fields.keeps_cons nofun trivial (by decide) ?_
  refine Fields.keeps_cons nofun trivial (by decide) ?_
  refine Fields.keeps_cons nofun (keeps_commentsShape (by omega) _) (by decide) ?_
  refine Fields.keeps_cons (fun hidden => ?_) (MemberOrigin.keeps_slotShape (by omega) _)
    (by decide) trivial
  cases ho : p.origin <;> simp_all [MemberOrigin.isNone]

theorem keeps_originField {n : Nat} (h : 1 < n) (o : Option SourceElement) :
    (Fields.cons originField originShape .nil).Keeps kept n (o, ()) :=
  Fields.keeps_cons (by cases o <;> simp [originField, Field.optional]) (keeps_originShape h o)
    (by decide) trivial

theorem Bean.keeps_shape {n : Nat} (h : 6 < n) (b : Bean) : Bean.shape.Keeps kept n b := by
  refine ⟨rfl, by omega, ?_⟩
  refine Fields.keeps_cons nofun trivial (by decide) ?_
  refine Fields.keeps_cons (by cases b.parent <;> simp [Field.optional])
    (keeps_optional_text _ _) (by decide) ?_
  refine Fields.keeps_cons (fun hidden => ?_) ⟨by omega, fun _ _ => trivial⟩ (by decide) ?_
  · rw [List.isEmpty_iff.mp hidden]
  refine Fields.keeps_cons nofun ⟨by omega, fun p _ => Property.keeps_shape (by omega) p⟩
    (by decide) ?_
  refine Fields.keeps_cons nofun (keeps_commentsShape (by omega) _) (by decide) ?_
  exact keeps_originField (by omega) _

theorem lookup_bare {β : Type} (values : List (String × β)) (name : String) :
    (values.map fun (n, v) => (n, Variant.bare (α := Empty) v)).lookup name
      = (values.lookup name).map .bare := by
  induction values with
  | nil => rfl
  | cons v rest ih =>
    rw [List.map_cons, List.lookup_cons, List.lookup_cons]
    cases name == v.1 with
    | true => rfl
    | false => exact ih

/-- A choice between bare names is kept if each value is found under its name. -/
theorem keeps_namesShape {β : Type} {n : Nat} {label : String} {values : List (String × β)}
    {name : β → String} {b : β} (h : values.lookup (name b) = some b) :
    (namesShape label values name).Keeps kept n b := by
  show (values.map fun (n, v) => (n, Variant.bare v)).lookup (name b) = _
  rw [lookup_bare, h, Option.map_some]

/-- Whether the value of a member is a text or an integer. -/
def EnumMember.IsWhole (m : EnumMember) : Prop :=
  ∀ n, m.value = .number n → ∃ i, n = .integer i

theorem EnumMember.keeps_shape {n : Nat} (h : 2 < n) (m : EnumMember)
    (numbers : ∀ x, m.value = .number x → kept x) :
    EnumMember.shape.Keeps kept n m := by
  refine ⟨rfl, by omega, ?_⟩
  refine Fields.keeps_cons nofun trivial (by decide) ?_
  refine Fields.keeps_cons nofun ?_ (by decide) ?_
  · show (EnumValue.toTree m.value).Simple kept _ ∧
      EnumValue.ofContent (EnumValue.toTree m.value).content = _
    cases hv : m.value with
    | text s => exact ⟨.text s, rfl⟩
    | number x => exact ⟨.number (numbers x hv), rfl⟩
  refine Fields.keeps_cons nofun (keeps_commentsShape (by omega) _) (by decide) ?_
  exact keeps_originField (by omega) _

/-- Whether the values of all members are texts or integers. -/
def Enumeration.IsWhole (e : Enumeration) : Prop := ∀ m ∈ e.members, m.IsWhole

theorem Enumeration.keeps_shape {n : Nat} (h : 4 < n) (e : Enumeration)
    (numbers : ∀ m ∈ e.members, ∀ x, m.value = .number x → kept x) :
    Enumeration.shape.Keeps kept n e := by
  refine ⟨rfl, by omega, ?_⟩
  refine Fields.keeps_cons nofun trivial (by decide) ?_
  refine Fields.keeps_cons nofun (keeps_namesShape (by cases e.kind <;> decide)) (by decide) ?_
  refine Fields.keeps_cons nofun
    ⟨by omega, fun m hm => EnumMember.keeps_shape (by omega) m (numbers m hm)⟩ (by decide) ?_
  refine Fields.keeps_cons nofun (keeps_commentsShape (by omega) _) (by decide) ?_
  exact keeps_originField (by omega) _

theorem Parameter.keeps_shape {n : Nat} (h : 0 < n) (p : Parameter) :
    Parameter.shape.Keeps kept n p := by
  refine ⟨rfl, by omega, ?_⟩
  refine Fields.keeps_cons nofun trivial (by decide) ?_
  exact Fields.keeps_cons nofun trivial (by decide) trivial

theorem Endpoint.keeps_shape {n : Nat} (h : 2 < n) (e : Endpoint) :
    Endpoint.shape.Keeps kept n e := by
  have params (l : List Parameter) : (Shape.list Parameter.shape).Keeps kept (n - 1) l :=
    ⟨by omega, fun p _ => Parameter.keeps_shape (by omega) p⟩
  refine ⟨rfl, by omega, ?_⟩
  refine Fields.keeps_cons nofun trivial (by decide) ?_
  refine Fields.keeps_cons nofun trivial (by decide) ?_
  refine Fields.keeps_cons nofun trivial (by decide) ?_
  refine Fields.keeps_cons nofun trivial (by decide) ?_
  refine Fields.keeps_cons nofun trivial (by decide) ?_
  refine Fields.keeps_cons nofun (params _) (by decide) ?_
  refine Fields.keeps_cons nofun (params _) (by decide) ?_
  refine Fields.keeps_cons (by cases e.entityParam <;> simp [Field.optional])
    (fun p _ => ⟨Parameter.keeps_shape (by omega) p, by simp [Parameter.shape, Shape.encode]⟩)
    (by decide) ?_
  refine Fields.keeps_cons nofun (keeps_commentsShape (by omega) _) (by decide) ?_
  exact keeps_originField (by omega) _

theorem Application.keeps_shape {n : Nat} (h : 4 < n) (a : Application) :
    Application.shape.Keeps kept n a := by
  refine ⟨rfl, by omega, ?_⟩
  refine Fields.keeps_cons nofun (keeps_namesShape (by cases a.kind <;> decide)) (by decide) ?_
  refine Fields.keeps_cons (by cases a.path <;> simp [Field.optional])
    (keeps_optional_text _ _) (by decide) ?_
  refine Fields.keeps_cons (by cases a.name <;> simp [Field.optional])
    (keeps_optional_text _ _) (by decide) ?_
  exact Fields.keeps_cons nofun ⟨by omega, fun e _ => Endpoint.keeps_shape (by omega) e⟩
    (by decide) trivial

/-- Whether the numbers of a model are integers. -/
def Model.IsWhole (m : Model) : Prop := ∀ e ∈ m.enums, e.IsWhole

/-- Enrichment changes no value of a member. -/
theorem Model.IsWhole.enrich {m : Model} (h : m.IsWhole) : m.enrich.IsWhole := by
  intro e' he' x' hx'
  obtain ⟨e, he, rfl⟩ := List.mem_map.mp he'
  obtain ⟨x, hx, rfl⟩ := List.mem_map.mp hx'
  exact h e he x hx

/-- Whether all numbers of a model are of some kind. -/
def Model.Numbers (kept : Number → Prop) (m : Model) : Prop :=
  ∀ e ∈ m.enums, ∀ v ∈ e.members, ∀ x, v.value = .number x → kept x

/-- A model is kept if its numbers are. -/
theorem Model.keeps_shape {n : Nat} (h : 8 < n) (m : Model) (numbers : m.Numbers kept) :
    Model.shape.Keeps kept n m := by
  refine ⟨rfl, by omega, ?_⟩
  refine Fields.keeps_cons nofun ⟨by omega, fun b _ => Bean.keeps_shape (by omega) b⟩
    (by decide) ?_
  refine Fields.keeps_cons nofun
    ⟨by omega, fun e he => Enumeration.keeps_shape (by omega) e (numbers e he)⟩ (by decide) ?_
  exact Fields.keeps_cons nofun ⟨by omega, fun a _ => Application.keeps_shape (by omega) a⟩
    (by decide) trivial

/-- A model with texts that look like other values, empty details and the largest numbers. -/
def Model.awkward : Model where
  beans := [{
    name := "null", parent := some "", interfaces := ["1.10", " a\n\n"],
    properties := [{
      name := "\"'\\", typeName := "- x: #\x7f", comments := ["true", "\u2028b"],
      origin := .field {
        name := "~", deprecated := some { since := some "", forRemoval := some false } } }],
    origin := some { name := "{}", deprecated := some {} } }]
  enums := [{
    name := "a\tb", kind := .number,
    members := [
      { name := "low", value := .number (.integer ⟨-9223372036854775808, by decide, by decide⟩) },
      { name := "high", value := .number (.integer ⟨18446744073709551615, by decide, by decide⟩) },
      { name := "text", value := .text "007" }] }]
  applications := [{ path := some "null", endpoints := [] }]

theorem Model.isWhole_awkward : Model.awkward.IsWhole := by
  intro e he m hm n hn
  simp only [awkward, List.mem_singleton] at he
  subst he
  simp only [List.mem_cons, List.not_mem_nil, or_false] at hm
  obtain rfl | rfl | rfl := hm
  · exact ⟨_, (EnumValue.number.inj hn).symm⟩
  · exact ⟨_, (EnumValue.number.inj hn).symm⟩
  · exact nomatch hn

end ApiSurface
