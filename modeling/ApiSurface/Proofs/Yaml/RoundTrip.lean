/-
What is written as YAML is read back.

A shape without tags is one whose keys are words and whose alternatives name themselves by a key or
by their bare name. `reads_read` says for every such shape and every kept value that the events of
its tree are read as the value; `decode_write` is the case of a whole text with empty lines after
it, `decode_document` that of a document, and `Model.parse_render_yaml` that of a model.

The proof follows the shape. For a record it follows the members: reading the values of the written
members one by one builds up `Fields.filled`, since no key is the name of an earlier member.
-/
import ApiSurface.Codec
import ApiSurface.Proofs.Yaml.Reading

namespace ApiSurface

open Yaml

mutual

/-- Whether the values of a shape are written without tags and under keys that are words. -/
def Shape.IsUntagged : {α : Type} → Shape α → Prop
  | _, .text => True
  | _, .flag => True
  | _, .nothing => True
  | _, .optional s => s.IsUntagged
  | _, .list item => item.IsUntagged
  | _, .record _ fields => fields.IsUntagged
  | _, .tagged choice _ => ∀ b, (choice.split b).2 = none
  | _, .keyed choice s => (∀ b, IsKey (choice.split b).1) ∧ s.IsUntagged
  | _, .buffered _ write => ∀ a, Writable (write a)
  | _, .view _ _ s => s.IsUntagged

/-- Whether the members of a record are written without tags and under keys that are words. -/
def Fields.IsUntagged : {σ α : Type} → Fields σ α → Prop
  | _, _, .nil => True
  | _, _, .cons field s rest => IsKey field.name ∧ s.IsUntagged ∧ rest.IsUntagged

end

mutual

/-- A kept value is written so that it can be read. -/
theorem Shape.writable_encode {kept : Number → Prop} : {α : Type} → (s : Shape α) → {n : Nat} → (a : α) → s.IsUntagged →
    s.Keeps kept n a → Writable (s.encode a)
  | _, .text, _, s, _, _ => .text s
  | _, .flag, _, b, _, _ => .bool b
  | _, .nothing, _, e, _, _ => nomatch e
  | _, .optional _, _, none, _, _ => .null
  | _, .optional s, _, some a, hs, h => s.writable_encode a hs (h a rfl).1
  | _, .list item, _, xs, hs, h => by
    refine .list fun t ht => ?_
    obtain ⟨x, hx, rfl⟩ := List.mem_map.mp ht
    exact item.writable_encode x hs (h.2 x hx)
  | _, .record _ fields, _, a, hs, h =>
    .record (fun m hm => (fields.writable_encode a hs h.2 m hm).1)
      fun m hm => (fields.writable_encode a hs h.2 m hm).2
  | _, .tagged choice s, _, b, hs, _ => by
    have bare : (choice.split b).2 = none := hs b
    rw [Shape.encode]
    match hb : choice.split b, bare with
    | (name, none), _ => exact .text name
  | _, .keyed choice s, n, b, hs, h => by
    rw [Shape.Keeps] at h
    have key : IsKey (choice.split b).1 := hs.1 b
    rw [Shape.encode]
    match choice.split b, h, key with
    | (name, some a), ⟨_, ha, _⟩, key =>
      have := s.writable_encode a hs.2 ha
      refine .record ?_ ?_ <;>
      · simp only [List.mem_singleton]
        rintro m rfl
        assumption
    | (name, none), _, _ => exact .text name
  | _, .buffered _ write, n, a, hs, _ => hs a
  | _, .view _ back s, _, b, hs, h => s.writable_encode (back b) hs h.2

/-- The written members of a kept record have words for keys. -/
theorem Fields.writable_encode {kept : Number → Prop} : {σ α : Type} → (fields : Fields σ α) → {n : Nat} → (a : α) →
    fields.IsUntagged → fields.Keeps kept n a → ∀ m ∈ fields.encode a, IsKey m.1 ∧ Writable m.2
  | _, _, .nil, _, _, _, _ => nofun
  | _, _, .cons field s rest, n, (a, b), hs, h => by
    obtain ⟨key, hs, hrest⟩ := hs
    obtain ⟨ha, -, hb⟩ := h
    have ih := rest.writable_encode b hrest hb
    rw [Fields.encode]
    split
    · exact ih
    · rename_i hidden
      rw [if_neg hidden] at ha
      intro m hm
      obtain rfl | hm := List.mem_cons.mp hm
      · exact ⟨key, s.writable_encode a hs ha⟩
      · exact ih m hm

end

namespace Yaml

open Reader

/-- A member of another name leaves a slot as it is. -/
theorem Builds.cons_slot {α σ β : Type} {depth : Nat} {field : Field α} {s : Shape α}
    {rest : Fields σ β} {slots slots' : σ} {ms : List (String × Tree)}
    (h : Builds id (readMember rest depth) slots ms slots') (names : ∀ m ∈ ms, m.1 ≠ field.name)
    (slot : Option α) :
    Builds id (readMember (.cons field s rest) depth) (slot, slots) ms (slot, slots') := by
  induction h with
  | nil slots => exact .nil _
  | @cons slots mid last key t ms head _ ih =>
    refine .cons (fun inner => ?_) (ih fun m hm => names m (List.mem_cons_of_mem _ hm))
    have hne : id key ≠ field.name := names _ List.mem_cons_self
    have := (head inner).map fun slots => (slot, slots)
    cases slot <;>
    · rw [readMember, if_neg hne]
      exact this

mutual

/-- What is written for a kept value is read as the value. -/
theorem reads_read {kept : Number → Prop} : {α : Type} → (s : Shape α) → {n : Nat} → (a : α) → s.IsUntagged →
    s.Keeps kept n a → (depth : Nat) → n < depth → (sc : Scope) →
    Reads (read s depth sc) (events none (s.encode a)) a
  | _, .text, _, s, _, _, _, _, sc => by
    rw [read, Shape.encode, events]
    exact reads_text sc _ s _ _
  | _, .flag, _, b, _, _, _, _, sc => by
    rw [read, Shape.encode]
    exact reads_flag b
  | _, .nothing, _, e, _, _, _, _, _ => nomatch e
  | _, .optional s, _, none, _, _, _, _, sc => by
    rw [read, Shape.encode]
    exact reads_optional_none _
  | _, .optional s, n, some a, hs, h, depth, hd, sc => by
    obtain ⟨ha, hnull⟩ := h a rfl
    rw [read, Shape.encode]
    exact reads_optional_some (s.writable_encode a hs ha) hnull (reads_read s a hs ha depth hd sc)
  | _, .list item, n, xs, hs, h, depth, hd, sc => by
    obtain ⟨hn, hx⟩ := h
    obtain ⟨d, rfl⟩ := Nat.exists_eq_add_one.mpr (show 0 < depth by omega)
    have hitems : ∀ x ∈ xs, ∀ sc, Reads (read item d sc) (events none (item.encode x)) (id x) :=
      fun x hx' sc => reads_read item x hs (hx x hx') d (by omega) sc
    have hread := reads_list sc hitems none
    rw [List.map_id] at hread
    rw [read, Shape.encode]
    exact hread
  | _, .record label fields, n, a, hs, h, depth, hd, sc => by
    obtain ⟨hn, ha⟩ := h
    obtain ⟨d, rfl⟩ := Nat.exists_eq_add_one.mpr (show 0 < depth by omega)
    rw [read, Shape.encode]
    exact reads_record sc (builds_fields fields a hs ha d (by omega))
      (Fields.finish_filled fields a ha) none
  | _, .tagged choice s, n, b, hs, h, depth, hd, sc => by
    have bare : (choice.split b).2 = none := hs b
    rw [Shape.Keeps] at h
    rw [read, Shape.encode]
    -- without tags only bare alternatives are written
    match choice.split b, bare, h with
    | (name, none), _, hv => exact reads_tagged_bare hv
  | _, .keyed choice s, n, b, hs, h, depth, hd, sc => by
    rw [Shape.Keeps] at h
    rw [read, Shape.encode]
    match choice.split b, h with
    | (name, some a), ⟨hn, ha, make, hv, hb⟩ =>
      subst hb
      -- the choice and the mapping that holds it take a level each
      obtain ⟨d, rfl⟩ : ∃ d, depth = d + 2 := ⟨depth - 2, by omega⟩
      exact reads_keyed_carrying hv (reads_read s a hs.2 ha d (by omega))
    | (name, none), ⟨hn, hv⟩ =>
      obtain ⟨d, rfl⟩ := Nat.exists_eq_add_one.mpr (show 0 < depth by omega)
      exact reads_keyed_bare hv
  | _, .buffered interpret write, n, a, hs, h, depth, hd, sc => by
    obtain ⟨hsimple, hread⟩ := h
    have hinterpreted : Reads (interpreted (interpret (write a).content)) [] a := by
      rw [hread]
      exact reads_pure a
    have := (reads_content hsimple (hs a) hd sc).bind
      (f := fun c => interpreted (interpret c)) hinterpreted
    rw [List.append_nil] at this
    rw [read, Shape.encode]
    exact this
  | _, .view there back s, n, b, hs, h, depth, hd, sc => by
    obtain ⟨hback, ha⟩ := h
    have := (reads_read s (back b) hs ha depth hd sc).map there
    rw [hback] at this
    rw [read, Shape.encode]
    exact this

/-- Reading the values of the written members of a record one by one fills their slots. -/
theorem builds_fields {kept : Number → Prop} : {σ α : Type} → (fields : Fields σ α) → {n : Nat} → (a : α) →
    fields.IsUntagged → fields.Keeps kept n a → (depth : Nat) → n < depth →
    Builds id (readMember fields depth) fields.empty (fields.encode a) (fields.filled a)
  | _, _, .nil, _, _, _, _, _, _ => .nil _
  | _, _, .cons field s rest, n, (a, b), hs, h, depth, hd => by
    obtain ⟨-, hs, hrest⟩ := hs
    obtain ⟨ha, name, hb⟩ := h
    have htail := builds_fields rest b hrest hb depth hd
    have names : ∀ m ∈ rest.encode b, m.1 ≠ field.name := by
      intro m hm hname
      exact name (hname ▸ rest.mem_names_of_mem_encode b m hm)
    rw [Fields.empty, Fields.encode, Fields.filled]
    split
    · -- A hidden member is not written, and its slot stays empty.
      exact Builds.cons_slot htail names none
    · rename_i hidden
      rw [if_neg hidden] at ha
      -- The member fills its slot, and the members after it have other names.
      refine .cons (fun inner => ?_) (Builds.cons_slot htail names (some a))
      have hread := (reads_read s a hs ha depth hd inner).map fun a => (some a, rest.empty)
      rw [readMember, if_pos (id_eq field.name)]
      exact hread

end

/-! ### Documents -/

/-- A text is what its events are read as. -/
theorem decode_of_reads {α : Type} {s : Shape α} {a : α} {es : List Event} {text : String}
    (h : ∀ sc, Reads (read s depthLimit sc) es a)
    (hdocument : (Document.ofText text).events.map (·.event) = es ∧
      (Document.ofText text).defect = none ∧ (Document.ofText text).continued = false) :
    decode s text = ⟨.ok a, 0⟩ := by
  obtain ⟨hevents, hdefect, hcontinued⟩ := hdocument
  rw [decode]
  generalize Document.ofText text = d at *
  obtain ⟨s', hread, -, hignored⟩ := h ⟨d, .top⟩ ⟨d.events, 0, 0⟩ []
    (by rw [List.append_nil]; exact hevents)
  simp only [hread, Document.complete, hdefect, hcontinued, hignored]
  rfl

/-- A written document is read as its value. Empty lines after it make no difference, unless its
last scalar would keep them. -/
theorem decode_write {kept : Number → Prop} {α : Type} {s : Shape α} {n : Nat} {a : α} (hs : s.IsUntagged)
    (h : s.Keeps kept n a) (hn : n < depthLimit) {j : Nat} (hj : KeepsEnd (s.encode a) → j = 0) :
    decode s (String.ofList (write .top 0 (s.encode a) ++ margin j 0)) = ⟨.ok a, 0⟩ :=
  decode_of_reads (reads_read s a hs h depthLimit hn)
    (Document.ofText_write (s.writable_encode a hs h) hj)

theorem decode_document {kept : Number → Prop} {α : Type} {s : Shape α} {n : Nat} {a : α} (hs : s.IsUntagged)
    (h : s.Keeps kept n a) (hn : n < depthLimit) : decode s (document (s.encode a)) = ⟨.ok a, 0⟩ := by
  have := decode_write hs h hn (j := 0) fun _ => rfl
  rwa [margin_zero, spaces_zero, List.append_nil] at this

end Yaml

/-! ### The shapes of a model -/

theorem isUntagged_commentsShape : commentsShape.IsUntagged := trivial

theorem isUntagged_namesShape {β : Type} (label : String) (values : List (String × β))
    (name : β → String) : (namesShape label values name).IsUntagged := fun _ => rfl

namespace Marker

/-- A marker is written under the names of its details. -/
theorem writable_encode (m : Marker) : Writable (shape.encode m) := by
  have since : IsKey "since" := by decide
  have forRemoval : IsKey "forRemoval" := by decide
  have members : ∀ d ∈ Fields.encode (.cons sinceField (detailShape sinceOf .text)
      (.cons forRemovalField (detailShape forRemovalOf .bool) .nil)) (m.since, m.forRemoval, ()),
      IsKey d.1 ∧ Writable d.2 := by
    intro d hd
    rcases m with ⟨_ | s, _ | b⟩ <;>
      simp [Fields.encode, Field.optional, sinceField, forRemovalField, detailShape,
        Shape.encode] at hd
    · subst hd
      exact ⟨forRemoval, .bool b⟩
    · subst hd
      exact ⟨since, .text s⟩
    · obtain rfl | rfl := hd
      · exact ⟨since, .text s⟩
      · exact ⟨forRemoval, .bool b⟩
  exact .record (fun d hd => (members d hd).1) fun d hd => (members d hd).2

end Marker

theorem isUntagged_markerSlotShape : markerSlotShape.IsUntagged := by
  intro o
  cases o with
  | none => exact .null
  | some m => exact m.writable_encode

theorem SourceElement.isUntagged_shape : SourceElement.shape.IsUntagged :=
  ⟨by decide, trivial, by decide, isUntagged_markerSlotShape, trivial⟩

theorem MemberOrigin.isUntagged_slotShape : MemberOrigin.slotShape.IsUntagged := by
  refine ⟨fun o => ?_, SourceElement.isUntagged_shape⟩
  cases o <;>
  · simp only [choice]
    decide

theorem Property.isUntagged_shape : Property.shape.IsUntagged :=
  ⟨by decide, trivial, by decide, trivial, by decide, trivial, by decide, isUntagged_commentsShape,
    by decide, MemberOrigin.isUntagged_slotShape, trivial⟩

/-- The documentation and the origin at the end of a node. -/
theorem isUntagged_comments_origin :
    (Fields.cons commentsField commentsShape (.cons originField originShape .nil)).IsUntagged :=
  ⟨by decide, isUntagged_commentsShape, by decide, SourceElement.isUntagged_shape, trivial⟩

theorem Bean.isUntagged_shape : Bean.shape.IsUntagged :=
  ⟨by decide, trivial, by decide, trivial, by decide, trivial, by decide, Property.isUntagged_shape,
    isUntagged_comments_origin⟩

theorem EnumValue.isUntagged_shape : EnumValue.shape.IsUntagged := by
  intro v
  cases v with
  | text s => exact .text s
  | number x => exact Scalar.writable_number x

theorem EnumMember.isUntagged_shape : EnumMember.shape.IsUntagged :=
  ⟨by decide, trivial, by decide, EnumValue.isUntagged_shape, isUntagged_comments_origin⟩

theorem Enumeration.isUntagged_shape : Enumeration.shape.IsUntagged :=
  ⟨by decide, trivial, by decide, isUntagged_namesShape _ _ _, by decide,
    EnumMember.isUntagged_shape, isUntagged_comments_origin⟩

theorem Parameter.isUntagged_shape : Parameter.shape.IsUntagged :=
  ⟨by decide, trivial, by decide, trivial, trivial⟩

theorem Endpoint.isUntagged_shape : Endpoint.shape.IsUntagged :=
  ⟨by decide, trivial, by decide, trivial, by decide, trivial, by decide, trivial, by decide,
    trivial, by decide, Parameter.isUntagged_shape, by decide, Parameter.isUntagged_shape,
    by decide, Parameter.isUntagged_shape, isUntagged_comments_origin⟩

theorem Application.isUntagged_shape : Application.shape.IsUntagged :=
  ⟨by decide, isUntagged_namesShape _ _ _, by decide, trivial, by decide, trivial, by decide,
    Endpoint.isUntagged_shape, trivial⟩

theorem Model.isUntagged_shape : Model.shape.IsUntagged :=
  ⟨by decide, Bean.isUntagged_shape, by decide, Enumeration.isUntagged_shape, by decide,
    Application.isUntagged_shape, trivial⟩

/-- A model is read back from the YAML document that is written for it, whichever numbers it has. -/
theorem Model.parse_numbers_yaml {m : Model} {kept : Number → Prop} (numbers : m.Numbers kept) :
    Model.parse .yaml (m.render .yaml) = .ok m := by
  have h := Yaml.decode_document Model.isUntagged_shape
    (Model.keeps_shape (n := 9) (by decide) m numbers) (by decide)
  rw [Model.parse, Shape.parse, Model.render]
  simp only [h]
  rfl

/-- Nothing of a model is lost when it is written as YAML and read again. -/
theorem Model.parse_render_yaml (m : Model) (whole : m.IsWhole) :
    Model.parse .yaml (m.render .yaml) = .ok m :=
  parse_numbers_yaml whole

theorem Model.parse_render_yaml_awkward :
    Model.awkward.IsWhole ∧ Model.parse .yaml (Model.awkward.render .yaml) = .ok Model.awkward :=
  ⟨Model.isWhole_awkward, Model.parse_render_yaml _ Model.isWhole_awkward⟩

end ApiSurface
