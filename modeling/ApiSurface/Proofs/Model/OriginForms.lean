/-
The two forms of a property's origin.

On its own an origin names its kind by a tag, which JSON writes as an object with one member; in a
property it is an object with one member in either language. So in JSON the two forms look alike,
and they are read alike, but for the object that names the kind without an element and holds the
absent value (`Syntax.IsNoneObject`): that is an origin on its own, and the slot of a property
refuses it.

What is written in either form is read back in both languages.

* `MemberOrigin.parse_forms` — how far the two forms agree, and what is written is read back.
-/
import ApiSurface.Proofs.Json.Choice
import ApiSurface.Proofs.Json.RoundTrip
import ApiSurface.Proofs.Json.Written
import ApiSurface.Proofs.Yaml.Tagged
import Mathlib

namespace ApiSurface

open Json (Syntax textOf? member?)

/-- Whether a value is an object whose only member has the name of the missing origin and holds the
absent value. -/
def Json.Syntax.IsNoneObject (t : Syntax) : Prop :=
  ∃ key, textOf? key = some "none" ∧ t = .object [(key, .null)]

namespace Property

/-- The members of a property. -/
def fields : Fields (Option String × Option String × Option Bool × Option (List String) ×
    Option MemberOrigin × Unit) (String × String × Bool × List String × MemberOrigin × Unit) :=
  .cons (.required "name") .text (.cons (.required "type") .text
    (.cons (.defaulted "optional" false) .flag (.cons commentsField commentsShape
      (.cons { name := "origin", default := some .none, hidden := MemberOrigin.isNone }
        MemberOrigin.slotShape .nil))))

/-- Whether a text is the object of a property with one more member, a value under the name of the
origin, which the other members leave out. -/
def HasOrigin (p : Property) (t : Syntax) (text : String) : Prop :=
  ∃ (key : List Char) (before after : List (List Char × Syntax)) (other : String),
    textOf? key = some "origin" ∧ (Syntax.object (before ++ (key, t) :: after)).Document text ∧
    member? "origin" (before ++ after) = none ∧
    (Syntax.object (before ++ after)).Document other ∧ (shape.parse .json other).result = .ok p

/-- A property takes its origin from the member that is put into its object. -/
theorem ofMembers?_origin {depth : Nat} {before after : List (List Char × Syntax)} {key : List Char}
    {r : String × String × Bool × List String × MemberOrigin × Unit}
    (hkey : textOf? key = some "origin") (absent : member? "origin" (before ++ after) = none)
    (h : fields.ofMembers? depth (before ++ after) = some r) (t : Syntax) :
    fields.ofMembers? depth (before ++ (key, t) :: after)
      = (MemberOrigin.slotShape.ofSyntax? depth t).map fun o =>
          (r.1, r.2.1, r.2.2.1, r.2.2.2.1, o, ()) := by
  have lens : fields.Lens { name := "origin", default := some .none, hidden := MemberOrigin.isNone }
      MemberOrigin.slotShape _ _ :=
    .tail (by decide) (.tail (by decide) (.tail (by decide) (.tail (by decide) .head)))
  rw [Fields.ofMembers?_perm List.perm_middle]
  exact lens.ofMembers? (by decide) (fun _ => Fields.once_of_ofMembers? h) absent h hkey t

/-- A property in JSON has the origin that its slot reads, and is refused if the slot refuses it. -/
theorem toOption_parse_origin {p : Property} {t : Syntax} {text : String} (h : p.HasOrigin t text) :
    (shape.parse .json text).result.toOption
      = (MemberOrigin.slotShape.ofSyntax? 127 t).map p.withOrigin := by
  obtain ⟨key, before, after, other, hkey, htext, absent, hother, hparse⟩ := h
  have hp := Shape.toOption_parse_json_document (s := shape) hother
  rw [hparse] at hp
  obtain ⟨r, hr, rfl⟩ := Option.map_eq_some_iff.mp hp.symm
  have hr : fields.ofMembers? 127 (before ++ after) = some r := hr
  rw [Shape.toOption_parse_json_document htext]
  show (fields.ofMembers? 127 _).map _ = _
  rw [ofMembers?_origin hkey absent hr, Option.map_map]
  rfl

end Property

namespace MemberOrigin

/-! ### Reading -/

/-- The slot of a property reads what is present as a record with one member. -/
theorem ofSyntax?_slot {t : Syntax} (present : t ≠ .null) (depth : Nat) :
    slotShape.ofSyntax? depth t = (Shape.keyed choice SourceElement.shape).ofSyntax? depth t := by
  show ((Shape.optional _).ofSyntax? depth t).map _ = _
  rw [Json.ofSyntax?_optional present, Option.map_map]
  exact Option.map_id'

/-- The missing origin is the only kind without an element. -/
theorem variant?_eq_bare {key : List Char} {o : MemberOrigin} :
    Syntax.variant? choice key = some (.bare o) ↔ textOf? key = some "none" ∧ o = .none := by
  have hlookup (name : String) : choice.variants.lookup name = some (.bare o) ↔
      name = "none" ∧ o = .none := by
    simp only [choice, List.lookup_cons, List.lookup_nil]
    by_cases hmethod : name = "method"
    · simp [hmethod]
    by_cases hfield : name = "field"
    · simp [hfield]
    by_cases hnone : name = "none"
    · simp [hnone, eq_comm]
    · simp [beq_false_of_ne hmethod, beq_false_of_ne hfield, beq_false_of_ne hnone, hnone]
  rw [Syntax.variant?]
  cases textOf? key with
  | none => simp
  | some name => simp [hlookup]

/-- The object that names the missing origin is one on its own, and none in a property. -/
theorem ofSyntax?_none_object {t : Syntax} (h : t.IsNoneObject) {depth : Nat} (hd : 1 < depth) :
    shape.ofSyntax? depth t = some .none ∧ slotShape.ofSyntax? depth t = Option.none := by
  obtain ⟨key, hkey, rfl⟩ := h
  rw [ofSyntax?_slot (by simp)]
  exact Shape.ofSyntax?_bare_object (variant?_eq_bare.mpr ⟨hkey, rfl⟩) hd

/-- Any other value that is present is the same origin on its own and in the slot, at whatever depth
each of them is read. -/
theorem ofSyntax?_slot_eq {t : Syntax} (present : t ≠ .null) (h : ¬ t.IsNoneObject)
    {n depth depth' : Nat} (within : t.Within n) (hd : n < depth) (hd' : n < depth') :
    slotShape.ofSyntax? depth' t = shape.ofSyntax? depth t := by
  rw [ofSyntax?_slot present, Shape.ofSyntax?_within _ within hd' hd]
  refine (Shape.ofSyntax?_tagged_eq_keyed fun key o hv heq => h ?_).symm
  exact ⟨key, (variant?_eq_bare.mp hv).1, heq⟩

/-! ### Writing -/

variable {kept : Number → Prop}

/-- Nothing of an origin on its own is lost when it is written. -/
theorem keeps_shape {n : Nat} (h : 2 < n) (o : MemberOrigin) : shape.Keeps kept n o := by
  have element (e : SourceElement) : SourceElement.shape.Keeps kept (n - 1) e :=
    SourceElement.keeps_shape (by omega) e
  cases o with
  | method e => exact ⟨by omega, element e, .method, rfl, rfl⟩
  | field e => exact ⟨by omega, element e, .field, rfl, rfl⟩
  | none => exact rfl

/-- An origin on its own is read back from its YAML document. -/
theorem decode_yaml (o : MemberOrigin) :
    Yaml.decode shape (Yaml.document (shape.encode o)) = ⟨.ok o, 0⟩ := by
  have keeps : shape.Keeps (fun _ => True) 3 o := keeps_shape (by decide) o
  refine Yaml.decode_tagged SourceElement.isUntagged_shape keeps (by decide)
    fun name e hsplit => ⟨?_, by simp [Fields.encode, Field.required]⟩
  cases o with
  | none => cases hsplit
  | _ =>
    obtain ⟨rfl, -⟩ := Prod.mk.inj hsplit
    decide

end MemberOrigin

/-- A kept value is read back from its JSON document on one line. -/
theorem Shape.parse_compact {α : Type} {s : Shape α} {n : Nat} {a : α}
    (h : s.Keeps Json.Reader.Survives n a) (hn : n < Json.depthLimit) :
    (s.parse .json (s.render .json a)).result = .ok a := by
  have blank : ∀ b ∈ ([] : List Char), Json.Reader.isBlank b = true := by simp
  have hdecode := Json.decode_write Json.Layout.isBlank_compact h hn blank blank
  rw [List.nil_append, List.append_nil] at hdecode
  rw [Shape.parse, Shape.render, Json.compact, hdecode]
  rfl

theorem MemberOrigin.parse_render (f : Format) (o : MemberOrigin) :
    (shape.parse f (shape.render f o)).result = .ok o := by
  cases f with
  | json => exact Shape.parse_compact (keeps_shape (n := 3) (by decide) o) (by decide)
  | yaml =>
    rw [Shape.parse, Shape.render]
    simp only [o.decode_yaml]
    rfl

theorem Property.parse_render (f : Format) (p : Property) :
    (shape.parse f (shape.render f p)).result = .ok p := by
  cases f with
  | json => exact Shape.parse_compact (Property.keeps_shape (n := 5) (by decide) p) (by decide)
  | yaml =>
    have keeps : shape.Keeps (fun _ => True) 5 p := Property.keeps_shape (by decide) p
    have hdecode := Yaml.decode_document Property.isUntagged_shape keeps (by decide)
    rw [Shape.parse, Shape.render]
    simp only [hdecode]
    rfl

/-- A property is written with its origin, unless that is missing. -/
theorem Property.mem_encode_origin (p : Property) :
    "origin" ∈ (fields.encode
        (p.name, p.typeName, p.isOptional, p.comments, p.origin, ())).map (·.1)
      ↔ p.origin ≠ .none := by
  cases ho : p.origin <;>
    simp [fields, Fields.encode, Field.required, Field.defaulted, commentsField,
      MemberOrigin.isNone]

namespace MemberOrigin

/-- An origin in JSON is the same on its own and in a property, or is refused in both places, but
for the object that names the missing origin, which a property refuses. What is written of an origin
in either form is read back in both languages, and a property is written with its origin unless that
is missing. -/
theorem parse_forms :
    (∀ {t : Syntax} {own text : String} {p : Property}, t.Within 100 → t ≠ .null →
      t.Document own → p.HasOrigin t text →
      (t.IsNoneObject ∧ (shape.parse .json own).result = .ok .none ∧
        ∃ e, (Property.shape.parse .json text).result = .error (.json e)) ∨
      ¬ t.IsNoneObject ∧
        ((∃ o, (shape.parse .json own).result = .ok o ∧
          (Property.shape.parse .json text).result = .ok (p.withOrigin o)) ∨
        (∃ e, (shape.parse .json own).result = .error (.json e)) ∧
          ∃ e, (Property.shape.parse .json text).result = .error (.json e))) ∧
    (∀ f o, (shape.parse f (shape.render f o)).result = .ok o) ∧
    (∀ f p, (Property.shape.parse f (Property.shape.render f p)).result = .ok p) ∧
    ∀ p : Property, ∃ members, Property.shape.encode p = .record members ∧
      ("origin" ∈ members.map (·.1) ↔ p.origin ≠ .none) := by
  refine ⟨fun {t own text p} within present hown hp => ?_, parse_render, Property.parse_render,
    fun p => ⟨_, rfl, p.mem_encode_origin⟩⟩
  have hslot := Property.toOption_parse_origin hp
  by_cases hnone : t.IsNoneObject
  · have hdirect := (ofSyntax?_none_object hnone (show 1 < Json.depthLimit by decide)).1
    have hrefused := (ofSyntax?_none_object hnone (show 1 < 127 by decide)).2
    rw [hrefused] at hslot
    exact .inl ⟨hnone, Shape.parse_json_document hown hdirect, Shape.exists_json_error hslot⟩
  · have heq : slotShape.ofSyntax? 127 t = shape.ofSyntax? Json.depthLimit t :=
      ofSyntax?_slot_eq present hnone within (by decide) (by decide)
    refine .inr ⟨hnone, ?_⟩
    rw [heq] at hslot
    cases hdirect : shape.ofSyntax? Json.depthLimit t with
    | some o =>
      rw [hdirect] at hslot
      exact .inl ⟨o, Shape.parse_json_document hown hdirect, eq_ok_of_toOption hslot⟩
    | none =>
      rw [hdirect] at hslot
      refine .inr ⟨Shape.exists_json_error ?_, Shape.exists_json_error hslot⟩
      rw [Shape.toOption_parse_json_document hown, hdirect]

/-- A method without a marker, on its own and in a property. -/
theorem parse_forms_method :
    (shape.parse .json "\x7b\"method\":\x7b\"name\":\"n\"\x7d\x7d").result
      = .ok (.method ⟨"n", Option.none⟩) ∧
    (Property.shape.parse .json
      "\x7b\"name\":\"p\",\"type\":\"t\",\"origin\":\x7b\"method\":\x7b\"name\":\"n\"\x7d\x7d\x7d").result
      = .ok { name := "p", typeName := "t", origin := .method ⟨"n", Option.none⟩ } := by
  have written (t : Tree) := Json.document_write Json.Layout.isBlank_compact t
  have hown : (Syntax.object
      [("method".toList, .object [("name".toList, .text "n".toList)])]).Document
        "\x7b\"method\":\x7b\"name\":\"n\"\x7d\x7d" :=
    written (.record [("method", .record [("name", .text "n")])])
  have hother : (Syntax.object [("name".toList, .text "p".toList),
      ("type".toList, .text "t".toList)]).Document "\x7b\"name\":\"p\",\"type\":\"t\"\x7d" :=
    written (.record [("name", .text "p"), ("type", .text "t")])
  have htext : (Syntax.object ([("name".toList, .text "p".toList),
      ("type".toList, .text "t".toList)] ++ ("origin".toList,
        .object [("method".toList, .object [("name".toList, .text "n".toList)])]) :: [])).Document
      "\x7b\"name\":\"p\",\"type\":\"t\",\"origin\":\x7b\"method\":\x7b\"name\":\"n\"\x7d\x7d\x7d" :=
    written (.record [("name", .text "p"), ("type", .text "t"),
      ("origin", .record [("method", .record [("name", .text "n")])])])
  have within : (Syntax.object
      [("method".toList, .object [("name".toList, .text "n".toList)])]).Within 100 :=
    .object (List.forall_mem_singleton.mpr (.object (List.forall_mem_singleton.mpr (.text _))))
  have hp : Property.HasOrigin { name := "p", typeName := "t" } _ _ :=
    ⟨_, _, _, _, rfl, htext, by decide, hother, by cbv⟩
  have hread : (shape.parse .json "\x7b\"method\":\x7b\"name\":\"n\"\x7d\x7d").result
      = .ok (.method ⟨"n", Option.none⟩) := by cbv
  obtain ⟨⟨_, _, heq⟩, -⟩ | ⟨-, ⟨o, ho, hproperty⟩ | ⟨⟨e, he⟩, -⟩⟩ :=
    parse_forms.1 within (by simp) hown hp
  · cases heq
  · rw [hread] at ho
    cases ho
    exact ⟨hread, hproperty⟩
  · rw [hread] at he
    cases he

/-- The object that names the missing origin is read on its own, and refused in a property. -/
theorem parse_none_object :
    (shape.parse .json "\x7b\"none\":null\x7d").result = .ok .none ∧
    ∃ e, (Property.shape.parse .json
      "\x7b\"name\":\"p\",\"type\":\"t\",\"origin\":\x7b\"none\":null\x7d\x7d").result
        = .error (.json e) := by
  refine ⟨by cbv, ?_⟩
  exact Shape.exists_json_error (Option.isNone_iff_eq_none.mp (by decide +kernel))

end MemberOrigin

end ApiSurface
