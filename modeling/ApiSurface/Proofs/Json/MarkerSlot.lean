/-
An object in a marker slot.

The slot reads the whole object as a content before it looks at its members. What it makes of the
content is the record that the members make (`ofEntries?_entries?`), so an object in the slot is the
same marker as the object on its own (`ofSyntax?_slot`), as long as all of it can be read.
-/
import ApiSurface.Proofs.Json.Members
import ApiSurface.Proofs.Wire.Marker

namespace ApiSurface

open Json (Syntax textOf? entries?)

namespace Json

theorem content?_ne_null {t : Syntax} (h : t ≠ .null) {depth : Nat} {c : Content}
    (hc : t.content? depth = some c) : c ≠ .null := by
  rintro rfl
  cases depth with
  | zero => cases t <;> cases hc
  | succ depth => cases t <;> simp_all [Syntax.content?]

theorem ofSyntax?_optional {α : Type} {s : Shape α} {depth : Nat} {t : Syntax} (h : t ≠ .null) :
    (Shape.optional s).ofSyntax? depth t = (s.ofSyntax? depth t).map some := by
  cases t <;> first | rfl | exact absurd rfl h

end Json

namespace Marker

/-- The details of a marker. -/
def fields : Fields (Option (Option String) × Option (Option Bool) × Unit)
    (Option String × Option Bool × Unit) :=
  .cons sinceField (detailShape sinceOf .text)
    (.cons forRemovalField (detailShape forRemovalOf .bool) .nil)

/-- The marker with some details. -/
def ofDetails (d : Option String × Option Bool × Unit) : Marker := ⟨d.1, d.2.1⟩

theorem detailOf_of_ne_null {α : Type} (read : Content → Interpreted (Option α)) {c : Content}
    (h : c ≠ .null) : detailOf read c = read c := by
  cases c <;> first | rfl | exact absurd rfl h

/-- A detail that can be read is what its content is. -/
theorem ofSyntax?_detail {α : Type} (read : Content → Interpreted (Option α)) (write : α → Tree)
    {depth : Nat} {t : Syntax} {c : Content} (hc : t.content? depth = some c) :
    (detailShape read write).ofSyntax? depth t = (detailOf read c).result.toOption := by
  by_cases hnull : t = .null
  · subst hnull
    cases depth with
    | zero => cases hc
    | succ depth =>
      cases hc
      rfl
  · rw [detailShape, Shape.ofSyntax?, Json.ofSyntax?_optional hnull, Shape.ofSyntax?, hc,
      Option.bind_some, detailOf_of_ne_null read (Json.content?_ne_null hnull hc)]
    cases (read c).result <;> rfl

section Entries

variable {since : Option (Option String)} {forRemoval : Option (Option Bool)} {depth : Nat}
  {k : String} {t : Syntax} {c : Content}

theorem putMember?_since (hk : k = sinceField.name) (hc : t.content? depth = some c) :
    fields.putMember? depth (none, forRemoval, ()) k t
      = some (some (sinceIn c), forRemoval, ()) := by
  rw [fields, Fields.putMember?_same hk, ofSyntax?_detail _ _ hc, detailOf_sinceOf]
  rfl

theorem putMember?_forRemoval (hsince : k ≠ sinceField.name) (hk : k = forRemovalField.name)
    (hc : t.content? depth = some c) :
    fields.putMember? depth (since, none, ()) k t
      = some (since, some (forRemovalIn c), ()) := by
  rw [fields, Fields.putMember?_other hsince, Fields.putMember?_same hk, ofSyntax?_detail _ _ hc,
    detailOf_forRemovalOf]
  rfl

/-- The entries of a marker are its members, each detail at most once. -/
theorem ofEntries?_entries? {ms : List (List Char × Syntax)} {es : List (Content × Content)}
    (h : entries? ms depth = some es) :
    ofEntries? since forRemoval es
      = (fields.putMembers? depth (since, forRemoval, ()) ms).map
        fun slots => ⟨slots.1.join, slots.2.1.join⟩ := by
  induction ms generalizing es since forRemoval with
  | nil =>
    cases h
    rfl
  | cons m ms ih =>
    obtain ⟨key, t⟩ := m
    rw [entries?] at h
    obtain ⟨k, hkey, h⟩ := Option.bind_eq_some_iff.mp h
    obtain ⟨c, hc, h⟩ := Option.bind_eq_some_iff.mp h
    obtain ⟨es, hes, rfl⟩ := Option.map_eq_some_iff.mp h
    rw [Fields.putMembers?_text hkey, ofEntries?_cons]
    by_cases hsince : k = sinceField.name
    · have hkind : keyOf (.text k) = some .since := by simp only [keyOf, if_pos hsince]
      rw [hkind]
      -- the version is known by now, or it is this one
      cases since with
      | some a =>
        rw [fields, Fields.putMember?_twice hsince]
        rfl
      | none =>
        rw [putMember?_since hsince hc]
        exact ih hes
    · by_cases hremoval : k = forRemovalField.name
      · have hkind : keyOf (.text k) = some .forRemoval := by
          simp only [keyOf, if_neg hsince, if_pos hremoval]
        rw [hkind]
        cases forRemoval with
        | some a =>
          rw [fields, Fields.putMember?_other hsince, Fields.putMember?_twice hremoval]
          rfl
        | none =>
          rw [putMember?_forRemoval hsince hremoval hc]
          exact ih hes
      · have hkind : keyOf (.text k) = some .other := by
          simp only [keyOf, if_neg hsince, if_neg hremoval]
        have hunknown : k ∉ fields.names := by
          simp [fields, Fields.names, hsince, hremoval]
        rw [hkind, Fields.putMember?_unknown _ _ _ hunknown]
        exact ih hes

end Entries

/-- The slots of the details always make up a marker. -/
theorem finish_fields (since : Option (Option String)) (forRemoval : Option (Option Bool)) :
    fields.finish (since, forRemoval, ()) = .ok (since.join, forRemoval.join, ()) := by
  cases since <;> cases forRemoval <;> rfl

/-- The details of a map are those of the object that it was read from. -/
theorem ofEntries_details {depth : Nat} {ms : List (List Char × Syntax)}
    {es : List (Content × Content)} (h : entries? ms depth = some es) :
    ofEntries? none none es = (fields.ofMembers? depth ms).map ofDetails := by
  rw [ofEntries?_entries? h, Fields.ofMembers?]
  show _ = ((fields.putMembers? depth (none, none, ()) ms).bind _).map _
  cases fields.putMembers? depth (none, none, ()) ms with
  | none => rfl
  | some slots =>
    obtain ⟨since, forRemoval, ⟨⟩⟩ := slots
    rw [Option.bind_some, finish_fields]
    rfl

end Marker

theorem Json.content?_object (ms : List (List Char × Syntax)) (depth : Nat) :
    (Syntax.object ms).content? depth
      = below depth fun depth => (entries? ms depth).map .map := by
  rw [below]
  cases depth with
  | zero => rfl
  | succ depth =>
    cases depth with
    | zero => rfl
    | succ depth =>
      rw [if_neg (by omega)]
      rfl

/-- An object in a marker slot is a marker, once all of it was read. -/
theorem ofSyntax?_slot (depth : Nat) (ms : List (List Char × Syntax)) :
    markerSlotShape.ofSyntax? depth (.object ms) = Json.below depth fun depth =>
      if (entries? ms depth).isNone then none
      else (Marker.fields.ofMembers? depth ms).map (some ∘ Marker.ofDetails) := by
  rw [markerSlotShape, Shape.ofSyntax?, Json.ofSyntax?_optional (by simp), Shape.ofSyntax?,
    Json.content?_object, Json.below, Json.below]
  by_cases hdepth : depth ≤ 1
  · rw [if_pos hdepth, if_pos hdepth]
    rfl
  · rw [if_neg hdepth, if_neg hdepth]
    cases hes : entries? ms (depth - 1) with
    | none => rfl
    | some es =>
      show ((Marker.slotOf (.map es)).result.toOption.map some).map Option.join = _
      rw [Marker.slotOf_map, Marker.ofEntries_details hes]
      cases Marker.fields.ofMembers? (depth - 1) ms <;> rfl

end ApiSurface
