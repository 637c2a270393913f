/-
The details of a JSON marker.

A marker takes its version and its removal flag each from the member of that name, whatever the form
of the other one and whatever else is in the object (`Marker.ofObject`). The reader of a marker on
its own takes the members as they come, while a marker in its slot is held back as a content first. A
value gives the same details as its content (`Syntax.details_of_content`), so both make the same
marker of an object that can be read whole (`Marker.ofSyntax?_object`).
-/
import ApiSurface.Proofs.Json.Edits
import ApiSurface.Proofs.Wire.Record
import Mathlib

namespace ApiSurface.Json

/-- How the members of an object are read. -/
def members (depth : Nat) : MemberReading (List Char × Syntax) where
  name m := textOf? m.1
  value s m := s.ofSyntax? depth m.2

/-- The first member of a name. -/
def member? (name : String) (ms : List (List Char × Syntax)) : Option Syntax :=
  (ms.find? fun m => textOf? m.1 = some name).map (·.2)

/-- Whether at most one member has a name. -/
def Once (name : String) (ms : List (List Char × Syntax)) : Prop :=
  ms.Pairwise fun m m' => textOf? m.1 = some name → textOf? m'.1 ≠ some name

theorem putMember?_eq_put (depth : Nat) : {σ α : Type} → (fields : Fields σ α) → (slots : σ) →
    (name : String) → (m : List Char × Syntax) →
    fields.putMember? depth slots name m.2 = fields.put (members depth) slots name m
  | _, _, .nil, (), _, _ => rfl
  | _, _, .cons field s rest, (slot, slots), name, m => by
    cases slot with
    | none => rw [Fields.putMember?, Fields.put, putMember?_eq_put depth rest slots name m]; rfl
    | some a => rw [Fields.putMember?, Fields.put, putMember?_eq_put depth rest slots name m]

/-- An object is the record that its members make. -/
theorem ofMembers?_eq_make? {σ α : Type} (fields : Fields σ α) (depth : Nat)
    (ms : List (List Char × Syntax)) : fields.ofMembers? depth ms = fields.make? (members depth) ms := by
  simp only [Fields.ofMembers?, Fields.putMembers?, Fields.make?, Fields.fill?, putMember?_eq_put]
  rfl

/-- The first field of a record is read from the member of its name only. -/
theorem ofMembers?_cons {α β σ : Type} {field : Field α} {s : Shape α} {rest : Fields σ β}
    {depth : Nat} {ms : List (List Char × Syntax)} (fresh : field.name ∉ rest.names)
    (once : Once field.name ms) : (Fields.cons field s rest).ofMembers? depth ms
      = ((member? field.name ms).elim field.default (s.ofSyntax? depth)).bind fun a =>
        (rest.ofMembers? depth ms).map (a, ·) := by
  rw [ofMembers?_eq_make?, ofMembers?_eq_make?,
    Fields.make?_cons (r := members depth) fresh once, member?, Option.elim_map]
  rfl

/-- A record whose first field is read from the member of its name, and the others from all members. -/
theorem of_ofMembers?_cons {α β σ : Type} {field : Field α} {s : Shape α} {rest : Fields σ β}
    {depth : Nat} {ms : List (List Char × Syntax)} {a : α} {b : β} (fresh : field.name ∉ rest.names)
    (once : Once field.name ms)
    (h : (Fields.cons field s rest).ofMembers? depth ms = some (a, b)) :
    (member? field.name ms).elim field.default (s.ofSyntax? depth) = some a ∧
      rest.ofMembers? depth ms = some b := by
  rw [ofMembers?_cons fresh once] at h
  obtain ⟨a', ha, h⟩ := Option.bind_eq_some_iff.mp h
  obtain ⟨b', hb, hpair⟩ := Option.map_eq_some_iff.mp h
  cases hpair
  exact ⟨ha, hb⟩

theorem ofMembers?_nil {depth : Nat} {ms : List (List Char × Syntax)}
    (h : ∀ m ∈ ms, (textOf? m.1).isSome) : Fields.nil.ofMembers? depth ms = some () := by
  rw [ofMembers?_eq_make?, Fields.make?_nil h]

section Names

variable {name : String} {key : List Char} {t : Syntax} {ms : List (List Char × Syntax)}

theorem member?_eq_none : member? name ms = none ↔ ∀ m ∈ ms, textOf? m.1 ≠ some name := by
  simp [member?, List.find?_eq_none]

theorem member?_cons_self (hkey : textOf? key = some name) :
    member? name ((key, t) :: ms) = some t := by
  simp [member?, hkey]

theorem member?_cons_other (hkey : textOf? key ≠ some name) :
    member? name ((key, t) :: ms) = member? name ms := by
  simp [member?, hkey]

end Names

/-! ### Details -/

/-- The version that a value gives: a text, or a number by its digits. -/
def Syntax.version? : Syntax → Option String
  | .text body => textOf? body
  | .number spelling => (numberOf? spelling).map Number.toText
  | _ => none

/-- A value with a content gives the details that its content gives. -/
theorem Syntax.details_of_content {t : Syntax} {depth : Nat} {c : Content}
    (h : t.content? depth = some c) :
    Marker.sinceIn c = t.version? ∧ Marker.forRemovalIn c = t.flag? := by
  cases depth with
  | zero => cases t <;> cases h
  | succ depth =>
    cases t with
    | null | bool =>
      cases h
      exact ⟨rfl, rfl⟩
    | number spelling =>
      obtain ⟨x, hx, rfl⟩ := Option.map_eq_some_iff.mp h
      exact ⟨by rw [version?, hx]; rfl, rfl⟩
    | text body =>
      obtain ⟨s, hs, rfl⟩ := Option.map_eq_some_iff.mp h
      exact ⟨by rw [version?, hs]; rfl, rfl⟩
    | list ts =>
      obtain ⟨-, h⟩ := Option.ite_none_left_eq_some.mp h
      obtain ⟨cs, -, rfl⟩ := Option.map_eq_some_iff.mp h
      exact ⟨rfl, rfl⟩
    | object ms =>
      obtain ⟨-, h⟩ := Option.ite_none_left_eq_some.mp h
      obtain ⟨es, -, rfl⟩ := Option.map_eq_some_iff.mp h
      exact ⟨rfl, rfl⟩

end ApiSurface.Json

namespace ApiSurface.Marker

open Json (Syntax textOf? entries? member?)

/-- Whether each detail of a marker occurs at most once among members. -/
def Once (ms : List (List Char × Syntax)) : Prop := ∀ name ∈ fields.names, Json.Once name ms

/-- The marker that an object gives. -/
def ofObject (ms : List (List Char × Syntax)) : Marker where
  since := (member? sinceField.name ms).bind Syntax.version?
  forRemoval := (member? forRemovalField.name ms).bind Syntax.flag?

section Objects

variable {depth : Nat} {ms : List (List Char × Syntax)} {es : List (Content × Content)}

/-- Every value among members that are read whole has a content. -/
theorem exists_content_of_member? (h : ∃ es, entries? ms depth = some es) {name : String}
    {t : Syntax} (ht : member? name ms = some t) : ∃ c, t.content? depth = some c := by
  obtain ⟨m, hm, rfl⟩ := Option.map_eq_some_iff.mp ht
  exact (Json.exists_entries_iff.mp h m (List.mem_of_find?_eq_some hm)).2

/-- A detail is what the member of its name gives. -/
theorem ofSyntax?_member {α : Type} {read : Content → Interpreted (Option α)} {write : α → Tree}
    {inContent : Content → Option α} {inValue : Syntax → Option α} {name : String}
    (hread : ∀ c, (detailOf read c).result = .ok (inContent c))
    (hdetail : ∀ {t : Syntax} {c : Content}, t.content? depth = some c → inContent c = inValue t)
    (h : ∃ es, entries? ms depth = some es) :
    (member? name ms).elim (some none) ((detailShape read write).ofSyntax? depth)
      = some ((member? name ms).bind inValue) := by
  cases ht : member? name ms with
  | none => rfl
  | some t =>
    obtain ⟨c, hc⟩ := exists_content_of_member? h ht
    rw [Option.elim_some, ofSyntax?_detail read write hc, hread, hdetail hc]
    rfl

/-- An object that is read whole makes the marker that it gives. -/
theorem Once.ofMembers? (once : Once ms) (h : ∃ es, entries? ms depth = some es) :
    (fields.ofMembers? depth ms).map ofDetails = some (ofObject ms) := by
  have hkeys (m : List Char × Syntax) (hm : m ∈ ms) : (textOf? m.1).isSome :=
    Option.isSome_iff_exists.mpr (Json.exists_entries_iff.mp h m hm).1
  have hsince : (member? sinceField.name ms).elim (some none)
      ((detailShape sinceOf .text).ofSyntax? depth) = some (ofObject ms).since :=
    ofSyntax?_member detailOf_sinceOf (fun hc => (Syntax.details_of_content hc).1) h
  have hremoval : (member? forRemovalField.name ms).elim (some none)
      ((detailShape forRemovalOf .bool).ofSyntax? depth) = some (ofObject ms).forRemoval :=
    ofSyntax?_member detailOf_forRemovalOf (fun hc => (Syntax.details_of_content hc).2) h
  rw [fields, Json.ofMembers?_cons (by decide) (once _ (by decide)),
    Json.ofMembers?_cons (by decide) (once _ (by decide)), Json.ofMembers?_nil hkeys]
  show (((member? sinceField.name ms).elim (some none) _).bind _).map _ = _
  rw [hsince, Option.bind_some]
  show ((((member? forRemovalField.name ms).elim (some none) _).bind _).map _).map _ = _
  rw [hremoval]
  rfl

/-- An object that can be read whole is the same marker on its own and in a slot. -/
theorem ofSyntax?_object (plain : (Syntax.object ms).Plain 100) (once : Once ms)
    (hdepth : 100 < depth) :
    Marker.shape.ofSyntax? depth (.object ms) = some (ofObject ms) ∧
      markerSlotShape.ofSyntax? depth (.object ms) = some (some (ofObject ms)) := by
  obtain ⟨c, hc⟩ := plain.exists_content hdepth
  rw [Json.content?_object, Json.below, if_neg (by omega)] at hc
  obtain ⟨es, hes, -⟩ := Option.map_eq_some_iff.mp hc
  have hread := once.ofMembers? ⟨es, hes⟩
  constructor
  · show (Json.below depth fun depth => fields.ofMembers? depth ms).map ofDetails = _
    rw [Json.below, if_neg (by omega), hread]
  · rw [ofSyntax?_slot, Json.below, if_neg (by omega), hes, if_neg (by simp), ← Option.map_map,
      hread]
    rfl

end Objects

end ApiSurface.Marker

namespace ApiSurface

open Json (Syntax textOf?)

/-- A JSON document is what its value stands for. -/
theorem Shape.toOption_parse_json_document {α : Type} {s : Shape α} {t : Syntax} {text : String}
    (h : t.Document text) :
    (s.parse .json text).result.toOption = s.ofSyntax? Json.depthLimit t := by
  rw [← Json.run_document (Json.Reader.denotes_read s Json.depthLimit t) h]
  show ((Json.decode s text).result.mapError Error.json).toOption = _
  rw [Json.decode]
  cases (Json.run (Json.read s Json.depthLimit) text).result <;> rfl

theorem Shape.parse_json_document {α : Type} {s : Shape α} {t : Syntax} {text : String} {a : α}
    (h : t.Document text) (ha : s.ofSyntax? Json.depthLimit t = some a) :
    (s.parse .json text).result = .ok a := by
  rw [← toOption_parse_json_document h] at ha
  exact eq_ok_of_toOption ha

/-- A text that does not stand for a value is a JSON error. -/
theorem Shape.exists_json_error {α : Type} {s : Shape α} {text : String}
    (h : (s.parse .json text).result.toOption = none) :
    ∃ e, (s.parse .json text).result = .error (.json e) := by
  have hparse : (s.parse .json text).result = (Json.decode s text).result.mapError Error.json := rfl
  rw [hparse] at h ⊢
  cases hd : (Json.decode s text).result with
  | error e => exact ⟨e, rfl⟩
  | ok a =>
    rw [hd] at h
    cases h

/-! ### Elements -/

/-- Whether the members of an object are those of an element with a name, each at most once. -/
structure Json.IsElement (ms : List (List Char × Syntax)) (name : String) : Prop where
  keys : ∀ m ∈ ms, (textOf? m.1).isSome
  once : ∀ field ∈ SourceElement.fields.names, Json.Once field ms
  named : ∃ body, Json.member? "name" ms = some (.text body) ∧ textOf? body = some name

theorem Json.isElement_pair {nameKey body slotKey : List Char} {name : String} {t : Syntax}
    (hname : textOf? nameKey = some "name") (hbody : textOf? body = some name)
    (hslot : textOf? slotKey = some "deprecated") :
    IsElement [(nameKey, .text body), (slotKey, t)] name where
  keys := by simp [hname, hslot]
  once field _ := by
    refine List.pairwise_pair.mpr ?_
    rw [hname, hslot]
    rintro ⟨⟩
    decide
  named := ⟨body, Json.member?_cons_self hname, hbody⟩

/-- An element has its name and the marker of its slot, whatever else is in the object. -/
theorem Json.IsElement.ofSyntax?_eq {ms : List (List Char × Syntax)} {name : String}
    (element : IsElement ms name) : SourceElement.shape.ofSyntax? Json.depthLimit (.object ms)
      = ((Json.member? "deprecated" ms).elim (some none) (markerSlotShape.ofSyntax? 127)).map
        (⟨name, ·⟩) := by
  obtain ⟨body, hname, hbody⟩ := element.named
  obtain ⟨m, hm, hvalue⟩ := Option.map_eq_some_iff.mp hname
  have hrecord := SourceElement.make?_fields (r := Json.members 127) (m := m) element.keys
    element.once hm (show m.2.text? = some name by rw [hvalue, Syntax.text?, hbody])
  show (SourceElement.fields.ofMembers? 127 ms).map _ = _
  rw [Json.ofMembers?_eq_make?, hrecord, Option.map_map, Json.member?, Option.elim_map]
  rfl

namespace Marker

/-- Both readers give the details of an object each from the member of its name. -/
theorem parse_json_object {ms : List (List Char × Syntax)} (plain : (Syntax.object ms).Plain 100)
    (once : Once ms) :
    (∀ {text : String}, (Syntax.object ms).Document text →
      (Marker.shape.parse .json text).result = .ok (ofObject ms)) ∧
    ∀ {nameKey body slotKey : List Char} {name text : String}, textOf? nameKey = some "name" →
      textOf? body = some name → textOf? slotKey = some "deprecated" →
      (Syntax.object [(nameKey, .text body), (slotKey, .object ms)]).Document text →
        (SourceElement.shape.parse .json text).result = .ok ⟨name, some (ofObject ms)⟩ := by
  constructor
  · intro text htext
    exact Shape.parse_json_document htext (ofSyntax?_object plain once (by decide)).1
  · intro nameKey body slotKey name text hname hbody hslot htext
    have hread := (Json.isElement_pair (t := .object ms) hname hbody hslot).ofSyntax?_eq
    rw [Json.member?_cons_other (by simp [hname]), Json.member?_cons_self hslot,
      Option.elim_some, (ofSyntax?_object plain once (by decide)).2] at hread
    exact Shape.parse_json_document htext hread

/-- A number for the version and no flag in the place of the flag. -/
theorem parse_json_object_numeric :
    (Marker.shape.parse .json "\x7b\"since\":9,\"forRemoval\":\"no\"\x7d").result
      = .ok ⟨some "9", none⟩ ∧
    (SourceElement.shape.parse .json
      "\x7b\"name\":\"n\",\"deprecated\":\x7b\"since\":9,\"forRemoval\":\"no\"\x7d\x7d").result
      = .ok ⟨"n", some ⟨some "9", none⟩⟩ := by
  have since : Json.IsPaired "since".toList := Json.isPaired_of_plain (by simp)
  have removal : Json.IsPaired "forRemoval".toList := Json.isPaired_of_plain (by simp)
  have name : Json.IsPaired "name".toList := Json.isPaired_of_plain (by simp)
  have slot : Json.IsPaired "deprecated".toList := Json.isPaired_of_plain (by simp)
  have no : Json.IsPaired "no".toList := Json.isPaired_of_plain (by simp)
  have n : Json.IsPaired "n".toList := Json.isPaired_of_plain (by simp)
  have nine : Json.IsMagnitude ('9' :: ([] ++ ([] ++ []))) :=
    .parts (.digits ⟨by simp, by simp⟩ (by decide)) .none .none
  have object : (Syntax.object [("since".toList, .number ['9']),
      ("forRemoval".toList, .text "no".toList)]).Spells
        "\x7b\"since\":9,\"forRemoval\":\"no\"\x7d".toList :=
    ⟨_, rfl, [], [], [], _, _, rfl, .first Json.blanks_nil, since.isBody, Json.blanks_nil,
      Json.blanks_nil, ⟨rfl, .positive nine⟩, [','], [], [], _, [], rfl,
      .comma Json.blanks_nil Json.blanks_nil, removal.isBody, Json.blanks_nil, Json.blanks_nil,
      ⟨rfl, no.isBody⟩, Json.blanks_nil⟩
  have element : (Syntax.object [("name".toList, .text "n".toList), ("deprecated".toList,
      .object [("since".toList, .number ['9']), ("forRemoval".toList, .text "no".toList)])]).Spells
        ("\x7b\"name\":\"n\",\"deprecated\":\x7b\"since\":9,\"forRemoval\":\"no\"\x7d\x7d").toList :=
    ⟨_, rfl, [], [], [], _, _, rfl, .first Json.blanks_nil, name.isBody, Json.blanks_nil,
      Json.blanks_nil, ⟨rfl, n.isBody⟩, [','], [], [], _, [], rfl,
      .comma Json.blanks_nil Json.blanks_nil, slot.isBody, Json.blanks_nil, Json.blanks_nil, object,
      Json.blanks_nil⟩
  have plain : (Syntax.object [("since".toList, .number ['9']),
      ("forRemoval".toList, .text "no".toList)]).Plain 100 :=
    .object (List.forall_mem_cons.mpr ⟨since, List.forall_mem_singleton.mpr removal⟩)
      (List.forall_mem_cons.mpr ⟨.number (x := .integer ⟨9, by decide, by decide⟩) (by cbv),
        List.forall_mem_singleton.mpr (.text no)⟩)
  have once : Once [("since".toList, .number ['9']), ("forRemoval".toList, .text "no".toList)] := by
    intro field _
    refine List.pairwise_pair.mpr ?_
    show some "since" = some field → some "forRemoval" ≠ some field
    rintro ⟨⟩
    decide
  obtain ⟨hmarker, helement⟩ := parse_json_object plain once
  exact ⟨hmarker ⟨[], _, [], rfl, Json.blanks_nil, object, Json.blanks_nil⟩,
    helement rfl rfl rfl ⟨[], _, [], rfl, Json.blanks_nil, element, Json.blanks_nil⟩⟩

/-- A number below the largest double that the rounded arithmetic of the reader puts out of range is
no matter to a marker on its own, which leaves other members unread, and spoils a marker in a slot. -/
theorem slot_number_refused :
    Double.ratio (Double.limit - 1) = ((2 ^ 53 - 1) * 2 ^ 971, 1) ∧
    1797693134862315708 * 10 ^ 290 < (2 ^ 53 - 1) * 2 ^ 971 ∧
    (Marker.shape.parse .json "\x7b\"x\":1797693134862315708e290\x7d").result = .ok {} ∧
    ∃ e, (SourceElement.shape.parse .json
      "\x7b\"name\":\"n\",\"deprecated\":\x7b\"x\":1797693134862315708e290\x7d\x7d").result
        = .error (.json e) := by
  refine ⟨by decide +kernel, by decide +kernel, by cbv, ?_⟩
  exact Shape.exists_json_error (Option.isNone_iff_eq_none.mp (by decide +kernel))

end Marker

end ApiSurface
