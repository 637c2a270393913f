/-
The forms of the marker slot of an element, in either language.

An absent value and a lowered flag stand for no marker, a raised flag for a marker without details,
and an object or a mapping for the marker that it gives. A list of two items at most is taken as the
details of a marker in order, and anything else is refused (`SourceElement.parse_marker_slot`).
-/
import ApiSurface.Proofs.Json.MarkerObject
import ApiSurface.Proofs.Yaml.Denotation
import ApiSurface.Proofs.Yaml.MarkerForms
import Mathlib

namespace ApiSurface

open Json (Syntax textOf? member?)
open Yaml (Anchors Document Node)

/-! ### Slots in JSON -/

/-- The marker that the items of a list give. -/
def Marker.ofList (ts : List Syntax) : Marker where
  since := ts[0]?.bind Syntax.version?
  forRemoval := ts[1]?.bind Syntax.flag?

/-- What becomes of a marker slot with a value in it, or without one: no marker, a marker, or nothing
at all. -/
inductive Json.Syntax.Fills : Option Syntax → Option (Option Marker) → Prop
  | missing : Fills none (some none)
  | null : Fills (some .null) (some none)
  | lowered : Fills (some (.bool false)) (some none)
  | raised : Fills (some (.bool true)) (some (some {}))
  | object {ms : List (List Char × Syntax)} (plain : (Syntax.object ms).Plain 100)
      (once : Marker.Once ms) : Fills (some (.object ms)) (some (some (.ofObject ms)))
  | items {ts : List Syntax} (plain : (Syntax.list ts).Plain 100) (short : ts.length ≤ 2) :
      Fills (some (.list ts)) (some (some (.ofList ts)))
  | long {ts : List Syntax} (long : 2 < ts.length) : Fills (some (.list ts)) none
  | number (spelling : List Char) : Fills (some (.number spelling)) none
  | text (body : List Char) : Fills (some (.text body)) none

section Json

variable {depth : Nat}

/-- A value other than null is what its content is in a slot. -/
theorem Marker.ofSyntax?_present {t : Syntax} (h : t ≠ .null) :
    markerSlotShape.ofSyntax? depth t
      = (t.content? depth).bind fun c => (Marker.slotOf c).result.toOption := by
  rw [markerSlotShape, Shape.ofSyntax?, Json.ofSyntax?_optional h, Shape.ofSyntax?]
  cases (t.content? depth).bind fun c => (Marker.slotOf c).result.toOption <;> rfl

theorem Json.content?_list (ts : List Syntax) (depth : Nat) :
    (Syntax.list ts).content? (depth + 2)
      = (ts.mapM fun t : Syntax => t.content? (depth + 1)).map .list := by
  rw [Json.Reader.mapM_content?]
  rfl

/-- A slot is read as the form of its value says. -/
theorem Json.Syntax.Fills.ofSyntax? {t : Syntax} {o : Option (Option Marker)}
    (h : Syntax.Fills (some t) o) (hdepth : 100 < depth) :
    markerSlotShape.ofSyntax? depth t = o := by
  obtain ⟨depth, rfl⟩ : ∃ d, depth = d + 2 := ⟨depth - 2, by omega⟩
  cases h with
  | null => rfl
  | lowered => rfl
  | raised => rfl
  | object plain once => exact (Marker.ofSyntax?_object plain once hdepth).2
  | @items ts plain short =>
    obtain ⟨c, hc⟩ := plain.exists_content hdepth
    rw [Marker.ofSyntax?_present (by simp), hc]
    rw [Json.content?_list] at hc
    obtain ⟨cs, hcs, rfl⟩ := Option.map_eq_some_iff.mp hc
    have hmarker : (Marker.ofItems cs).result.toOption
        = if ts.length ≤ 2 then some (Marker.ofList ts) else none :=
      Marker.ofItems_mapM hcs fun t _ c hc => Syntax.details_of_content hc
    rw [Option.bind_some, Marker.slotOf_list, hmarker, if_pos short]
    rfl
  | @long ts long =>
    rw [Marker.ofSyntax?_present (by simp), Option.bind_eq_none_iff]
    intro c hc
    rw [Json.content?_list] at hc
    obtain ⟨cs, hcs, rfl⟩ := Option.map_eq_some_iff.mp hc
    rw [Marker.slotOf_list, Marker.ofItems_result, length_mapM hcs, if_neg (by omega)]
    rfl
  | number spelling =>
    rw [Marker.ofSyntax?_present (by simp), Option.bind_eq_none_iff]
    intro c hc
    obtain ⟨x, -, rfl⟩ := Option.map_eq_some_iff.mp hc
    rfl
  | text body =>
    rw [Marker.ofSyntax?_present (by simp), Option.bind_eq_none_iff]
    intro c hc
    obtain ⟨s, -, rfl⟩ := Option.map_eq_some_iff.mp hc
    rfl

/-- An element is read with the marker that its slot is filled with. -/
theorem Json.IsElement.ofSyntax? {ms : List (List Char × Syntax)} {name : String}
    {o : Option (Option Marker)} (element : IsElement ms name)
    (fills : Syntax.Fills (member? "deprecated" ms) o) :
    SourceElement.shape.ofSyntax? Json.depthLimit (.object ms) = o.map (⟨name, ·⟩) := by
  refine element.ofSyntax?_eq.trans (congrArg _ ?_)
  cases hslot : member? "deprecated" ms with
  | none =>
    rw [hslot] at fills
    cases fills
    rfl
  | some t =>
    rw [hslot] at fills
    exact fills.ofSyntax? (by decide)

end Json

/-! ### Elements in YAML -/

/-- Whether the members of a mapping are those of an element with a name, each at most once. -/
structure Yaml.IsElement (anchors : Anchors) (ms : List (Node × Node)) (name : String) : Prop where
  keys : ∀ m ∈ ms, (m.1.target anchors).text?.isSome
  once : ∀ field ∈ SourceElement.fields.names, Node.Once anchors field ms
  named : ∃ t, Node.value? anchors "name" ms = some t ∧ (t.target anchors).text? = some name

theorem Yaml.isElement_pair (anchors : Anchors) (name : String) (t : Node) :
    IsElement anchors [(.scalar "name" .plain none, .scalar name .plain none),
      (.scalar "deprecated" .plain none, t)] name where
  keys := List.forall_mem_cons.mpr ⟨rfl, List.forall_mem_singleton.mpr rfl⟩
  once field _ := by
    refine List.pairwise_pair.mpr ?_
    show some "name" = some field → some "deprecated" ≠ some field
    rintro ⟨⟩
    decide
  named := ⟨_, rfl, rfl⟩

theorem Yaml.IsElement.ofNode? {anchors : Anchors} {tag : Option String} {ms : List (Node × Node)}
    {name : String} {o : Option (Option Marker)} (element : IsElement anchors ms name)
    (fills : Node.Fills ((Node.value? anchors "deprecated" ms).map (·.target anchors)) o) :
    SourceElement.shape.ofNode? anchors Yaml.depthLimit (.mapping tag ms) = o.map (⟨name, ·⟩) := by
  obtain ⟨t, ht, hname⟩ := element.named
  obtain ⟨m, hm, rfl⟩ := Option.map_eq_some_iff.mp ht
  have hvalue : (Yaml.members anchors 127).find? "deprecated" ms
      = ms.find? fun m => (m.1.target anchors).text? = some "deprecated" := rfl
  have hslot : ((Yaml.members anchors 127).find? "deprecated" ms).elim (some none)
      ((Yaml.members anchors 127).value markerSlotShape) = o := by
    rw [Node.value?] at fills
    rw [hvalue]
    generalize ms.find? (fun m => (m.1.target anchors).text? = some "deprecated") = slot at fills ⊢
    cases slot with
    | none =>
      cases fills
      rfl
    | some m' =>
      show markerSlotShape.ofNode? anchors 127 m'.2 = o
      rw [← Shape.ofNode?_target]
      exact fills.ofNode? (by decide)
  have hrecord := SourceElement.make?_fields (r := Yaml.members anchors 127) (m := m) element.keys
    element.once hm hname
  rw [hslot] at hrecord
  show (SourceElement.fields.ofNodes? anchors 127 ms).map _ = _
  rw [Yaml.ofNodes?_eq_make?, hrecord, Option.map_map]
  rfl

/-- A YAML document is what its node stands for, unless following its aliases takes too many steps. -/
theorem Shape.parse_yaml_document {α : Type} {s : Shape α} {t : Node} {anchors : Anchors}
    {text : String} {a : α} (h : t.IsDocument anchors text)
    (ha : s.ofNode? anchors Yaml.depthLimit t = some a) :
    (s.parse .yaml text).result = .ok a ∨ (Document.ofText text).HasAlias ∧
      (s.parse .yaml text).result = .error (.yaml .tooManyAliases) := by
  have hparse : (s.parse .yaml text).result = (Yaml.decode s text).result.mapError Error.yaml := rfl
  rw [hparse]
  obtain hok | ⟨halias, hmany⟩ := Yaml.decode_some h ha
  · exact .inl (by rw [hok]; rfl)
  · exact .inr ⟨halias, by rw [hmany]; rfl⟩

namespace SourceElement

/-- The marker slot of an element is read by its form, in either language and whatever the other
members of the element are: an absent value and a lowered flag as no marker, a raised flag as a marker
without details, an object or a mapping as the marker that it gives, and a list of two items at most
as one too. Any other value is refused. A YAML document with aliases may be refused where following
them takes too many steps for its size. -/
theorem parse_marker_slot (name text : String) (o : Option (Option Marker)) :
    (∀ {ms : List (List Char × Syntax)}, Json.IsElement ms name → (Syntax.object ms).Document text →
      Syntax.Fills (member? "deprecated" ms) o →
        (∀ marker, o = some marker → (shape.parse .json text).result = .ok ⟨name, marker⟩) ∧
        (o = none → ∃ e, (shape.parse .json text).result = .error (.json e))) ∧
    ∀ {anchors : Anchors} {tag : Option String} {ms : List (Node × Node)},
      Yaml.IsElement anchors ms name →
      (Node.mapping tag ms).IsDocument anchors text →
      Node.Fills ((Node.value? anchors "deprecated" ms).map (·.target anchors)) o →
        (∀ marker, o = some marker → (shape.parse .yaml text).result = .ok ⟨name, marker⟩ ∨
          (Document.ofText text).HasAlias ∧
            (shape.parse .yaml text).result = .error (.yaml .tooManyAliases)) ∧
        (o = none → ∃ e, (shape.parse .yaml text).result = .error (.yaml e)) := by
  constructor
  · intro ms element htext fills
    have hread := element.ofSyntax? fills
    constructor
    · rintro marker rfl
      exact Shape.parse_json_document htext hread
    · rintro rfl
      exact Shape.exists_json_error (Shape.toOption_parse_json_document htext ▸ hread)
  · intro anchors tag ms element htext fills
    have hread : shape.ofNode? anchors Yaml.depthLimit (.mapping tag ms) = o.map (⟨name, ·⟩) :=
      element.ofNode? fills
    constructor
    · rintro marker rfl
      exact Shape.parse_yaml_document htext hread
    · rintro rfl
      obtain ⟨e, he⟩ := Yaml.decode_none htext hread
      have hparse : (shape.parse .yaml text).result
        = (Yaml.decode shape text).result.mapError Error.yaml := rfl
      exact ⟨e, by rw [hparse, he]; rfl⟩

/-- An empty list is a marker, and so are a version and a flag in a list. -/
theorem parse_marker_slot_list :
    (shape.parse .json "\x7b\"name\":\"n\",\"deprecated\":[]\x7d").result = .ok ⟨"n", some {}⟩ ∧
    (shape.parse .yaml "name: n\ndeprecated: ['1', true]\n").result
      = .ok ⟨"n", some ⟨some "1", some true⟩⟩ := by
  have name : Json.IsPaired "name".toList := Json.isPaired_of_plain (by simp)
  have slot : Json.IsPaired "deprecated".toList := Json.isPaired_of_plain (by simp)
  have n : Json.IsPaired "n".toList := Json.isPaired_of_plain (by simp)
  have document : (Syntax.object [("name".toList, .text "n".toList),
      ("deprecated".toList, .list [])]).Document "\x7b\"name\":\"n\",\"deprecated\":[]\x7d" :=
    ⟨[], _, [], rfl, Json.blanks_nil, ⟨_, rfl, [], [], [], _, _, rfl, .first Json.blanks_nil,
      name.isBody, Json.blanks_nil, Json.blanks_nil, ⟨rfl, n.isBody⟩, [','], [], [], ['[', ']'], [],
      rfl, .comma Json.blanks_nil Json.blanks_nil, slot.isBody, Json.blanks_nil, Json.blanks_nil,
      ⟨[], rfl, Json.blanks_nil⟩, Json.blanks_nil⟩, Json.blanks_nil⟩
  refine ⟨((parse_marker_slot _ _ (some (some {}))).1 (Json.isElement_pair rfl rfl rfl) document
    (.items (.list (by simp)) (by decide))).1 _ rfl, ?_⟩
  have hread {text : String} (htext : (Node.mapping none [(.scalar "name" .plain none,
      .scalar "n" .plain none), (.scalar "deprecated" .plain none, .sequence none
        [.scalar "1" .singleQuoted none, .scalar "true" .plain none])]).IsDocument .unused text) :
      (shape.parse .yaml text).result = .ok ⟨"n", some ⟨some "1", some true⟩⟩ := by
    have within : (Node.sequence none [.scalar "1" .singleQuoted none,
        .scalar "true" .plain none]).Within 100 :=
      .sequence _ (List.forall_mem_cons.mpr ⟨.scalar _ _ _,
        List.forall_mem_singleton.mpr (.scalar _ _ _)⟩)
    have storable : (Node.sequence none [.scalar "1" .singleQuoted none,
        .scalar "true" .plain none]).Storable :=
      .sequence rfl (List.forall_mem_cons.mpr ⟨.scalar rfl rfl (by simp),
        List.forall_mem_singleton.mpr (.scalar (v := .bool true) rfl rfl (by simp))⟩)
    obtain hok | ⟨⟨n, hn⟩, -⟩ := ((parse_marker_slot _ _ (some (some ⟨some "1", some true⟩))).2
      (Yaml.isElement_pair .unused "n" _) htext
      (.items within storable (by decide))).1 _ rfl
    · exact hok
    · rw [htext.events] at hn
      simp [Node.events, Node.allEvents, Node.pairEvents] at hn
  exact hread (Node.isDocument_of_ofText (by cbv)
    (by simp [Node.events, Node.allEvents, Node.pairEvents]))

end SourceElement

end ApiSurface
