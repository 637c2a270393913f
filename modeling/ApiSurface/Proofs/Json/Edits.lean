/-
Edits of an object that leave its record as it is.

Members may be put in another order, members of unknown names may be added and members with the
default of their field may be left out (`Fields.Edit`). None of this changes the record that an
object makes, nor the model that it is a part of (`Model.parse_json_members`). What is added inside a
marker has to be readable (`Syntax.Plain`), because a marker is read whole.
-/
import ApiSurface.Proofs.Json.Accepted
import ApiSurface.Proofs.Json.Site
import ApiSurface.Proofs.Json.Written
import Mathlib

namespace ApiSurface.Json

/-! ### Values that can be read -/

/-- Whether a value is nested at most to a depth, its numbers are in the range of the reader and its
strings pair up their surrogates. -/
inductive Syntax.Plain : Nat → Syntax → Prop
  | null {n : Nat} : Plain n .null
  | bool {n : Nat} (b : Bool) : Plain n (.bool b)
  | number {n : Nat} {spelling : List Char} {x : Number} (h : numberOf? spelling = some x) :
      Plain n (.number spelling)
  | text {n : Nat} {body : List Char} (h : IsPaired body) : Plain n (.text body)
  | list {n : Nat} {ts : List Syntax} (h : ∀ t ∈ ts, Plain n t) : Plain (n + 1) (.list ts)
  | object {n : Nat} {ms : List (List Char × Syntax)} (keys : ∀ m ∈ ms, IsPaired m.1)
      (h : ∀ m ∈ ms, Plain n m.2) : Plain (n + 1) (.object ms)

theorem exists_contents {ts : List Syntax} {depth : Nat}
    (h : ∀ t ∈ ts, ∃ c, t.content? depth = some c) : ∃ cs, contents? ts depth = some cs := by
  induction ts with
  | nil => exact ⟨[], rfl⟩
  | cons t ts ih =>
    obtain ⟨⟨c, hc⟩, hts⟩ := List.forall_mem_cons.mp h
    obtain ⟨cs, hcs⟩ := ih hts
    exact ⟨c :: cs, by rw [contents?, hc, hcs]; rfl⟩

/-- An object is read whole if every key and every value is. -/
theorem exists_entries_iff {ms : List (List Char × Syntax)} {depth : Nat} :
    (∃ es, entries? ms depth = some es) ↔
      ∀ m ∈ ms, (∃ key, textOf? m.1 = some key) ∧ ∃ c, m.2.content? depth = some c := by
  induction ms with
  | nil => simp [entries?]
  | cons m ms ih =>
    obtain ⟨key, t⟩ := m
    rw [List.forall_mem_cons, ← ih]
    constructor
    · rintro ⟨es, hes⟩
      obtain ⟨k, hk, hes⟩ := Option.bind_eq_some_iff.mp hes
      obtain ⟨c, hc, hes⟩ := Option.bind_eq_some_iff.mp hes
      obtain ⟨es, hes, -⟩ := Option.map_eq_some_iff.mp hes
      exact ⟨⟨⟨k, hk⟩, c, hc⟩, es, hes⟩
    · rintro ⟨⟨⟨k, hk⟩, c, hc⟩, es, hes⟩
      exact ⟨(.text k, c) :: es, by rw [entries?, hk, hc, hes]; rfl⟩

/-- A value that is nested less deep than the levels that are left is read. -/
theorem Syntax.Plain.exists_content {n depth : Nat} {t : Syntax} (h : t.Plain n) (hn : n < depth) :
    ∃ c, t.content? depth = some c := by
  obtain ⟨depth, rfl⟩ : ∃ d, depth = d + 1 := ⟨depth - 1, by omega⟩
  induction h generalizing depth with
  | null => exact ⟨_, rfl⟩
  | bool b => exact ⟨_, rfl⟩
  | number h => exact ⟨_, by rw [content?, h]; rfl⟩
  | text h =>
    obtain ⟨s, hs⟩ := h.exists_text
    exact ⟨_, by rw [content?, hs]; rfl⟩
  | list _ ih =>
    obtain ⟨depth, rfl⟩ : ∃ d, depth = d + 1 := ⟨depth - 1, by omega⟩
    obtain ⟨cs, hcs⟩ := exists_contents fun t ht => ih t ht depth (by omega)
    exact ⟨.list cs, by rw [content?, if_neg (by omega), hcs]; rfl⟩
  | object keys _ ih =>
    obtain ⟨depth, rfl⟩ : ∃ d, depth = d + 1 := ⟨depth - 1, by omega⟩
    obtain ⟨es, hes⟩ := exists_entries_iff.mpr fun m hm =>
      ⟨(keys m hm).exists_text, ih m hm depth (by omega)⟩
    exact ⟨.map es, by rw [content?, if_neg (by omega), hes]; rfl⟩

end ApiSurface.Json

namespace ApiSurface

open Json (Syntax textOf? entries?)

/-! ### Edits -/

/-- Whether the members of an object become others by an edit that leaves the record as it is. -/
inductive Fields.Edit {σ α : Type} (fields : Fields σ α) (depth : Nat) :
    List (List Char × Syntax) → List (List Char × Syntax) → Prop
  | permute {ms ms' : List (List Char × Syntax)} (h : ms.Perm ms') : Edit fields depth ms ms'
  | add {before after : List (List Char × Syntax)} {key : List Char} {name : String} {t : Syntax}
      (hkey : textOf? key = some name) (unknown : name ∉ fields.names) (ht : t.Plain 100) :
      Edit fields depth (before ++ after) (before ++ (key, t) :: after)
  | remove {before after : List (List Char × Syntax)} {key : List Char} {name : String} {t : Syntax}
      (hkey : textOf? key = some name) (default : fields.IsDefault depth name t) :
      Edit fields depth (before ++ (key, t) :: after) (before ++ after)

/-- Whether an object has a member of a record twice. -/
inductive Fields.Repeats {σ α : Type} (fields : Fields σ α) : List (List Char × Syntax) → Prop
  | twice {before between after : List (List Char × Syntax)} {key key' : List Char} {name : String}
      {t t' : Syntax} (hkey : textOf? key = some name) (hkey' : textOf? key' = some name)
      (known : name ∈ fields.names) :
      Repeats fields (before ++ (key, t) :: (between ++ (key', t') :: after))

section Records

variable {σ α : Type} {fields : Fields σ α} {depth : Nat} {ms ms' : List (List Char × Syntax)}
  {a : α}

theorem Fields.Edit.ofMembers? (h : fields.Edit depth ms ms')
    (hread : fields.ofMembers? depth ms = some a) : fields.ofMembers? depth ms' = some a := by
  cases h with
  | permute h => rwa [← Fields.ofMembers?_perm h]
  | add hkey unknown =>
    rwa [Fields.ofMembers?_perm List.perm_middle, Fields.ofMembers?_unknown hkey unknown]
  | remove hkey default =>
    rw [Fields.ofMembers?_perm List.perm_middle] at hread
    exact Fields.ofMembers?_default hkey default hread

/-- An edit of an object that is read whole gives another one. -/
theorem Fields.Edit.exists_entries (h : fields.Edit depth ms ms') (hdepth : 100 < depth)
    (hread : ∃ es, entries? ms depth = some es) : ∃ es, entries? ms' depth = some es := by
  rw [Json.exists_entries_iff] at hread ⊢
  cases h with
  | permute h => exact fun m hm => hread m (h.mem_iff.mpr hm)
  | add hkey _ ht =>
    intro m hm
    obtain rfl | hm := List.mem_cons.mp (List.perm_middle.mem_iff.mp hm)
    · exact ⟨⟨_, hkey⟩, ht.exists_content hdepth⟩
    · exact hread m hm
  | remove =>
    exact fun m hm => hread m (List.perm_middle.mem_iff.mpr (List.mem_cons_of_mem _ hm))

theorem Fields.Edit.ofHeld? (h : fields.Edit depth ms ms') (hdepth : 100 < depth) {held : Bool}
    (hread : fields.ofHeld? held depth ms = some a) : fields.ofHeld? held depth ms' = some a := by
  rw [Fields.ofHeld?_eq_some] at hread ⊢
  exact ⟨fun hheld => h.exists_entries hdepth (hread.1 hheld), h.ofMembers? hread.2⟩

/-- An object with a member twice is no record. -/
theorem Fields.Repeats.ofHeld? (h : fields.Repeats ms) (held : Bool) :
    fields.ofHeld? held depth ms = none := by
  cases h with
  | @twice before between after key key' name t t' hkey hkey' known =>
    have hperm : (before ++ (key, t) :: (between ++ (key', t') :: after)).Perm
        ((key, t) :: (key', t') :: (before ++ between ++ after)) := by
      refine List.perm_middle.trans (.cons _ ?_)
      rw [← List.append_assoc]
      exact List.perm_middle
    rw [Fields.ofHeld?, Fields.ofMembers?_perm hperm, Fields.ofMembers?_repeated hkey hkey' known,
      ite_self]

end Records

/-! ### Documents -/

section Documents

variable {τ ρ α : Type} {fields : Fields τ ρ} {left : Nat} {held : Bool} {s : Shape α}
  {plug : List (List Char × Syntax) → Syntax} {ms ms' : List (List Char × Syntax)}

/-- A value in which the members of an object are edited is read as before. -/
theorem Site.ofSyntax?_edit (site : Site fields left held s Json.depthLimit plug)
    (hlevels : s.levels < 28) (edit : fields.Edit left ms ms') {a : α}
    (hread : s.ofSyntax? Json.depthLimit (plug ms) = some a) :
    s.ofSyntax? Json.depthLimit (plug ms') = some a := by
  have hdepth := site.depth_le
  rw [Json.depthLimit] at hdepth
  obtain ⟨g, hg⟩ := site.through
  obtain ⟨r, hr, ha⟩ := Option.bind_eq_some_iff.mp ((hg ms).symm.trans hread)
  calc s.ofSyntax? Json.depthLimit (plug ms')
      = (fields.ofHeld? held left ms').bind g := hg ms'
    _ = some a := by rw [edit.ofHeld? (by omega) hr, Option.bind_some, ha]

/-- A value with a member of a record twice is refused. -/
theorem Site.ofSyntax?_repeats {depth : Nat} (site : Site fields left held s depth plug)
    (repeats : fields.Repeats ms) : s.ofSyntax? depth (plug ms) = none := by
  obtain ⟨g, hg⟩ := site.through
  calc s.ofSyntax? depth (plug ms)
      = (fields.ofHeld? held left ms).bind g := hg ms
    _ = none := by rw [repeats.ofHeld? held, Option.bind_none]

end Documents

namespace Model

/-- A document depends on its known members only: every document that is read spells a value, and at
every object in it at which a record is read, an edit that leaves the record as it is leaves the
model as it is, while a member of the record that occurs twice spoils the document. -/
theorem parse_json_members :
    (∀ {text : String} {m : Model}, parse .json text = .ok m →
      ∃ t : Syntax, t.Document text) ∧
    ∀ {τ ρ : Type} {fields : Fields τ ρ} {left : Nat} {held : Bool}
      {plug : List (List Char × Syntax) → Syntax},
      Site fields left held shape Json.depthLimit plug →
      ∀ {ms : List (List Char × Syntax)} {text : String}, (plug ms).Document text →
        (∀ {ms' : List (List Char × Syntax)} {text' : String} {m : Model},
          fields.Edit left ms ms' → (plug ms').Document text' →
            parse .json text = .ok m → parse .json text' = .ok m) ∧
        (fields.Repeats ms → ∃ e, parse .json text = .error (.json e)) := by
  refine ⟨exists_document, fun {τ ρ fields left held plug} site {ms text} htext =>
    ⟨fun {ms' text' m} edit htext' hparse => ?_, fun repeats => ?_⟩⟩
  · have hread := toOption_parse_document htext
    rw [hparse] at hread
    have hread' := site.ofSyntax?_edit (by rw [levels_shape]; decide) edit hread.symm
    exact parse_eq_ok (by rw [toOption_parse_document htext', hread'])
  · refine exists_json_error ?_
    rw [toOption_parse_document htext, site.ofSyntax?_repeats repeats]

/-- The tree of a model with a marker in its slot. -/
def markedTree (marker : List (String × Tree)) : Tree :=
  .record [("beans", .list [.record [("name", .text "B"),
    ("origin", .record [("name", .text "b"), ("deprecated", .record marker)])]])]

/-- The marker of such a tree is at a site, where it is held back. -/
theorem exists_site_markedTree : ∃ plug : List (List Char × Syntax) → Syntax,
    Site Marker.fields 123 true shape Json.depthLimit plug ∧ ∀ marker,
      (plug (Tree.spelledMembers marker)).Document (Json.compact (markedTree marker)) := by
  have deprecated : textOf? "deprecated".toList = some "deprecated" := rfl
  have origin : textOf? "origin".toList = some "origin" := rfl
  have beans : textOf? "beans".toList = some "beans" := rfl
  have slot : Site Marker.fields 123 true SourceElement.shape 125 _ :=
    .view _ _ (.member _ (.tail (by decide) .head) deprecated
      [("name".toList, .text "b".toList)] [] (.slot 123))
  have bean : Site Marker.fields 123 true Bean.shape 126 _ :=
    .view _ _ (.member _ (.tail (by decide) (.tail (by decide) (.tail (by decide)
      (.tail (by decide) (.tail (by decide) .head))))) origin
      [("name".toList, .text "B".toList)] [] (.optional slot))
  have model : Site Marker.fields 123 true shape 128 _ :=
    .view _ _ (.member _ .head beans [] [] (.item [] [] bean))
  exact ⟨_, model, fun marker => Json.document_write Json.Layout.isBlank_compact _⟩

/-- A marker in its slot with its members in another order, with an unknown member among them, and
without its absent version, and one with a version that occurs twice. -/
theorem parse_json_members_slot :
    let text (marker : List (String × Tree)) : String := Json.compact (markedTree marker)
    let model (m : Marker) : Model := { beans := [{ name := "B", origin := some ⟨"b", some m⟩ }] }
    parse .json (text [("since", .text "1"), ("forRemoval", .bool true)])
      = .ok (model ⟨some "1", some true⟩) ∧
    parse .json (text [("forRemoval", .bool true), ("since", .text "1")])
      = .ok (model ⟨some "1", some true⟩) ∧
    parse .json (text [("since", .text "1"), ("x", .list [.null]), ("forRemoval", .bool true)])
      = .ok (model ⟨some "1", some true⟩) ∧
    parse .json (text [("since", .null), ("forRemoval", .bool true)])
      = .ok (model ⟨none, some true⟩) ∧
    parse .json (text [("forRemoval", .bool true)]) = .ok (model ⟨none, some true⟩) ∧
    ∃ e, parse .json (text [("since", .text "1"), ("since", .text "1")]) = .error (.json e) := by
  intro text model
  obtain ⟨plug, site, document⟩ := exists_site_markedTree
  have edited {marker marker' : List (String × Tree)} {m : Model}
      (edit : Marker.fields.Edit 123 (Tree.spelledMembers marker) (Tree.spelledMembers marker'))
      (h : parse .json (text marker) = .ok m) : parse .json (text marker') = .ok m :=
    (parse_json_members.2 site (document marker)).1 edit (document marker') h
  have full : parse .json (text [("since", .text "1"), ("forRemoval", .bool true)])
      = .ok (model ⟨some "1", some true⟩) := by
    have htext : text [("since", .text "1"), ("forRemoval", .bool true)] =
      "\x7b\"beans\":[\x7b\"name\":\"B\",\"origin\":\x7b\"name\":\"b\"," ++
        "\"deprecated\":\x7b\"since\":\"1\",\"forRemoval\":true\x7d\x7d\x7d]\x7d" := by rfl
    rw [htext]
    exact parse_eq_ok (by cbv)
  have absent : parse .json (text [("since", .null), ("forRemoval", .bool true)])
      = .ok (model ⟨none, some true⟩) := by
    have htext : text [("since", .null), ("forRemoval", .bool true)] =
      "\x7b\"beans\":[\x7b\"name\":\"B\",\"origin\":\x7b\"name\":\"b\"," ++
        "\"deprecated\":\x7b\"since\":null,\"forRemoval\":true\x7d\x7d\x7d]\x7d" := by rfl
    rw [htext]
    exact parse_eq_ok (by cbv)
  have list : (Syntax.list [.null]).Plain 100 := .list (List.forall_mem_singleton.mpr .null)
  refine ⟨full, edited (.permute ?_) full, edited ?_ full, absent, edited ?_ absent,
    (parse_json_members.2 site (document _)).2 ?_⟩
  · exact .swap ("forRemoval".toList, Syntax.bool true) ("since".toList, .text "1".toList) []
  · exact @Fields.Edit.add _ _ _ _ [("since".toList, .text "1".toList)]
      [("forRemoval".toList, .bool true)] "x".toList "x" _ rfl (by decide) list
  · exact @Fields.Edit.remove _ _ _ _ [] [("forRemoval".toList, .bool true)] "since".toList "since"
      .null rfl ⟨none, rfl, rfl⟩
  · exact @Fields.Repeats.twice _ _ _ [] [] [] "since".toList "since".toList "since" _ _ rfl rfl
      (by decide)

/-- An unknown number below the largest double that the rounded arithmetic of the reader puts out of
range, in a marker. -/
theorem parse_json_number_refused :
    parse .json ("\x7b\"beans\":[\x7b\"name\":\"B\"," ++
      "\"origin\":\x7b\"name\":\"b\",\"deprecated\":\x7b\x7d\x7d\x7d]\x7d")
      = .ok ⟨[⟨"B", none, [], [], [], some ⟨"b", some ⟨none, none⟩⟩⟩], [], []⟩ ∧
    Double.ratio (Double.limit - 1) = ((2 ^ 53 - 1) * 2 ^ 971, 1) ∧
    1797693134862315708 * 10 ^ 290 < (2 ^ 53 - 1) * 2 ^ 971 ∧
    ∃ e, parse .json ("\x7b\"beans\":[\x7b\"name\":\"B\",\"origin\":\x7b\"name\":\"b\"," ++
      "\"deprecated\":\x7b\"x\":1797693134862315708e290\x7d\x7d\x7d]\x7d") = .error (.json e) := by
  refine ⟨parse_eq_ok (by cbv), by decide +kernel, by decide +kernel, exists_json_error ?_⟩
  exact Option.isNone_iff_eq_none.mp (by decide +kernel)

end Model

end ApiSurface
