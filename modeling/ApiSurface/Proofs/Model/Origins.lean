/-
Enrichment while origins change.

Between two enrichments a node may be given another origin, so its marker may appear, change or go
away. What a node was given before is remembered by its documentation alone: a node with a notice
keeps its lines (`Model.comments_editAll_of_documented`). So a run adds the notice of the first
marker that an enrichment finds at the node, unless a line of the node opened with the tag already,
and nothing after it (`Model.comments_editAll`).

* `Model.editAll_adds_first_notice` — a node gains one line at most, and which one it is.
-/
import ApiSurface.Proofs.Model.Confluence

namespace ApiSurface

/-- Whether an edit is an enrichment or gives a node another origin. -/
def Edit.isDerivation : Edit → Bool
  | .enrichAll => true
  | .enrich _ => true
  | .setOrigin _ _ => true
  | .setMemberOrigin _ _ _ => true
  | .setComments _ _ => false

/-- Whether the origin of the node at an address is a single source element. -/
def Address.hasElement : Address → Bool
  | .bean _ => true
  | .enumeration _ => true
  | .member _ _ => true
  | .endpoint _ _ => true
  | .property _ _ => false
  | .application _ => false

namespace Model

/-- The marker of the source element that the node at an address stands for. -/
def marker? (m : Model) (a : Address) : Option Marker :=
  (m.node? a).bind fun n => n.origin.bind (·.deprecated)

/-- The marker that the node at an address has when an edit of a run first enriches it and finds
one. -/
inductive FirstMarker (a : Address) : Model → List Edit → Marker → Prop
  | here {m : Model} {e : Edit} {rest : List Edit} {k : Marker} (reached : e.reaches a)
      (marker : m.marker? a = some k) : FirstMarker a m (e :: rest) k
  | later {m : Model} {e : Edit} {rest : List Edit} {k : Marker}
      (without : e.reaches a → m.marker? a = none) (later : FirstMarker a (m.edit e) rest k) :
      FirstMarker a m (e :: rest) k

theorem FirstMarker.unique {a : Address} {m : Model} {edits : List Edit} {j k : Marker}
    (hj : FirstMarker a m edits j) (hk : FirstMarker a m edits k) : j = k := by
  induction hj with
  | here reached marker =>
    cases hk with
    | here _ marker' => exact Option.some.inj (marker.symm.trans marker')
    | later without _ => exact absurd marker (by simp [without reached])
  | later without _ ih =>
    cases hk with
    | here reached marker => exact absurd marker (by simp [without reached])
    | later _ hk => exact ih hk

theorem editAll_append (m : Model) (before after : List Edit) :
    m.editAll (before ++ after) = (m.editAll before).editAll after := List.foldl_append ..

end Model

/-! ### One node -/

namespace Documented

theorem comments_enrichedIf_of_documented {n : Documented} (h : isDocumented n.comments = true)
    (reached : Bool) : (n.enrichedIf reached).comments = n.comments := by
  cases reached with
  | false => rfl
  | true =>
    refine comments_enriched_of_not_due fun k hk => ?_
    have := isDocumented_eq_false_iff.mpr hk.2
    rw [h] at this
    exact absurd this (by simp)

theorem comments_enrichedIf_of_marker {n : Documented} (h : isDocumented n.comments = false)
    {k : Marker}
    (marker : n.origin.bind (·.deprecated) = some k) :
    (n.enrichedIf true).comments = n.comments ++ [k.notice] :=
  comments_enriched_of_due ⟨marker, isDocumented_eq_false_iff.mp h⟩

theorem comments_enrichedIf_of_no_marker {n : Documented} {reached : Bool}
    (without : reached → n.origin.bind (·.deprecated) = none) :
    (n.enrichedIf reached).comments = n.comments := by
  cases reached with
  | false => rfl
  | true =>
    refine comments_enriched_of_not_due fun k hk => ?_
    rw [Due, without rfl] at hk
    exact absurd hk.1 (by simp)

end Documented

/-! ### One edit -/

namespace Model

/-- Another origin of a property is all that changes of its node, and of no other. -/
theorem node?_setMemberOrigin (m : Model) (i j : Nat) (o : MemberOrigin) (a : Address) :
    (m.edit (.setMemberOrigin i j o)).node? a = (m.node? a).map fun n =>
      if Address.property i j = a then { n with origin := o.element? } else n :=
  m.node?_modifyProperty i j (g := fun n => { n with origin := o.element? }) (fun _ => rfl) a

/-- Another origin of a node is all that changes of the node, and of no other; a node whose origin
is of another kind stays as it is. -/
theorem node?_setOrigin (m : Model) (b : Address) (o : SourceElement) (a : Address) :
    (m.edit (.setOrigin b o)).node? a = (m.node? a).map fun n =>
      if b.hasElement ∧ b = a then { n with origin := some o } else n := by
  cases b with
  | bean i =>
    have h := m.node?_modifyBean_alone i (f := (·.withOrigin o))
      (g := fun n => { n with origin := some o }) (fun _ => rfl) (fun _ => rfl) a
    simpa [edit, setOrigin, Address.hasElement] using h
  | enumeration i =>
    have h := m.node?_modifyEnum_alone i (f := (·.withOrigin o))
      (g := fun n => { n with origin := some o }) (fun _ => rfl) (fun _ => rfl) a
    simpa [edit, setOrigin, Address.hasElement] using h
  | member i j =>
    have h := m.node?_modifyMember i j (f := (·.withOrigin o))
      (g := fun n => { n with origin := some o }) (fun _ => rfl) a
    simpa [edit, setOrigin, Address.hasElement] using h
  | endpoint i j =>
    have h := m.node?_modifyEndpoint i j (f := (·.withOrigin o))
      (g := fun n => { n with origin := some o }) (fun _ => rfl) a
    simpa [edit, setOrigin, Address.hasElement] using h
  | property i j => simp [edit, setOrigin, Address.hasElement]
  | application i => simp [edit, setOrigin, Address.hasElement]

/-- An edit leaves a node's lines as they are or enriches the node. -/
theorem comments_edit (m : Model) {e : Edit} (he : e.isDerivation) (a : Address) :
    ((m.edit e).node? a).map (·.comments) =
      (m.node? a).map fun n => (n.enrichedIf (e.reaches a)).comments := by
  cases e with
  | enrichAll => rw [m.node?_edit rfl, Option.map_map, Function.comp_def]
  | enrich b => rw [m.node?_edit rfl, Option.map_map, Function.comp_def]
  | setOrigin b o =>
    rw [m.node?_setOrigin]
    cases m.node? a <;> simp [Edit.reaches, apply_ite Documented.comments]
  | setMemberOrigin i j o =>
    rw [m.node?_setMemberOrigin]
    cases m.node? a <;> simp [Edit.reaches, apply_ite Documented.comments]
  | setComments b comments => exact absurd he (by simp [Edit.isDerivation])

/-! ### Runs -/

theorem exists_node?_edit (m : Model) {e : Edit} (he : e.isDerivation) {a : Address}
    {n : Documented}
    (hn : m.node? a = some n) :
    ∃ n', (m.edit e).node? a = some n' ∧ n'.comments = (n.enrichedIf (e.reaches a)).comments := by
  have h := m.comments_edit he a
  rw [hn, Option.map_some] at h
  exact Option.map_eq_some_iff.mp h

/-- A node with a notice keeps its lines, whatever becomes of its origin. -/
theorem comments_editAll_of_documented {m : Model} {edits : List Edit}
    (h : ∀ e ∈ edits, e.isDerivation) {a : Address} {n : Documented} (hn : m.node? a = some n)
    (documented : isDocumented n.comments = true) :
    ∃ n', (m.editAll edits).node? a = some n' ∧ n'.comments = n.comments := by
  induction edits generalizing m n with
  | nil => exact ⟨n, hn, rfl⟩
  | cons e rest ih =>
    obtain ⟨n₁, hn₁, hc⟩ := m.exists_node?_edit (h e List.mem_cons_self) hn
    rw [Documented.comments_enrichedIf_of_documented documented] at hc
    obtain ⟨n', hn', hc'⟩ := ih (fun x hx => h x (List.mem_cons_of_mem e hx)) hn₁ (hc ▸ documented)
    exact ⟨n', hn', hc'.trans hc⟩

/-- A run adds the notice of the first marker to a node without a notice, and nothing else. -/
theorem comments_editAll {m : Model} {edits : List Edit} (h : ∀ e ∈ edits, e.isDerivation)
    {a : Address} {n : Documented} (hn : m.node? a = some n)
    (without : isDocumented n.comments = false) :
    ∃ n', (m.editAll edits).node? a = some n' ∧
      ((∃ k, FirstMarker a m edits k ∧ n'.comments = n.comments ++ [k.notice]) ∨
        (∀ k, ¬ FirstMarker a m edits k) ∧ n'.comments = n.comments) := by
  induction edits generalizing m n with
  | nil => exact ⟨n, hn, .inr ⟨by rintro k ⟨⟩, rfl⟩⟩
  | cons e rest ih =>
    obtain ⟨n₁, hn₁, hc⟩ := m.exists_node?_edit (h e List.mem_cons_self) hn
    have hrest : ∀ x ∈ rest, x.isDerivation := fun x hx => h x (List.mem_cons_of_mem e hx)
    have hmarker : m.marker? a = n.origin.bind (·.deprecated) := by
      rw [marker?, hn, Option.bind_some]
    by_cases hfirst : e.reaches a = true ∧ (m.marker? a).isSome
    · -- The notice is added here, and the lines stay from here on.
      obtain ⟨reached, hk⟩ := hfirst
      obtain ⟨k, hk⟩ := Option.isSome_iff_exists.mp hk
      rw [reached, Documented.comments_enrichedIf_of_marker without (hmarker ▸ hk)] at hc
      obtain ⟨n', hn', hc'⟩ := comments_editAll_of_documented hrest hn₁
        (by rw [hc]; exact isDocumented_append_notice _ k)
      exact ⟨n', hn', .inl ⟨k, .here reached hk, hc'.trans hc⟩⟩
    · -- Nothing is added, so the rest of the run decides.
      have none_yet : e.reaches a → m.marker? a = none := fun reached => by
        simpa using fun hk => hfirst ⟨reached, hk⟩
      rw [Documented.comments_enrichedIf_of_no_marker (hmarker ▸ none_yet)] at hc
      obtain ⟨n', hn', hc'⟩ := ih hrest hn₁ (hc ▸ without)
      rw [hc] at hc'
      refine ⟨n', hn', hc'.imp ?_ ?_⟩
      · rintro ⟨k, hk, hlines⟩
        exact ⟨k, .later none_yet hk, hlines⟩
      · rintro ⟨hnone, hlines⟩
        refine ⟨fun k hk => ?_, hlines⟩
        cases hk with
        | here reached hk => exact absurd hk (by simp [none_yet reached])
        | later _ hk => exact hnone k hk

/-- In a run of enrichments and replaced origins a node keeps its lines, or it gains one line: the
notice of the marker that an enrichment found first, if no line opened with the tag before. A node
with such a line is done: no later edit of the run changes its lines. -/
theorem editAll_adds_first_notice (m : Model) {edits : List Edit}
    (h : ∀ e ∈ edits, e.isDerivation) :
    (∀ a n, m.node? a = some n → ∃ n', (m.editAll edits).node? a = some n' ∧
      (n'.comments = n.comments ∨
        ∃ k, FirstMarker a m edits k ∧ (∀ c ∈ n.comments, ¬ deprecatedTag.toList <+: c.toList) ∧
          n'.comments = n.comments ++ [k.notice]) ∧
      ∀ k, FirstMarker a m edits k → (∀ c ∈ n.comments, ¬ deprecatedTag.toList <+: c.toList) →
        n'.comments = n.comments ++ [k.notice]) ∧
    ∀ before after, edits = before ++ after → ∀ a n, (m.editAll before).node? a = some n →
      (∃ c ∈ n.comments, deprecatedTag.toList <+: c.toList) →
        ∃ n', (m.editAll edits).node? a = some n' ∧ n'.comments = n.comments := by
  refine ⟨fun a n hn => ?_, ?_⟩
  · simp only [← isDocumented_eq_false_iff]
    cases hd : isDocumented n.comments with
    | true =>
      obtain ⟨n', hn', hc⟩ := comments_editAll_of_documented h hn hd
      exact ⟨n', hn', .inl hc, fun k _ hd' => absurd hd' (by simp)⟩
    | false =>
      obtain ⟨n', hn', ⟨k, hk, hc⟩ | ⟨hnone, hc⟩⟩ := comments_editAll h hn hd
      · refine ⟨n', hn', .inr ⟨k, hk, rfl, hc⟩, fun j hj _ => ?_⟩
        rw [FirstMarker.unique hj hk, hc]
      · exact ⟨n', hn', .inl hc, fun k hk _ => absurd hk (hnone k)⟩
  · rintro before after rfl a n hn ⟨c, hc, htag⟩
    have hd : isDocumented n.comments = true := by
      rw [← Bool.not_eq_false, isDocumented_eq_false_iff]
      exact fun hnone => hnone c hc htag
    rw [editAll_append]
    exact comments_editAll_of_documented (fun e he => h e (List.mem_append_right _ he)) hn hd

/-- A property that is enriched as it becomes a deprecated method, another field, and neither. -/
theorem editAll_adds_first_notice_property :
    let m : Model :=
      { beans := [{ name := "B", properties := [{ name := "p", typeName := "T" }] }] }
    let edits : List Edit := [.enrichAll,
      .setMemberOrigin 0 0 (.method ⟨"B#p", some { since := some "1" }⟩), .enrich (.property 0 0),
      .setMemberOrigin 0 0 (.field ⟨"p", some { since := some "2" }⟩), .enrich (.bean 0),
      .setMemberOrigin 0 0 .none, .enrichAll]
    (∀ e ∈ edits, e.isDerivation) ∧
      ∃ n, (m.editAll edits).node? (.property 0 0) = some n ∧
        n.comments = ["@deprecated since: 1"] := by
  intro m edits
  have derivations : ∀ e ∈ edits, e.isDerivation := by simp [edits, Edit.isDerivation]
  have first : FirstMarker (.property 0 0) m edits { since := some "1" } :=
    .later (fun _ => rfl) (.later (fun h => by simp [Edit.reaches] at h) (.here rfl rfl))
  obtain ⟨n, hn, -, hadded⟩ :=
    (m.editAll_adds_first_notice derivations).1 (.property 0 0) ⟨[], none⟩ rfl
  exact ⟨derivations, n, hn, hadded _ first (by simp)⟩

end Model

end ApiSurface
