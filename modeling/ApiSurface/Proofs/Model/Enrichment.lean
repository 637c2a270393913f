/-
What enrichment does to a model, node by node.

A node is due a notice if the element it stands for has a marker and none of its documentation
lines opens with the deprecation tag. `Documented.enriched` is enrichment of one node on its own;
enrichment of a model is this at every address and nothing else (`Model.node?_enrich`,
`Model.bare_enrich`). A notice opens with the tag whatever its marker says, so a node that was
enriched is due no other.

* `Model.enrich_documents_due` — exactly the due nodes get their notice, and nothing else changes.
-/
import ApiSurface.Proofs.Model.Node

namespace ApiSurface

/-! ### Notices -/

/-- A notice opens with the tag, whatever the marker says. -/
theorem Marker.isNotice_notice (k : Marker) : isNotice k.notice = true := by
  unfold isNotice
  rw [List.isPrefixOf_iff_prefix]
  unfold notice
  split
  · exact List.prefix_rfl
  · rw [String.toList_append, String.toList_append, List.append_assoc]
    exact List.prefix_append _ _

theorem isDocumented_append_notice (comments : List String) (k : Marker) :
    isDocumented (comments ++ [k.notice]) = true := by
  simp [isDocumented, k.isNotice_notice]

/-- No documentation line opens with the tag if and only if there is no notice among them. -/
theorem isDocumented_eq_false_iff {comments : List String} :
    isDocumented comments = false ↔ ∀ c ∈ comments, ¬ deprecatedTag.toList <+: c.toList := by
  simp [isDocumented, isNotice]

namespace Documented

/-- Whether a node is to get the notice of a marker. -/
def Due (n : Documented) (k : Marker) : Prop :=
  n.origin.bind (·.deprecated) = some k ∧ ∀ c ∈ n.comments, ¬ deprecatedTag.toList <+: c.toList

/-- The node after its enrichment. -/
def enriched (n : Documented) : Documented := { n with comments := addNotice n.comments n.origin }

theorem comments_enriched_of_due {n : Documented} {k : Marker} (h : n.Due k) :
    n.enriched.comments = n.comments ++ [k.notice] := by
  obtain ⟨hk, hc⟩ := h
  obtain ⟨e, he, hk⟩ := Option.bind_eq_some_iff.mp hk
  rw [← isDocumented_eq_false_iff] at hc
  simp [enriched, addNotice, traceNotice, he, hk, hc]

theorem comments_enriched_of_not_due {n : Documented} (h : ∀ k, ¬ n.Due k) :
    n.enriched.comments = n.comments := by
  cases ho : n.origin with
  | none => simp [enriched, addNotice, traceNotice, ho]
  | some e =>
    cases hk : e.deprecated with
    | none => simp [enriched, addNotice, traceNotice, ho, hk]
    | some k =>
      have hd : isDocumented n.comments = true := by
        rw [← Bool.not_eq_false, isDocumented_eq_false_iff]
        exact fun hd => h k ⟨by rw [ho, Option.bind_some, hk], hd⟩
      simp [enriched, addNotice, traceNotice, ho, hk, hd]

/-- A node that was enriched is due no notice. -/
theorem not_due_enriched (n : Documented) (k : Marker) : ¬ n.enriched.Due k := by
  rintro ⟨hk, hc⟩
  by_cases hd : n.Due k
  · -- The notice is now among the lines.
    rw [comments_enriched_of_due hd, ← isDocumented_eq_false_iff,
      isDocumented_append_notice] at hc
    exact nomatch hc
  · -- Nothing was added, so the node would have been due before.
    have hnone : ∀ k, ¬ n.Due k := by
      intro j hj
      obtain rfl : j = k := Option.some.inj (hj.1.symm.trans hk)
      exact hd hj
    rw [comments_enriched_of_not_due hnone] at hc
    exact hd ⟨hk, hc⟩

theorem enriched_enriched (n : Documented) : n.enriched.enriched = n.enriched := by
  have h := comments_enriched_of_not_due n.not_due_enriched
  calc n.enriched.enriched = { n with comments := n.enriched.enriched.comments } := rfl
    _ = { n with comments := n.enriched.comments } := by rw [h]
    _ = n.enriched := rfl

end Documented

/-! ### Enrichment of each kind of node -/

theorem Property.enrich_eq (p : Property) :
    p.enrich = p.withComments (addNotice p.comments p.origin.element?) := rfl

theorem EnumMember.enrich_eq (x : EnumMember) :
    x.enrich = x.withComments (addNotice x.comments x.origin) := rfl

theorem Endpoint.enrich_eq (e : Endpoint) :
    e.enrich = e.withComments (addNotice e.comments e.origin) := rfl

theorem Bean.enrich_eq (b : Bean) :
    b.enrich = { b with
      properties := b.properties.map Property.enrich, comments := addNotice b.comments b.origin } :=
  rfl

theorem Enumeration.enrich_eq (e : Enumeration) :
    e.enrich = { e with
      members := e.members.map EnumMember.enrich, comments := addNotice e.comments e.origin } :=
  rfl

theorem Application.enrich_eq (a : Application) :
    a.enrich = { a with endpoints := a.endpoints.map Endpoint.enrich } := rfl

theorem Property.node_enrich (p : Property) : p.enrich.node = p.node.enriched := rfl

theorem EnumMember.node_enrich (x : EnumMember) : x.enrich.node = x.node.enriched := rfl

theorem Endpoint.node_enrich (e : Endpoint) : e.enrich.node = e.node.enriched := rfl

theorem Bean.node_enrich (b : Bean) : b.enrich.node = b.node.enriched := rfl

theorem Enumeration.node_enrich (e : Enumeration) : e.enrich.node = e.node.enriched := rfl

@[simp] theorem Property.withComments_enrich (p : Property) (comments : List String) :
    p.enrich.withComments comments = p.withComments comments := rfl

@[simp] theorem EnumMember.withComments_enrich (x : EnumMember) (comments : List String) :
    x.enrich.withComments comments = x.withComments comments := rfl

@[simp] theorem Endpoint.withComments_enrich (e : Endpoint) (comments : List String) :
    e.enrich.withComments comments = e.withComments comments := rfl

@[simp] theorem Bean.bare_enrich (b : Bean) : b.enrich.bare = b.bare := by
  simp [enrich_eq, bare, Function.comp_def]

@[simp] theorem Enumeration.bare_enrich (e : Enumeration) : e.enrich.bare = e.bare := by
  simp [enrich_eq, bare, Function.comp_def]

@[simp] theorem Application.bare_enrich (a : Application) : a.enrich.bare = a.bare := by
  simp [enrich_eq, bare, Function.comp_def]

/-! ### Enrichment of a model -/

namespace Model

theorem enrich_eq (m : Model) :
    m.enrich = {
      beans := m.beans.map Bean.enrich
      enums := m.enums.map Enumeration.enrich
      applications := m.applications.map Application.enrich } :=
  rfl

/-- Enrichment changes nothing but documentation. -/
theorem bare_enrich (m : Model) : m.enrich.bare = m.bare := by
  simp [enrich_eq, bare, Function.comp_def]

/-- Enrichment of a model enriches each node on its own. -/
theorem node?_enrich (m : Model) (a : Address) :
    m.enrich.node? a = (m.node? a).map Documented.enriched := by
  cases a with
  | bean i => simp [node?_bean, enrich_eq, Function.comp_def, Bean.node_enrich]
  | property i j =>
    cases h : m.beans[i]? <;>
      simp [node?_property, enrich_eq, h, Bean.enrich_eq, Function.comp_def, Property.node_enrich]
  | enumeration i => simp [node?_enumeration, enrich_eq, Function.comp_def, Enumeration.node_enrich]
  | member i j =>
    cases h : m.enums[i]? <;>
      simp [node?_member, enrich_eq, h, Enumeration.enrich_eq, Function.comp_def,
        EnumMember.node_enrich]
  | application i => rfl
  | endpoint i j =>
    cases h : m.applications[i]? <;>
      simp [node?_endpoint, enrich_eq, h, Application.enrich_eq, Function.comp_def,
        Endpoint.node_enrich]

/-- Enrichment keeps all but the documentation; a due node gets its notice as its last line, any
other keeps its lines, and what becomes of a node depends on no other node. -/
theorem enrich_documents_due (m : Model) :
    m.enrich.bare = m.bare ∧
    (∀ a n, m.node? a = some n → ∃ comments, m.enrich.node? a = some { n with comments } ∧
      (∀ k, n.Due k → comments = n.comments ++ [k.notice]) ∧
      ((∀ k, ¬ n.Due k) → comments = n.comments)) ∧
    ∀ (m' : Model) a, m'.node? a = m.node? a → m'.enrich.node? a = m.enrich.node? a := by
  refine ⟨m.bare_enrich, fun a n hn => ⟨n.enriched.comments, ?_, ?_, ?_⟩, fun m' a h => ?_⟩
  · rw [node?_enrich, hn]
    rfl
  · exact fun k hk => Documented.comments_enriched_of_due hk
  · exact Documented.comments_enriched_of_not_due
  · rw [node?_enrich, node?_enrich, h]

end Model

end ApiSurface
