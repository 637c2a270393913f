/-
Enrichment in steps.

An edit that enriches reaches the node at its address and the node's children, or all nodes.
Enrichment of a node is idempotent, so a node that some edit of a run reached is enriched once,
and the order of the edits does not matter (`Model.node?_editAll`).

* `Model.enrich_confluent` — any run of such edits is absorbed by enrichment of the whole model, and
  equals it once every node was reached.
-/
import ApiSurface.Pass
import ApiSurface.Proofs.Model.Enrichment

namespace ApiSurface

/-- Whether the second address is the first one or that of a child. -/
def Address.covers : Address → Address → Bool
  | .bean i, .property k _ => i = k
  | .enumeration i, .member k _ => i = k
  | .application i, .endpoint k _ => i = k
  | a, b => a = b

namespace Edit

/-- Whether an edit is an enrichment of a node or of the whole model. -/
def isEnrichment : Edit → Bool
  | .enrichAll => true
  | .enrich _ => true
  | _ => false

/-- Whether an edit enriches the node at an address. -/
def reaches : Edit → Address → Bool
  | .enrichAll, _ => true
  | .enrich node, a => node.covers a
  | _, _ => false

end Edit

/-- The node after an enrichment that may not reach it. -/
def Documented.enrichedIf (reached : Bool) (n : Documented) : Documented :=
  if reached then n.enriched else n

@[simp] theorem Documented.enrichedIf_true : Documented.enrichedIf true = Documented.enriched := by
  funext n
  rfl

@[simp] theorem Documented.enrichedIf_false : Documented.enrichedIf false = id := by
  funext n
  rfl

theorem Documented.enrichedIf_decide (p : Prop) [Decidable p] :
    Documented.enrichedIf (decide p) = fun n => if p then n.enriched else n := by
  funext n
  simp [enrichedIf]

/-- Whatever reached a node before, the node is enriched at most once. -/
theorem Documented.enrichedIf_enrichedIf (r s : Bool) (n : Documented) :
    (n.enrichedIf r).enrichedIf s = n.enrichedIf (r || s) := by
  cases r <;> cases s <;> simp [Documented.enriched_enriched]

/-! ### A change of one part -/

theorem map_getElem?_modify {α β : Type} {f : α → α} {part : α → β} {g : β → β}
    (h : ∀ x, part (f x) = g (part x)) (xs : List α) (i k : Nat) :
    (xs.modify i f)[k]?.map part = xs[k]?.map fun x => if i = k then g (part x) else part x := by
  rw [List.getElem?_modify]
  cases xs[k]? with
  | none => rfl
  | some x => by_cases hk : i = k <;> simp [hk, h]

/-- A change of one node is none of a node that is not covered with it. -/
theorem Address.ite_eq_id {a b c : Address} (hb : a.covers b = true) (hc : a.covers c = false)
    (g : Documented → Documented) : (fun n => if b = c then g n else n) = id := by
  funext n
  refine if_neg ?_
  rintro rfl
  exact absurd (hb.symm.trans hc) (by simp)

namespace Model

/-- A change of a data class changes its node and those of its properties, and no others. -/
theorem node?_modifyBean (m : Model) (i : Nat) {f : Bean → Bean}
    {g : Address → Documented → Documented}
    (self : ∀ b, (f b).node = g (.bean i) b.node)
    (child : ∀ b j, (f b).properties[j]?.map Property.node =
      b.properties[j]?.map fun p => g (.property i j) p.node)
    (other : ∀ a, (Address.bean i).covers a = false → g a = id) (a : Address) :
    (m.modifyBean i f).node? a = (m.node? a).map (g a) := by
  cases hcovers : (Address.bean i).covers a with
  | false =>
    rw [other a hcovers, Option.map_id_apply]
    cases a <;> simp_all [node?, modifyBean, Address.covers]
  | true =>
    cases a with
    | bean k =>
      obtain rfl : i = k := by simpa [Address.covers] using hcovers
      simp [node?_bean, modifyBean, self, Function.comp_def]
    | property k l =>
      obtain rfl : i = k := by simpa [Address.covers] using hcovers
      cases hb : m.beans[i]? <;> simp [node?_property, modifyBean, hb, child, Function.comp_def]
    | _ => simp [Address.covers] at hcovers

/-- A change of an enumeration changes its node and those of its members, and no others. -/
theorem node?_modifyEnum (m : Model) (i : Nat) {f : Enumeration → Enumeration}
    {g : Address → Documented → Documented} (self : ∀ e, (f e).node = g (.enumeration i) e.node)
    (child : ∀ e j, (f e).members[j]?.map EnumMember.node =
      e.members[j]?.map fun x => g (.member i j) x.node)
    (other : ∀ a, (Address.enumeration i).covers a = false → g a = id) (a : Address) :
    (m.modifyEnum i f).node? a = (m.node? a).map (g a) := by
  cases hcovers : (Address.enumeration i).covers a with
  | false =>
    rw [other a hcovers, Option.map_id_apply]
    cases a <;> simp_all [node?, modifyEnum, Address.covers]
  | true =>
    cases a with
    | enumeration k =>
      obtain rfl : i = k := by simpa [Address.covers] using hcovers
      simp [node?_enumeration, modifyEnum, self, Function.comp_def]
    | member k l =>
      obtain rfl : i = k := by simpa [Address.covers] using hcovers
      cases he : m.enums[i]? <;> simp [node?_member, modifyEnum, he, child, Function.comp_def]
    | _ => simp [Address.covers] at hcovers

/-- A change of an application changes the nodes of its endpoints, and no others. -/
theorem node?_modifyApplication (m : Model) (i : Nat) {f : Application → Application}
    {g : Address → Documented → Documented}
    (child : ∀ b j, (f b).endpoints[j]?.map Endpoint.node =
      b.endpoints[j]?.map fun e => g (.endpoint i j) e.node)
    (other : ∀ a, (Address.application i).covers a = false → g a = id) (a : Address) :
    (m.modifyApplication i f).node? a = (m.node? a).map (g a) := by
  cases hcovers : (Address.application i).covers a with
  | false =>
    rw [other a hcovers, Option.map_id_apply]
    cases a <;> simp_all [node?, modifyApplication, Address.covers]
  | true =>
    cases a with
    | application k => rfl
    | endpoint k l =>
      obtain rfl : i = k := by simpa [Address.covers] using hcovers
      cases hb : m.applications[i]? <;>
        simp [node?_endpoint, modifyApplication, hb, child, Function.comp_def]
    | _ => simp [Address.covers] at hcovers

/-- A change of a data class that keeps its properties changes its node only. -/
theorem node?_modifyBean_alone (m : Model) (i : Nat) {f : Bean → Bean} {g : Documented → Documented}
    (h : ∀ b, (f b).node = g b.node) (kept : ∀ b, (f b).properties = b.properties) (a : Address) :
    (m.modifyBean i f).node? a =
      (m.node? a).map fun n => if Address.bean i = a then g n else n := by
  refine m.node?_modifyBean i (g := fun a n => if Address.bean i = a then g n else n)
    (fun b => ?_) (fun b k => ?_)
    (fun a ha => Address.ite_eq_id (by simp [Address.covers]) ha g) a
  · simp [h]
  · simp [kept]

/-- A change of an enumeration that keeps its members changes its node only. -/
theorem node?_modifyEnum_alone (m : Model) (i : Nat) {f : Enumeration → Enumeration}
    {g : Documented → Documented} (h : ∀ e, (f e).node = g e.node)
    (kept : ∀ e, (f e).members = e.members)
    (a : Address) :
    (m.modifyEnum i f).node? a =
      (m.node? a).map fun n => if Address.enumeration i = a then g n else n := by
  refine m.node?_modifyEnum i (g := fun a n => if Address.enumeration i = a then g n else n)
    (fun e => ?_) (fun e k => ?_)
    (fun a ha => Address.ite_eq_id (by simp [Address.covers]) ha g) a
  · simp [h]
  · simp [kept]

/-- A change of a property changes its node only. -/
theorem node?_modifyProperty (m : Model) (i j : Nat) {f : Property → Property}
    {g : Documented → Documented}
    (h : ∀ p, (f p).node = g p.node) (a : Address) :
    (m.modifyProperty i j f).node? a =
      (m.node? a).map fun n => if Address.property i j = a then g n else n := by
  refine m.node?_modifyBean i (g := fun a n => if Address.property i j = a then g n else n)
    (fun b => ?_) (fun b k => ?_)
    (fun a ha => Address.ite_eq_id (by simp [Address.covers]) ha g) a
  · simp [Bean.node]
  · simp [map_getElem?_modify h]

/-- A change of an enumeration member changes its node only. -/
theorem node?_modifyMember (m : Model) (i j : Nat) {f : EnumMember → EnumMember}
    {g : Documented → Documented}
    (h : ∀ x, (f x).node = g x.node) (a : Address) :
    (m.modifyMember i j f).node? a =
      (m.node? a).map fun n => if Address.member i j = a then g n else n := by
  refine m.node?_modifyEnum i (g := fun a n => if Address.member i j = a then g n else n)
    (fun e => ?_) (fun e k => ?_)
    (fun a ha => Address.ite_eq_id (by simp [Address.covers]) ha g) a
  · simp [Enumeration.node]
  · simp [map_getElem?_modify h]

/-- A change of an endpoint changes its node only. -/
theorem node?_modifyEndpoint (m : Model) (i j : Nat) {f : Endpoint → Endpoint}
    {g : Documented → Documented}
    (h : ∀ e, (f e).node = g e.node) (a : Address) :
    (m.modifyEndpoint i j f).node? a =
      (m.node? a).map fun n => if Address.endpoint i j = a then g n else n := by
  refine m.node?_modifyApplication i (g := fun a n => if Address.endpoint i j = a then g n else n)
    (fun b k => ?_) (fun a ha => Address.ite_eq_id (by simp [Address.covers]) ha g) a
  simp [map_getElem?_modify h]

end Model

/-! ### Enrichment of one node -/

theorem map_modify_eq {α β : Type} {f : α → β} {g : α → α} (h : ∀ x, f (g x) = f x) (xs : List α)
    (i : Nat) : (xs.modify i g).map f = xs.map f := by
  refine List.ext_getElem? fun k => ?_
  rw [List.getElem?_map, List.getElem?_map, List.getElem?_modify]
  cases xs[k]? with
  | none => rfl
  | some x => split <;> simp [h]

theorem Bean.bare_enrich_property (b : Bean) (j : Nat) :
    Bean.bare { b with properties := b.properties.modify j Property.enrich } = b.bare := by
  have h := map_modify_eq (f := (·.withComments [])) (Property.withComments_enrich · [])
    b.properties j
  simp [bare, h]

theorem Enumeration.bare_enrich_member (e : Enumeration) (j : Nat) :
    Enumeration.bare { e with members := e.members.modify j EnumMember.enrich } = e.bare := by
  have h := map_modify_eq (f := (·.withComments [])) (EnumMember.withComments_enrich · [])
    e.members j
  simp [bare, h]

theorem Application.bare_enrich_endpoint (a : Application) (j : Nat) :
    Application.bare { a with endpoints := a.endpoints.modify j Endpoint.enrich } = a.bare := by
  have h := map_modify_eq (f := (·.withComments [])) (Endpoint.withComments_enrich · [])
    a.endpoints j
  simp [bare, h]

namespace Model

/-- Enrichment of one node changes nothing but documentation. -/
theorem bare_enrichAt (m : Model) (a : Address) : (m.enrichAt a).bare = m.bare := by
  cases a with
  | bean i => simp [enrichAt, modifyBean, bare, map_modify_eq Bean.bare_enrich]
  | property i j =>
    have h := map_modify_eq (fun b => Bean.bare_enrich_property b j) m.beans i
    simp [enrichAt, modifyProperty, modifyBean, bare, h]
  | enumeration i => simp [enrichAt, modifyEnum, bare, map_modify_eq Enumeration.bare_enrich]
  | member i j =>
    have h := map_modify_eq (fun e => Enumeration.bare_enrich_member e j) m.enums i
    simp [enrichAt, modifyMember, modifyEnum, bare, h]
  | application i =>
    simp [enrichAt, modifyApplication, bare, map_modify_eq Application.bare_enrich]
  | endpoint i j =>
    have h := map_modify_eq (fun a => Application.bare_enrich_endpoint a j) m.applications i
    simp [enrichAt, modifyEndpoint, modifyApplication, bare, h]

/-- Enrichment of one node enriches the nodes that its address covers, and no others. -/
theorem node?_enrichAt (m : Model) (a b : Address) :
    (m.enrichAt a).node? b = (m.node? b).map (Documented.enrichedIf (a.covers b)) := by
  cases a with
  | bean i =>
    refine m.node?_modifyBean i (g := fun b => Documented.enrichedIf ((Address.bean i).covers b))
      (fun c => ?_) (fun c j => ?_) (fun a ha => by rw [ha, Documented.enrichedIf_false]) b
    · simp [Address.covers, Bean.node_enrich]
    · simp [Address.covers, Bean.enrich_eq, Function.comp_def, Property.node_enrich]
  | enumeration i =>
    refine m.node?_modifyEnum i
      (g := fun b => Documented.enrichedIf ((Address.enumeration i).covers b))
      (fun e => ?_) (fun e j => ?_) (fun a ha => by rw [ha, Documented.enrichedIf_false]) b
    · simp [Address.covers, Enumeration.node_enrich]
    · simp [Address.covers, Enumeration.enrich_eq, Function.comp_def, EnumMember.node_enrich]
  | application i =>
    refine m.node?_modifyApplication i
      (g := fun b => Documented.enrichedIf ((Address.application i).covers b))
      (fun e j => ?_) (fun a ha => by rw [ha, Documented.enrichedIf_false]) b
    simp [Address.covers, Application.enrich_eq, Function.comp_def, Endpoint.node_enrich]
  | property i j =>
    rw [enrichAt, m.node?_modifyProperty i j Property.node_enrich]
    simp [Address.covers, Documented.enrichedIf_decide]
  | member i j =>
    rw [enrichAt, m.node?_modifyMember i j EnumMember.node_enrich]
    simp [Address.covers, Documented.enrichedIf_decide]
  | endpoint i j =>
    rw [enrichAt, m.node?_modifyEndpoint i j Endpoint.node_enrich]
    simp [Address.covers, Documented.enrichedIf_decide]

/-! ### Runs of enrichments -/

theorem bare_edit (m : Model) {e : Edit} (he : e.isEnrichment) : (m.edit e).bare = m.bare := by
  cases e with
  | enrichAll => exact m.bare_enrich
  | enrich a => exact m.bare_enrichAt a
  | _ => exact nomatch he

theorem node?_edit (m : Model) {e : Edit} (he : e.isEnrichment) (a : Address) :
    (m.edit e).node? a = (m.node? a).map (Documented.enrichedIf (e.reaches a)) := by
  cases e with
  | enrichAll => rw [edit, node?_enrich, Edit.reaches, Documented.enrichedIf_true]
  | enrich b => exact m.node?_enrichAt b a
  | _ => exact nomatch he

theorem bare_editAll (m : Model) {edits : List Edit} (h : ∀ e ∈ edits, e.isEnrichment) :
    (m.editAll edits).bare = m.bare := by
  induction edits generalizing m with
  | nil => rfl
  | cons e rest ih =>
    have hrest := ih (m.edit e) fun x hx => h x (List.mem_cons_of_mem e hx)
    rw [m.bare_edit (h e List.mem_cons_self)] at hrest
    exact hrest

/-- A run enriches each node that one of its edits reaches, however many do and in any order. -/
theorem node?_editAll (m : Model) {edits : List Edit} (h : ∀ e ∈ edits, e.isEnrichment)
    (a : Address) :
    (m.editAll edits).node? a
      = (m.node? a).map (Documented.enrichedIf (edits.any (·.reaches a))) := by
  induction edits generalizing m with
  | nil => simp [editAll]
  | cons e rest ih =>
    have hrest := ih (m.edit e) fun x hx => h x (List.mem_cons_of_mem e hx)
    rw [m.node?_edit (h e List.mem_cons_self), Option.map_map] at hrest
    rw [List.any_cons]
    refine hrest.trans (congrArg (Option.map · (m.node? a)) ?_)
    funext n
    exact Documented.enrichedIf_enrichedIf _ _ n

/-- Enrichment of the whole model absorbs any run of enrichments before it. -/
theorem enrich_editAll (m : Model) {edits : List Edit} (h : ∀ e ∈ edits, e.isEnrichment) :
    (m.editAll edits).enrich = m.enrich := by
  refine ext_node ?_ fun a => ?_
  · rw [bare_enrich, bare_enrich, m.bare_editAll h]
  · -- Whether a node was reached before makes no difference to its enrichment.
    have hn (n : Documented) (r : Bool) : (n.enrichedIf r).enriched = n.enriched := by
      have := Documented.enrichedIf_enrichedIf r true n
      rwa [Bool.or_true, Documented.enrichedIf_true] at this
    rw [node?_enrich, node?_enrich, m.node?_editAll h]
    simp only [Option.map_map, Function.comp_def, hn]

/-- A run that reaches every node is an enrichment of the whole model. -/
theorem editAll_of_reaches (m : Model) {edits : List Edit} (h : ∀ e ∈ edits, e.isEnrichment)
    (all : ∀ a, (m.node? a).isSome → ∃ e ∈ edits, e.reaches a) : m.editAll edits = m.enrich := by
  refine ext_node ?_ fun a => ?_
  · rw [bare_enrich, m.bare_editAll h]
  · rw [node?_enrich, m.node?_editAll h]
    cases hn : m.node? a with
    | none => rfl
    | some n =>
      have ha : edits.any (·.reaches a) = true := by
        rw [List.any_eq_true]
        exact all a (by rw [hn, Option.isSome_some])
      rw [ha, Documented.enrichedIf_true]

theorem enrich_enrich (m : Model) : m.enrich.enrich = m.enrich := by
  have h : ∀ e ∈ [Edit.enrichAll], e.isEnrichment := by simp [Edit.isEnrichment]
  exact m.enrich_editAll h

end Model

theorem Pass.run_deprecation_twice (before after : List Pass) (m : Model) :
    Pass.run (before ++ [deprecation, deprecation] ++ after) m =
      Pass.run (before ++ [deprecation] ++ after) m := by
  simp [Pass.run, deprecation, Model.enrich_enrich]

/-- Enrichments of single nodes and of the whole model, in any order and with any repetition, are
absorbed by a last one; none is needed once every node was reached; and the pass that enriches does
nothing directly after itself. -/
theorem Model.enrich_confluent (m : Model) {edits : List Edit}
    (h : ∀ e ∈ edits, e.isEnrichment) :
    (m.editAll edits).enrich = m.enrich ∧
    ((∀ a, (m.node? a).isSome → ∃ e ∈ edits, e.reaches a) → m.editAll edits = m.enrich) ∧
    ∀ before after : List Pass,
      Pass.run (before ++ [Pass.deprecation, Pass.deprecation] ++ after) m =
        Pass.run (before ++ [Pass.deprecation] ++ after) m := by
  refine ⟨m.enrich_editAll h, m.editAll_of_reaches h, fun before after => ?_⟩
  exact Pass.run_deprecation_twice before after m

/-- A deprecated data class and its property, enriched one after the other in both orders. -/
theorem Model.enrich_confluent_overlap :
    let property : Property := { name := "p", typeName := "T", origin := .field ⟨"p", some {}⟩ }
    let m : Model := { beans := [⟨"B", none, [], [property], [], some ⟨"B", some {}⟩⟩] }
    m.editAll [.enrich (.property 0 0), .enrich (.bean 0)] = m.enrich ∧
      m.editAll [.enrich (.bean 0), .enrich (.property 0 0)] = m.enrich := by
  intro property m
  -- The data class and its property are the only nodes.
  have reached (a : Address) (ha : (m.node? a).isSome) : (Address.bean 0).covers a := by
    cases a with
    | bean i => cases i <;> simp_all [m, node?, Address.covers]
    | property i j => cases i <;> simp_all [m, node?, Address.covers]
    | _ => simp [m, node?] at ha
  refine ⟨(m.enrich_confluent ?_).2.1 fun a ha => ?_, (m.enrich_confluent ?_).2.1 fun a ha => ?_⟩
  · simp [Edit.isEnrichment]
  · exact ⟨.enrich (.bean 0), by simp, reached a ha⟩
  · simp [Edit.isEnrichment]
  · exact ⟨.enrich (.bean 0), by simp, reached a ha⟩

end ApiSurface
