/-
The order in which enrichment visits the nodes of a model, and what it reports about them.

Every address has a place in this order (`Address.place`): data classes come before enumerations and
these before applications, containers of a kind come one after another, and the children of a
container come before the container itself. `Model.visits` lists the nodes in the order of their
places (`Model.inOrder_visits`), each of them once and none left out (`Model.mem_visits`).

* `Model.events_traceEnrich` — enrichment reports at most one event of each visited node, in order;
* `Model.countP_events` — as many notices are reported as nodes are documented newly.
-/
import Mathlib.Data.Prod.Lex
import Mathlib.Order.WithBot
import ApiSurface.Proofs.Model.Count

namespace ApiSurface

/-! ### Events -/

/-- Whether an event reports that a notice was added. -/
def EnrichmentEvent.isNoticeAdded : EnrichmentEvent → Bool
  | .noticeAdded _ _ => true
  | .alreadyDocumented _ => false

namespace Documented

/-- What enrichment reports about a node: nothing unless the origin has a marker. -/
def event? (n : Documented) : Option EnrichmentEvent :=
  n.origin.bind fun e => e.deprecated.map fun k =>
    if n.documented then .alreadyDocumented e.name else .noticeAdded e.name k.notice

variable {n : Documented} {e : SourceElement} {k : Marker}

theorem event?_of_due (origin : n.origin = some e) (h : n.Due k) :
    n.event? = some (.noticeAdded e.name k.notice) := by
  have marker : e.deprecated = some k := by simpa [origin] using h.1
  simp [event?, origin, marker, (documented_of_due h).1]

theorem event?_of_documented (origin : n.origin = some e) (marker : e.deprecated = some k)
    (h : n.documented = true) : n.event? = some (.alreadyDocumented e.name) := by
  simp [event?, origin, marker, h]

theorem event?_of_no_marker (h : n.origin.bind (·.deprecated) = none) : n.event? = none := by
  cases origin : n.origin with
  | none => simp [event?, origin]
  | some e => simp_all [event?]

/-- Whether enrichment adds a notice to a node. -/
def gains (n : Documented) : Bool := n.event?.any EnrichmentEvent.isNoticeAdded

/-- A notice is reported of the nodes whose documentation changes. -/
theorem gains_iff (n : Documented) : n.gains = true ↔ n.enriched.comments ≠ n.comments := by
  by_cases due : ∃ k, n.Due k
  · obtain ⟨k, hk⟩ := due
    obtain ⟨e, origin, -⟩ := Option.bind_eq_some_iff.mp hk.1
    refine iff_of_true ?_ ?_
    · rw [gains, event?_of_due origin hk]
      rfl
    · simp [comments_enriched_of_due hk]
  · -- A node that is due nothing has no marker, or it has a notice already.
    refine iff_of_false ?_ (not_not.mpr (comments_enriched_of_not_due (not_exists.mp due)))
    cases hmarker : n.origin.bind (·.deprecated) with
    | none => simp [gains, event?_of_no_marker hmarker]
    | some k =>
      have hd : n.documented = true := by
        by_contra hd
        exact due ⟨k, due_of_not_documented (Bool.not_eq_true _ ▸ hd) hmarker⟩
      obtain ⟨e, origin, marker⟩ := Option.bind_eq_some_iff.mp hmarker
      simp [gains, event?_of_documented origin marker hd, EnrichmentEvent.isNoticeAdded]

/-- Enrichment of a node reports one event or none. -/
theorem events_traceNotice (n : Documented) :
    (traceNotice n.comments n.origin).events = n.event?.toList := by
  cases origin : n.origin with
  | none => simp [traceNotice, event?, origin]
  | some e =>
    cases marker : e.deprecated with
    | none => simp [traceNotice, event?, origin, marker]
    | some k =>
      cases hd : isDocumented n.comments <;>
        simp [traceNotice, event?, documented, origin, marker, hd]

end Documented

/-! ### Places -/

namespace Address

/-- The number of the kind of a node's outermost container. -/
def kind : Address → ℕ
  | .bean _ | .property _ _ => 0
  | .enumeration _ | .member _ _ => 1
  | .application _ | .endpoint _ _ => 2

/-- The position of a node in its container; a container is the last of all in it. -/
def slot : Address → WithTop ℕ
  | .property _ j | .member _ j | .endpoint _ j => j
  | .bean _ | .enumeration _ | .application _ => ⊤

/-- The place of a node in the order of enrichment. -/
def place (a : Address) : ℕ ×ₗ ℕ ×ₗ WithTop ℕ := toLex (a.kind, toLex (a.container, a.slot))

theorem place_lt_iff {a b : Address} : a.place < b.place ↔
    a.kind < b.kind ∨ a.kind = b.kind ∧
      (a.container < b.container ∨ a.container = b.container ∧ a.slot < b.slot) := by
  simp [place, Prod.Lex.toLex_lt_toLex]

end Address

/-! ### Visits -/

/-- The nodes of a data class at a position, in the order in which they are enriched. -/
def Bean.visits (b : Bean) (i : Nat) : List (Address × Documented) :=
  numbered (.property i) (b.properties.map Property.node) ++ [(.bean i, b.node)]

/-- The nodes of an enumeration at a position, in the order in which they are enriched. -/
def Enumeration.visits (e : Enumeration) (i : Nat) : List (Address × Documented) :=
  numbered (.member i) (e.members.map EnumMember.node) ++ [(.enumeration i, e.node)]

/-- The nodes of a model in the order in which they are enriched. -/
def Model.visits (m : Model) : List (Address × Documented) :=
  m.beans.zipIdx.flatMap (fun x => x.1.visits x.2) ++
    (m.enums.zipIdx.flatMap (fun x => x.1.visits x.2) ++
      m.applications.zipIdx.flatMap (fun x => x.1.entries x.2))

theorem Bean.visits_perm (b : Bean) (i : Nat) : (b.visits i).Perm (b.entries i) :=
  List.perm_append_singleton _ _

theorem Enumeration.visits_perm (e : Enumeration) (i : Nat) : (e.visits i).Perm (e.entries i) :=
  List.perm_append_singleton _ _

theorem Model.visits_perm (m : Model) : m.visits.Perm m.entries :=
  (List.Perm.flatMap_left _ fun x _ => x.1.visits_perm x.2).append
    ((List.Perm.flatMap_left _ fun x _ => x.1.visits_perm x.2).append_right _)

/-- The nodes of a model are visited at their addresses, and no others. -/
theorem Model.mem_visits {m : Model} {a : Address} {n : Documented} :
    (a, n) ∈ m.visits ↔ m.node? a = some n :=
  m.visits_perm.mem_iff.trans mem_entries

/-! ### The order of the visits -/

/-- Whether nodes are listed in the order of their places. -/
def InOrder (visits : List (Address × Documented)) : Prop :=
  visits.Pairwise fun v w => v.1.place < w.1.place

/-- Positions in a list are in order. -/
theorem pairwise_zipIdx {α : Type} (xs : List α) : xs.zipIdx.Pairwise fun x y => x.2 < y.2 := by
  have positions : (xs.zipIdx.map Prod.snd).Pairwise (· < ·) := by
    rw [List.zipIdx_map_snd]
    exact List.pairwise_lt_range'
  exact List.pairwise_map.mp positions

section Container

/-! Children at addresses in the slots of a container. -/

variable {c : Address} {address : ℕ → Address}
  (children : ∀ j : ℕ, (address j).place = toLex (c.kind, toLex (c.container, ↑j)))

include children

theorem inOrder_numbered (ns : List Documented) : InOrder (numbered address ns) := by
  refine List.pairwise_map.mpr ((pairwise_zipIdx ns).imp fun {x y} hlt => ?_)
  simp [children, Prod.Lex.toLex_lt_toLex, hlt]

/-- The children come before their container. -/
theorem inOrder_concat (last : c.slot = ⊤) (ns : List Documented) (n : Documented) :
    InOrder (numbered address ns ++ [(c, n)]) := by
  refine List.pairwise_append.mpr ⟨inOrder_numbered children ns, List.pairwise_singleton _ _, ?_⟩
  rintro ⟨a, n'⟩ hv w hw
  obtain ⟨j, rfl, -⟩ := mem_numbered.mp hv
  obtain rfl := List.mem_singleton.mp hw
  rw [children, Address.place, last]
  simp [Prod.Lex.toLex_lt_toLex]

end Container

theorem Bean.inOrder_visits (b : Bean) (i : Nat) : InOrder (b.visits i) :=
  inOrder_concat (fun _ => rfl) rfl _ _

theorem Enumeration.inOrder_visits (e : Enumeration) (i : Nat) : InOrder (e.visits i) :=
  inOrder_concat (fun _ => rfl) rfl _ _

theorem Application.inOrder_entries (a : Application) (i : Nat) : InOrder (a.entries i) :=
  @inOrder_numbered (.application i) (.endpoint i) (fun _ => rfl) _

theorem Bean.kind_visits (b : Bean) (i : Nat) :
    ∀ v ∈ b.visits i, v.1.kind = 0 ∧ v.1.container = i := by
  intro v hv
  obtain h | ⟨j, h⟩ := address_entries (List.mem_map_of_mem ((b.visits_perm i).mem_iff.mp hv)) <;>
    simp [h, Address.kind, Address.container]

theorem Enumeration.kind_visits (e : Enumeration) (i : Nat) :
    ∀ v ∈ e.visits i, v.1.kind = 1 ∧ v.1.container = i := by
  intro v hv
  obtain h | ⟨j, h⟩ := address_entries (List.mem_map_of_mem ((e.visits_perm i).mem_iff.mp hv)) <;>
    simp [h, Address.kind, Address.container]

theorem Application.kind_entries (a : Application) (i : Nat) :
    ∀ v ∈ a.entries i, v.1.kind = 2 ∧ v.1.container = i := by
  intro v hv
  obtain ⟨j, h⟩ := address_entries (List.mem_map_of_mem hv)
  simp [h, Address.kind, Address.container]

section Containers

variable {α : Type} {visits : α × ℕ → List (Address × Documented)} {kind : ℕ}
  (located : ∀ x, ∀ v ∈ visits x, v.1.kind = kind ∧ v.1.container = x.2) (xs : List α)

include located

/-- Containers of a kind are visited one after another. -/
theorem inOrder_containers (inOrder : ∀ x, InOrder (visits x)) :
    InOrder (xs.zipIdx.flatMap visits) := by
  refine List.pairwise_flatMap.mpr ⟨fun x _ => inOrder x, ?_⟩
  refine (pairwise_zipIdx xs).imp fun {x y} hlt v hv w hw => Address.place_lt_iff.mpr (.inr ?_)
  obtain ⟨hkind, hcontainer⟩ := located x v hv
  obtain ⟨hkind', hcontainer'⟩ := located y w hw
  exact ⟨hkind.trans hkind'.symm, .inl (by rwa [hcontainer, hcontainer'])⟩

theorem kind_containers : ∀ v ∈ xs.zipIdx.flatMap visits, v.1.kind = kind := by
  intro v hv
  obtain ⟨x, -, hx⟩ := List.mem_flatMap.mp hv
  exact (located x v hx).1

end Containers

/-- Visits of one kind come before visits of later kinds. -/
theorem InOrder.append {vs ws : List (Address × Documented)} {kind : ℕ} (hvs : InOrder vs)
    (hws : InOrder ws) (first : ∀ v ∈ vs, v.1.kind = kind) (later : ∀ w ∈ ws, kind < w.1.kind) :
    InOrder (vs ++ ws) := by
  refine List.pairwise_append.mpr ⟨hvs, hws, fun v hv w hw => Address.place_lt_iff.mpr (.inl ?_)⟩
  rw [first v hv]
  exact later w hw

/-- The nodes of a model are visited in the order of their places. -/
theorem Model.inOrder_visits (m : Model) : InOrder m.visits := by
  have beans := inOrder_containers (fun x => x.1.kind_visits x.2) m.beans
    fun x => x.1.inOrder_visits x.2
  have enums := inOrder_containers (fun x => x.1.kind_visits x.2) m.enums
    fun x => x.1.inOrder_visits x.2
  have applications := inOrder_containers (fun x => x.1.kind_entries x.2) m.applications
    fun x => x.1.inOrder_entries x.2
  have enumKind := kind_containers (fun x => x.1.kind_visits x.2) m.enums
  have applicationKind := kind_containers (fun x => x.1.kind_entries x.2) m.applications
  refine beans.append (enums.append applications enumKind fun w hw => ?_)
    (kind_containers (fun x => x.1.kind_visits x.2) m.beans) fun w hw => ?_
  · rw [applicationKind w hw]
    decide
  · obtain hw | hw := List.mem_append.mp hw
    · rw [enumKind w hw]
      decide
    · rw [applicationKind w hw]
      decide

/-! ### The events of the visits -/

theorem filterMap_numbered {β : Type} (address : Nat → Address) (ns : List Documented)
    (f : Documented → Option β) :
    (numbered address ns).filterMap (fun v => f v.2) = ns.filterMap f := by
  calc (numbered address ns).filterMap (fun v => f v.2)
      = ((numbered address ns).map Prod.snd).filterMap f := by
        rw [List.filterMap_map]
        rfl
    _ = ns.filterMap f := by rw [map_snd_numbered]

/-- What is reported about containers is reported about the nodes of each. -/
theorem filterMap_containers {α β : Type} {visits : α × Nat → List (Address × Documented)}
    {f : Address × Documented → Option β} {g : α → List β}
    (h : ∀ x, (visits x).filterMap f = g x.1) (xs : List α) :
    (xs.zipIdx.flatMap visits).filterMap f = xs.flatMap g := by
  calc (xs.zipIdx.flatMap visits).filterMap f
      = xs.zipIdx.flatMap fun x => g x.1 := by
        rw [List.filterMap_flatMap]
        exact List.flatMap_congr fun x _ => h x
    _ = (xs.zipIdx.map Prod.fst).flatMap g := by rw [List.flatMap_map]
    _ = xs.flatMap g := by rw [List.zipIdx_map_fst]

theorem Traced.events_each {α : Type} {f : α → Traced α} {node : α → Documented}
    (h : ∀ x, (f x).events = (node x).event?.toList) (xs : List α) :
    (Traced.each f xs).events = (xs.map node).filterMap Documented.event? := by
  rw [List.filterMap_eq_flatMap_toList, List.flatMap_map]
  exact List.flatMap_congr fun x _ => h x

theorem Property.events_traceEnrich (p : Property) :
    p.traceEnrich.events = p.node.event?.toList := p.node.events_traceNotice

theorem EnumMember.events_traceEnrich (x : EnumMember) :
    x.traceEnrich.events = x.node.event?.toList := x.node.events_traceNotice

theorem Endpoint.events_traceEnrich (e : Endpoint) :
    e.traceEnrich.events = e.node.event?.toList := e.node.events_traceNotice

theorem Bean.events_visits (b : Bean) (i : Nat) :
    (b.visits i).filterMap (fun v => v.2.event?) = b.traceEnrich.events := by
  have properties := Traced.events_each Property.events_traceEnrich b.properties
  rw [visits, List.filterMap_append, filterMap_numbered, ← properties]
  exact congrArg (_ ++ ·) b.node.events_traceNotice.symm

theorem Enumeration.events_visits (e : Enumeration) (i : Nat) :
    (e.visits i).filterMap (fun v => v.2.event?) = e.traceEnrich.events := by
  have members := Traced.events_each EnumMember.events_traceEnrich e.members
  rw [visits, List.filterMap_append, filterMap_numbered, ← members]
  exact congrArg (_ ++ ·) e.node.events_traceNotice.symm

theorem Application.events_entries (a : Application) (i : Nat) :
    (a.entries i).filterMap (fun v => v.2.event?) = a.traceEnrich.events := by
  rw [entries, filterMap_numbered]
  exact (Traced.events_each Endpoint.events_traceEnrich a.endpoints).symm

namespace Model

/-- Enrichment reports at most one event of each visited node, in the order of the visits. -/
theorem events_traceEnrich (m : Model) :
    m.traceEnrich.events = m.visits.filterMap fun v => v.2.event? := by
  have beans := filterMap_containers (g := (·.traceEnrich.events))
    (fun x => x.1.events_visits x.2) m.beans
  have enums := filterMap_containers (g := (·.traceEnrich.events))
    (fun x => x.1.events_visits x.2) m.enums
  have applications := filterMap_containers (g := (·.traceEnrich.events))
    (fun x => x.1.events_entries x.2) m.applications
  rw [visits, List.filterMap_append, List.filterMap_append, beans, enums, applications]
  rfl

/-- The nodes of which an added notice is reported are those whose documentation changes. -/
theorem addressesOf_gains (m : Model) : m.addressesOf (·.gains = true) = m.changed m.enrich := by
  ext a
  simp only [addressesOf, changed, Set.mem_ofPred_eq, node?_enrich, Documented.gains_iff]
  cases m.node? a with
  | none => simp
  | some n => simp [eq_comm]

/-- As many added notices are reported as nodes are documented newly. -/
theorem countP_events (m : Model) :
    m.traceEnrich.events.countP EnrichmentEvent.isNoticeAdded =
      m.enrich.documented - m.documented := by
  rw [documented_enrich_sub, ← addressesOf_gains, ncard_addressesOf, ← m.visits_perm.countP_eq,
    events_traceEnrich, List.countP_filterMap]
  refine List.countP_congr fun v _ => ?_
  rw [Documented.gains]
  cases v.2.event? <;> rfl

end Model

end ApiSurface
