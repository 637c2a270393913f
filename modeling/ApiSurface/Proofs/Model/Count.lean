/-
How many nodes of a model are documented.

`Model.entries` lists the nodes with their addresses, each address once (`Model.nodup_entries`) and
none left out (`Model.mem_entries`), so counting entries is counting addresses
(`Model.ncard_addressesOf`). The number of documented nodes, which is added up container by
container, is such a count (`Model.documented_eq_ncard`).

* `Model.documented_enrich_eq_ncard` — the number after enrichment counts the nodes that were
  documented or have a marker;
* `Model.documented_enrich_sub` — it grows by the number of nodes whose documentation changes.
-/
import Mathlib.Data.Set.Card
import ApiSurface.Proofs.Model.Enrichment

namespace ApiSurface

/-! ### Entries -/

/-- Nodes with their addresses, which are numbered from zero. -/
def numbered (address : Nat → Address) (ns : List Documented) : List (Address × Documented) :=
  ns.zipIdx.map fun x => (address x.2, x.1)

theorem mem_numbered {address : Nat → Address} {ns : List Documented} {a : Address}
    {n : Documented} :
    (a, n) ∈ numbered address ns ↔ ∃ i, a = address i ∧ ns[i]? = some n := by
  simp only [numbered, List.mem_map, Prod.mk.injEq, Prod.exists, List.mem_zipIdx_iff_getElem?]
  constructor
  · rintro ⟨n, i, hn, rfl, rfl⟩
    exact ⟨i, rfl, hn⟩
  · rintro ⟨i, rfl, hn⟩
    exact ⟨n, i, hn, rfl, rfl⟩

theorem map_snd_numbered (address : Nat → Address) (ns : List Documented) :
    (numbered address ns).map Prod.snd = ns := by
  rw [numbered, List.map_map]
  exact List.zipIdx_map_fst ..

theorem countP_numbered (address : Nat → Address) (ns : List Documented) (p : Documented → Bool) :
    (numbered address ns).countP (fun e => p e.2) = ns.countP p := by
  calc (numbered address ns).countP (fun e => p e.2)
      = ((numbered address ns).map Prod.snd).countP p := by
        rw [List.countP_map]
        rfl
    _ = ns.countP p := by rw [map_snd_numbered]

theorem map_fst_numbered (address : Nat → Address) (ns : List Documented) :
    (numbered address ns).map Prod.fst = (List.range ns.length).map address := by
  rw [numbered, List.map_map, List.range_eq_range', ← List.zipIdx_map_snd 0 ns, List.map_map]
  rfl

/-- The nodes of a data class at a position. -/
def Bean.entries (b : Bean) (i : Nat) : List (Address × Documented) :=
  (.bean i, b.node) :: numbered (.property i) (b.properties.map Property.node)

/-- The nodes of an enumeration at a position. -/
def Enumeration.entries (e : Enumeration) (i : Nat) : List (Address × Documented) :=
  (.enumeration i, e.node) :: numbered (.member i) (e.members.map EnumMember.node)

/-- The nodes of an application at a position. -/
def Application.entries (a : Application) (i : Nat) : List (Address × Documented) :=
  numbered (.endpoint i) (a.endpoints.map Endpoint.node)

/-- The nodes of a model with their addresses. -/
def Model.entries (m : Model) : List (Address × Documented) :=
  m.beans.zipIdx.flatMap (fun x => x.1.entries x.2) ++
    (m.enums.zipIdx.flatMap (fun x => x.1.entries x.2) ++
      m.applications.zipIdx.flatMap (fun x => x.1.entries x.2))

namespace Model

/-- The entries are the nodes at their addresses. -/
theorem mem_entries {m : Model} {a : Address} {n : Documented} :
    (a, n) ∈ m.entries ↔ m.node? a = some n := by
  simp only [entries, Bean.entries, Enumeration.entries, Application.entries, List.mem_append,
    List.mem_flatMap, Prod.exists, List.mem_zipIdx_iff_getElem?, List.mem_cons, Prod.mk.injEq,
    mem_numbered, List.getElem?_map]
  cases a with
  | bean i => simp [node?_bean, eq_comm, and_comm]
  | property i j =>
    rw [node?_property, Option.bind_eq_some_iff]
    simp [eq_comm, and_comm]
  | enumeration i => simp [node?_enumeration, eq_comm, and_comm]
  | member i j =>
    rw [node?_member, Option.bind_eq_some_iff]
    simp [eq_comm, and_comm]
  | application i => simp [node?]
  | endpoint i j =>
    rw [node?_endpoint, Option.bind_eq_some_iff]
    simp [eq_comm, and_comm]

end Model

/-- The position of a node's outermost container. -/
def Address.container : Address → Nat
  | .bean i | .property i _ | .enumeration i | .member i _ | .application i | .endpoint i _ => i

/-- The addresses in containers are told apart by the containers' positions. -/
theorem nodup_containers {α : Type} {entries : α × Nat → List (Address × Documented)}
    (nodup : ∀ x, ((entries x).map Prod.fst).Nodup)
    (container : ∀ x, ∀ a ∈ (entries x).map Prod.fst, a.container = x.2) (xs : List α) :
    ((xs.zipIdx.flatMap entries).map Prod.fst).Nodup := by
  rw [List.map_flatMap]
  refine List.nodup_flatMap.mpr ⟨fun x _ => nodup x, ?_⟩
  have positions : (xs.zipIdx.map Prod.snd).Nodup := by
    rw [List.zipIdx_map_snd]
    exact List.nodup_range'
  refine (List.pairwise_map.mp positions).imp fun {x y} hne a hx hy => ?_
  exact hne ((container x a hx).symm.trans (container y a hy))

namespace Bean

theorem map_fst_entries (b : Bean) (i : Nat) :
    (b.entries i).map Prod.fst =
      .bean i :: (List.range b.properties.length).map (.property i) := by
  rw [entries, List.map_cons, map_fst_numbered, List.length_map]

theorem nodup_entries (b : Bean) (i : Nat) : ((b.entries i).map Prod.fst).Nodup := by
  rw [map_fst_entries, List.nodup_cons]
  exact ⟨by simp, List.nodup_range.map fun _ _ h => (Address.property.inj h).2⟩

theorem address_entries {b : Bean} {i : Nat} {a : Address}
    (h : a ∈ (b.entries i).map Prod.fst) : a = .bean i ∨ ∃ j, a = .property i j := by
  rw [map_fst_entries, List.mem_cons, List.mem_map] at h
  exact h.imp_right fun ⟨j, _, ha⟩ => ⟨j, ha.symm⟩

end Bean

namespace Enumeration

theorem map_fst_entries (e : Enumeration) (i : Nat) :
    (e.entries i).map Prod.fst =
      .enumeration i :: (List.range e.members.length).map (.member i) := by
  rw [entries, List.map_cons, map_fst_numbered, List.length_map]

theorem nodup_entries (e : Enumeration) (i : Nat) : ((e.entries i).map Prod.fst).Nodup := by
  rw [map_fst_entries, List.nodup_cons]
  exact ⟨by simp, List.nodup_range.map fun _ _ h => (Address.member.inj h).2⟩

theorem address_entries {e : Enumeration} {i : Nat} {a : Address}
    (h : a ∈ (e.entries i).map Prod.fst) : a = .enumeration i ∨ ∃ j, a = .member i j := by
  rw [map_fst_entries, List.mem_cons, List.mem_map] at h
  exact h.imp_right fun ⟨j, _, ha⟩ => ⟨j, ha.symm⟩

end Enumeration

namespace Application

theorem map_fst_entries (a : Application) (i : Nat) :
    (a.entries i).map Prod.fst = (List.range a.endpoints.length).map (.endpoint i) := by
  rw [entries, map_fst_numbered, List.length_map]

theorem nodup_entries (a : Application) (i : Nat) : ((a.entries i).map Prod.fst).Nodup := by
  rw [map_fst_entries]
  exact List.nodup_range.map fun _ _ h => (Address.endpoint.inj h).2

theorem address_entries {a : Application} {i : Nat} {b : Address}
    (h : b ∈ (a.entries i).map Prod.fst) : ∃ j, b = .endpoint i j := by
  rw [map_fst_entries, List.mem_map] at h
  exact h.imp fun _ hb => hb.2.symm

end Application

namespace Model

/-- No address has two entries. -/
theorem nodup_entries (m : Model) : (m.entries.map Prod.fst).Nodup := by
  have hbeans := nodup_containers (fun x => Bean.nodup_entries x.1 x.2)
    (fun x a ha => by obtain rfl | ⟨j, rfl⟩ := Bean.address_entries ha <;> rfl) m.beans
  have henums := nodup_containers (fun x => Enumeration.nodup_entries x.1 x.2)
    (fun x a ha => by obtain rfl | ⟨j, rfl⟩ := Enumeration.address_entries ha <;> rfl) m.enums
  have happlications := nodup_containers (fun x => Application.nodup_entries x.1 x.2)
    (fun x a ha => by obtain ⟨j, rfl⟩ := Application.address_entries ha; rfl) m.applications
  rw [entries, List.map_append, List.map_append]
  refine hbeans.append (henums.append happlications ?_) ?_
  · intro a he ha
    rw [List.map_flatMap, List.mem_flatMap] at he ha
    obtain ⟨x, -, hx⟩ := he
    obtain ⟨y, -, hy⟩ := ha
    obtain ⟨k, rfl⟩ := Application.address_entries hy
    obtain h | ⟨j, h⟩ := Enumeration.address_entries hx <;> cases h
  · intro a hb ha
    rw [List.map_flatMap, List.mem_flatMap] at hb
    rw [List.mem_append, List.map_flatMap, List.map_flatMap, List.mem_flatMap,
      List.mem_flatMap] at ha
    obtain ⟨x, -, hx⟩ := hb
    obtain ⟨y, -, hy⟩ | ⟨y, -, hy⟩ := ha
    · obtain rfl | ⟨k, rfl⟩ := Enumeration.address_entries hy <;>
      obtain h | ⟨j, h⟩ := Bean.address_entries hx <;> cases h
    · obtain ⟨k, rfl⟩ := Application.address_entries hy
      obtain h | ⟨j, h⟩ := Bean.address_entries hx <;> cases h

end Model

/-! ### Counts -/

/-- A count over containers adds up the counts of each one's nodes. -/
theorem countP_containers {α : Type} {entries : α × Nat → List (Address × Documented)}
    {p : Address × Documented → Bool} {count : α → Nat}
    (h : ∀ x, (entries x).countP p = count x.1) (xs : List α) :
    (xs.zipIdx.flatMap entries).countP p = xs.foldr (count · + ·) 0 := by
  calc (xs.zipIdx.flatMap entries).countP p
      = (xs.zipIdx.map fun x => count x.1).sum := by
        rw [List.countP_flatMap]
        exact congrArg List.sum (List.map_congr_left fun x _ => h x)
    _ = ((xs.zipIdx.map Prod.fst).map count).sum := by
        rw [List.map_map]
        rfl
    _ = xs.foldr (count · + ·) 0 := by
        rw [List.zipIdx_map_fst, List.sum_eq_foldr, List.foldr_map]

/-- Whether a node's documentation says that it is deprecated. -/
def Documented.documented (n : Documented) : Bool := isDocumented n.comments

theorem Bean.countP_entries (b : Bean) (i : Nat) :
    (b.entries i).countP (fun e => e.2.documented) = b.documented := by
  rw [entries, List.countP_cons, countP_numbered, List.countP_map, documented, Nat.add_comm,
    Bool.toNat]
  exact congrArg (· + _) (Bool.cond_eq_ite _ _ _).symm

theorem Enumeration.countP_entries (e : Enumeration) (i : Nat) :
    (e.entries i).countP (fun x => x.2.documented) = e.documented := by
  rw [entries, List.countP_cons, countP_numbered, List.countP_map, documented, Nat.add_comm,
    Bool.toNat]
  exact congrArg (· + _) (Bool.cond_eq_ite _ _ _).symm

theorem Application.countP_entries (a : Application) (i : Nat) :
    (a.entries i).countP (fun e => e.2.documented) = a.documented := by
  rw [entries, countP_numbered, List.countP_map, documented]
  rfl

namespace Model

theorem countP_entries (m : Model) : m.entries.countP (fun e => e.2.documented) = m.documented := by
  rw [entries, List.countP_append, List.countP_append,
    countP_containers (fun x => x.1.countP_entries x.2),
    countP_containers (fun x => x.1.countP_entries x.2),
    countP_containers (fun x => x.1.countP_entries x.2), documented, Nat.add_assoc]

/-- The addresses of the nodes with a property. -/
def addressesOf (m : Model) (p : Documented → Prop) : Set Address :=
  {a | ∃ n, m.node? a = some n ∧ p n}

theorem addressesOf_eq (m : Model) (p : Documented → Bool) :
    m.addressesOf (p · = true) = ((m.entries.filter fun e => p e.2).map Prod.fst).toFinset := by
  ext a
  simp [addressesOf, mem_entries]

/-- The number of addresses is the number of entries. -/
theorem ncard_addressesOf (m : Model) (p : Documented → Bool) :
    (m.addressesOf (p · = true)).ncard = m.entries.countP fun e => p e.2 := by
  have nodup : ((m.entries.filter fun e => p e.2).map Prod.fst).Nodup :=
    m.nodup_entries.sublist (List.filter_sublist.map Prod.fst)
  rw [addressesOf_eq, Set.ncard_coe_finset, List.toFinset_card_of_nodup nodup, List.length_map,
    List.countP_eq_length_filter]

theorem documented_eq_ncard (m : Model) :
    m.documented = (m.addressesOf (·.documented = true)).ncard := by
  rw [ncard_addressesOf, countP_entries]

/-- The addresses of the nodes whose documentation differs from that of another model. -/
def changed (m n : Model) : Set Address :=
  {a | (m.node? a).map (·.comments) ≠ (n.node? a).map (·.comments)}

end Model

/-! ### Enrichment -/

namespace Documented

theorem documented_of_due {n : Documented} {k : Marker} (h : n.Due k) :
    n.documented = false ∧ n.enriched.documented = true := by
  refine ⟨isDocumented_eq_false_iff.mpr h.2, ?_⟩
  rw [documented, comments_enriched_of_due h, isDocumented_append_notice]

/-- A node with a marker that is not documented is due its notice. -/
theorem due_of_not_documented {n : Documented} {k : Marker} (h : n.documented = false)
    (hk : n.origin.bind (·.deprecated) = some k) : n.Due k :=
  ⟨hk, isDocumented_eq_false_iff.mp h⟩

/-- Enrichment documents the nodes that are documented already or have a marker. -/
theorem documented_enriched (n : Documented) :
    n.enriched.documented = true ↔
      n.documented = true ∨ ∃ k, n.origin.bind (·.deprecated) = some k := by
  by_cases due : ∃ k, n.Due k
  · obtain ⟨k, hk⟩ := due
    exact iff_of_true (documented_of_due hk).2 (.inr ⟨k, hk.1⟩)
  · rw [documented, comments_enriched_of_not_due (not_exists.mp due), ← documented]
    refine ⟨.inl, fun h => ?_⟩
    obtain h | ⟨k, hk⟩ := h
    · exact h
    · by_contra hd
      exact due ⟨k, due_of_not_documented (Bool.not_eq_true _ ▸ hd) hk⟩

/-- Enrichment changes the documentation of the nodes that it documents newly. -/
theorem comments_enriched_ne_iff (n : Documented) :
    n.enriched.comments ≠ n.comments ↔ n.enriched.documented = true ∧ ¬ n.documented = true := by
  by_cases due : ∃ k, n.Due k
  · obtain ⟨k, hk⟩ := due
    obtain ⟨before, after⟩ := documented_of_due hk
    refine iff_of_true ?_ ⟨after, by simp [before]⟩
    simp [comments_enriched_of_due hk]
  · have same := comments_enriched_of_not_due (not_exists.mp due)
    refine iff_of_false (not_not.mpr same) ?_
    rw [documented, same]
    exact fun h => h.2 h.1

end Documented

namespace Model

theorem addressesOf_enrich (m : Model) (p : Documented → Prop) :
    m.enrich.addressesOf p = m.addressesOf fun n => p n.enriched := by
  ext a
  simp only [addressesOf, Set.mem_ofPred_eq, node?_enrich, Option.map_eq_some_iff]
  constructor
  · rintro ⟨_, ⟨n, hn, rfl⟩, hp⟩
    exact ⟨n, hn, hp⟩
  · rintro ⟨n, hn, hp⟩
    exact ⟨_, ⟨n, hn, rfl⟩, hp⟩

/-- What enrichment changes is what it documents newly. -/
theorem changed_enrich (m : Model) :
    m.changed m.enrich =
      m.enrich.addressesOf (·.documented = true) \ m.addressesOf (·.documented = true) := by
  rw [addressesOf_enrich]
  ext a
  simp only [changed, addressesOf, Set.mem_ofPred_eq, Set.mem_sdiff, node?_enrich]
  cases hn : m.node? a with
  | none => simp
  | some n =>
    simp only [Option.map_some, ne_eq, Option.some.injEq, exists_eq_left']
    exact (not_congr eq_comm).trans n.comments_enriched_ne_iff

/-- Documented nodes stay documented. -/
theorem addressesOf_documented_subset (m : Model) :
    m.addressesOf (·.documented = true) ⊆ m.enrich.addressesOf (·.documented = true) := by
  rw [addressesOf_enrich]
  rintro a ⟨n, hn, hd⟩
  exact ⟨n, hn, n.documented_enriched.mpr (.inl hd)⟩

theorem finite_addressesOf (m : Model) (p : Documented → Bool) :
    (m.addressesOf (p · = true)).Finite := by
  rw [addressesOf_eq]
  exact Finset.finite_toSet _

theorem documented_enrich_eq_ncard (m : Model) :
    m.enrich.documented = (m.addressesOf fun n =>
      n.documented = true ∨ ∃ k, n.origin.bind (·.deprecated) = some k).ncard := by
  rw [documented_eq_ncard, addressesOf_enrich]
  simp only [Documented.documented_enriched]

theorem documented_le_enrich (m : Model) : m.documented ≤ m.enrich.documented := by
  rw [documented_eq_ncard, documented_eq_ncard]
  exact Set.ncard_le_ncard m.addressesOf_documented_subset (m.enrich.finite_addressesOf _)

/-- As many nodes are documented newly as are changed. -/
theorem documented_enrich_sub (m : Model) :
    m.enrich.documented - m.documented = (m.changed m.enrich).ncard := by
  rw [changed_enrich, Set.ncard_sdiff m.addressesOf_documented_subset (m.finite_addressesOf _),
    ← documented_eq_ncard, ← documented_eq_ncard]

/-- Nothing is documented newly if and only if enrichment changes nothing. -/
theorem documented_enrich_sub_eq_zero_iff (m : Model) :
    m.enrich.documented - m.documented = 0 ↔ m.enrich = m := by
  constructor
  · intro h
    rw [documented_enrich_sub, Set.ncard_eq_zero ?finite] at h
    case finite =>
      rw [changed_enrich]
      exact (m.enrich.finite_addressesOf _).sdiff
    refine ext_node m.bare_enrich fun a => ?_
    by_contra hne
    exact Set.eq_empty_iff_forall_notMem.mp h a (Ne.symm hne)
  · intro h
    rw [h, Nat.sub_self]

end Model

end ApiSurface
