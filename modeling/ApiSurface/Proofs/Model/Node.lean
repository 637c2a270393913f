/-
The documented nodes of a model, by their addresses.

A node (`Documented`) is what a data class, a property, an enumeration, a member and an endpoint have
in common: documentation lines and the source element they stand for. `Model.node?` finds the node
at an address, and `Model.bare` is all the rest of a model.

* `Model.ext_node` — a model is made up of its bare part and of its nodes' documentation.
-/
import ApiSurface.Edit

namespace ApiSurface

/-- The documentation of a part of a model, and the source element that the part stands for. -/
structure Documented where
  comments : List String
  origin : Option SourceElement

/-- The node at an address; an application has no documentation and is none. -/
def Model.node? (m : Model) : Address → Option Documented
  | .bean i => m.beans[i]?.map fun b => ⟨b.comments, b.origin⟩
  | .property i j => m.beans[i]?.bind fun b =>
      b.properties[j]?.map fun p => ⟨p.comments, p.origin.element?⟩
  | .enumeration i => m.enums[i]?.map fun e => ⟨e.comments, e.origin⟩
  | .member i j => m.enums[i]?.bind fun e => e.members[j]?.map fun x => ⟨x.comments, x.origin⟩
  | .application _ => none
  | .endpoint i j => m.applications[i]?.bind fun a =>
      a.endpoints[j]?.map fun e => ⟨e.comments, e.origin⟩

/-! ### The parts as nodes -/

def Bean.node (b : Bean) : Documented := ⟨b.comments, b.origin⟩

def Property.node (p : Property) : Documented := ⟨p.comments, p.origin.element?⟩

def Enumeration.node (e : Enumeration) : Documented := ⟨e.comments, e.origin⟩

def EnumMember.node (x : EnumMember) : Documented := ⟨x.comments, x.origin⟩

def Endpoint.node (e : Endpoint) : Documented := ⟨e.comments, e.origin⟩

namespace Model

theorem node?_bean (m : Model) (i : Nat) : m.node? (.bean i) = m.beans[i]?.map Bean.node := rfl

theorem node?_property (m : Model) (i j : Nat) :
    m.node? (.property i j) = m.beans[i]?.bind fun b => b.properties[j]?.map Property.node := rfl

theorem node?_enumeration (m : Model) (i : Nat) :
    m.node? (.enumeration i) = m.enums[i]?.map Enumeration.node := rfl

theorem node?_member (m : Model) (i j : Nat) :
    m.node? (.member i j) = m.enums[i]?.bind fun e => e.members[j]?.map EnumMember.node := rfl

theorem node?_endpoint (m : Model) (i j : Nat) :
    m.node? (.endpoint i j) =
      m.applications[i]?.bind fun a => a.endpoints[j]?.map Endpoint.node := rfl

end Model

/-! ### All but the documentation -/

/-- The data class without any documentation. -/
def Bean.bare (b : Bean) : Bean :=
  { b with comments := [], properties := b.properties.map (·.withComments []) }

/-- The enumeration without any documentation. -/
def Enumeration.bare (e : Enumeration) : Enumeration :=
  { e with comments := [], members := e.members.map (·.withComments []) }

/-- The application without any documentation. -/
def Application.bare (a : Application) : Application :=
  { a with endpoints := a.endpoints.map (·.withComments []) }

/-- The model without any documentation. -/
def Model.bare (m : Model) : Model where
  beans := m.beans.map Bean.bare
  enums := m.enums.map Enumeration.bare
  applications := m.applications.map Application.bare

theorem Property.eq_of_bare {p q : Property} (h : p.withComments [] = q.withComments [])
    (hc : p.comments = q.comments) : p = q := by
  calc p = (p.withComments []).withComments p.comments := rfl
    _ = (q.withComments []).withComments q.comments := by rw [h, hc]
    _ = q := rfl

theorem EnumMember.eq_of_bare {p q : EnumMember} (h : p.withComments [] = q.withComments [])
    (hc : p.comments = q.comments) : p = q := by
  calc p = (p.withComments []).withComments p.comments := rfl
    _ = (q.withComments []).withComments q.comments := by rw [h, hc]
    _ = q := rfl

theorem Endpoint.eq_of_bare {p q : Endpoint} (h : p.withComments [] = q.withComments [])
    (hc : p.comments = q.comments) : p = q := by
  calc p = (p.withComments []).withComments p.comments := rfl
    _ = (q.withComments []).withComments q.comments := by rw [h, hc]
    _ = q := rfl

theorem Bean.eq_of_bare {b c : Bean} (h : b.bare = c.bare) (hp : b.properties = c.properties)
    (hc : b.comments = c.comments) : b = c := by
  calc b = { b.bare with properties := b.properties, comments := b.comments } := rfl
    _ = { c.bare with properties := c.properties, comments := c.comments } := by rw [h, hp, hc]
    _ = c := rfl

theorem Enumeration.eq_of_bare {d e : Enumeration} (h : d.bare = e.bare)
    (hm : d.members = e.members) (hc : d.comments = e.comments) : d = e := by
  calc d = { d.bare with members := d.members, comments := d.comments } := rfl
    _ = { e.bare with members := e.members, comments := e.comments } := by rw [h, hm, hc]
    _ = e := rfl

theorem Application.eq_of_bare {a b : Application} (h : a.bare = b.bare)
    (he : a.endpoints = b.endpoints) : a = b := by
  calc a = { a.bare with endpoints := a.endpoints } := rfl
    _ = { b.bare with endpoints := b.endpoints } := by rw [h, he]
    _ = b := rfl

/-! ### Models made up of nodes -/

/-- Lists are equal if they agree in a part of each member, and therefore in the member. -/
theorem eq_of_map_eq {α β : Type} {f : α → β} {xs ys : List α} (h : xs.map f = ys.map f)
    (whole : ∀ (i : Nat) x y, xs[i]? = some x → ys[i]? = some y → f x = f y → x = y) :
    xs = ys := by
  refine List.ext_getElem? fun i => ?_
  have hi : xs[i]?.map f = ys[i]?.map f := by
    rw [← List.getElem?_map, ← List.getElem?_map, h]
  cases hx : xs[i]? with
  | none =>
    rw [hx, Option.map_none, eq_comm, Option.map_eq_none_iff] at hi
    exact hi.symm
  | some x =>
    rw [hx, Option.map_some, eq_comm, Option.map_eq_some_iff] at hi
    obtain ⟨y, hy, hf⟩ := hi
    rw [hy, whole i x y hx hy hf.symm]

namespace Model

/-- A model is made up of its nodes' documentation and of all the rest. -/
theorem ext_node {m n : Model} (hb : m.bare = n.bare)
    (hn : ∀ a, (m.node? a).map (·.comments) = (n.node? a).map (·.comments)) : m = n := by
  obtain ⟨beans, enums, applications⟩ := m
  obtain ⟨beans', enums', applications'⟩ := n
  simp only [bare, Model.mk.injEq] at hb
  obtain ⟨hbeans, henums, happlications⟩ := hb
  congr 1
  · -- beans agree up to their comments and properties, and both are among the nodes
    refine eq_of_map_eq hbeans fun i b c hb hc h => ?_
    have hcomments := hn (.bean i)
    simp only [node?, hb, hc, Option.map_some, Option.some.injEq] at hcomments
    refine Bean.eq_of_bare h ?_ hcomments
    refine eq_of_map_eq (congrArg Bean.properties h) fun j p q hp hq h => ?_
    have hcomments := hn (.property i j)
    simp only [node?, hb, hc, hp, hq, Option.bind_some, Option.map_some,
      Option.some.injEq] at hcomments
    exact Property.eq_of_bare h hcomments
  · refine eq_of_map_eq henums fun i d e hd he h => ?_
    have hcomments := hn (.enumeration i)
    simp only [node?, hd, he, Option.map_some, Option.some.injEq] at hcomments
    refine Enumeration.eq_of_bare h ?_ hcomments
    refine eq_of_map_eq (congrArg Enumeration.members h) fun j x y hx hy h => ?_
    have hcomments := hn (.member i j)
    simp only [node?, hd, he, hx, hy, Option.bind_some, Option.map_some,
      Option.some.injEq] at hcomments
    exact EnumMember.eq_of_bare h hcomments
  · refine eq_of_map_eq happlications fun i a b ha hb h => ?_
    refine Application.eq_of_bare h ?_
    refine eq_of_map_eq (congrArg Application.endpoints h) fun j x y hx hy h => ?_
    have hcomments := hn (.endpoint i j)
    simp only [node?, ha, hb, hx, hy, Option.bind_some, Option.map_some,
      Option.some.injEq] at hcomments
    exact Endpoint.eq_of_bare h hcomments

end Model

end ApiSurface
