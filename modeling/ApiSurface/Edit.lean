/-
Edits: changes to one node of a model, chosen by position.

An address that points at no node leaves the model as it is.
-/
import ApiSurface.Enrichment

namespace ApiSurface

/-- The position of a node; a child is found by its container's position and its own. -/
inductive Address where
  | bean (i : Nat)
  | property (i j : Nat)
  | enumeration (i : Nat)
  | member (i j : Nat)
  | application (i : Nat)
  | endpoint (i j : Nat)
  deriving DecidableEq

/-- A change to a model. An origin is replaced where the node has one. -/
inductive Edit where
  | enrichAll
  | enrich (node : Address)
  | setComments (node : Address) (comments : List String)
  | setOrigin (node : Address) (origin : SourceElement)
  /-- Properties have origins of their own kind. -/
  | setMemberOrigin (bean property : Nat) (origin : MemberOrigin)
  deriving DecidableEq

namespace Model

/-- Changes the data class at a position. -/
def modifyBean (m : Model) (i : Nat) (f : Bean → Bean) : Model :=
  { m with beans := m.beans.modify i f }

/-- Changes the property at a position. -/
def modifyProperty (m : Model) (i j : Nat) (f : Property → Property) : Model :=
  m.modifyBean i fun b => { b with properties := b.properties.modify j f }

/-- Changes the enumeration at a position. -/
def modifyEnum (m : Model) (i : Nat) (f : Enumeration → Enumeration) : Model :=
  { m with enums := m.enums.modify i f }

/-- Changes the enumeration member at a position. -/
def modifyMember (m : Model) (i j : Nat) (f : EnumMember → EnumMember) : Model :=
  m.modifyEnum i fun e => { e with members := e.members.modify j f }

/-- Changes the application at a position. -/
def modifyApplication (m : Model) (i : Nat) (f : Application → Application) : Model :=
  { m with applications := m.applications.modify i f }

/-- Changes the endpoint at a position. -/
def modifyEndpoint (m : Model) (i j : Nat) (f : Endpoint → Endpoint) : Model :=
  m.modifyApplication i fun a => { a with endpoints := a.endpoints.modify j f }

/-- Enriches one node, with its children if it has any. -/
def enrichAt (m : Model) : Address → Model
  | .bean i => m.modifyBean i Bean.enrich
  | .property i j => m.modifyProperty i j Property.enrich
  | .enumeration i => m.modifyEnum i Enumeration.enrich
  | .member i j => m.modifyMember i j EnumMember.enrich
  | .application i => m.modifyApplication i Application.enrich
  | .endpoint i j => m.modifyEndpoint i j Endpoint.enrich

/-- Replaces the documentation of one node; an application has none. -/
def setComments (m : Model) (comments : List String) : Address → Model
  | .bean i => m.modifyBean i (·.withComments comments)
  | .property i j => m.modifyProperty i j (·.withComments comments)
  | .enumeration i => m.modifyEnum i (·.withComments comments)
  | .member i j => m.modifyMember i j (·.withComments comments)
  | .application _ => m
  | .endpoint i j => m.modifyEndpoint i j (·.withComments comments)

/-- Replaces the origin of a node whose origin is a single element. -/
def setOrigin (m : Model) (origin : SourceElement) : Address → Model
  | .bean i => m.modifyBean i (·.withOrigin origin)
  | .property _ _ => m
  | .enumeration i => m.modifyEnum i (·.withOrigin origin)
  | .member i j => m.modifyMember i j (·.withOrigin origin)
  | .application _ => m
  | .endpoint i j => m.modifyEndpoint i j (·.withOrigin origin)

/-- Applies an edit. -/
def edit (m : Model) : Edit → Model
  | .enrichAll => m.enrich
  | .enrich node => m.enrichAt node
  | .setComments node comments => m.setComments comments node
  | .setOrigin node origin => m.setOrigin origin node
  | .setMemberOrigin i j origin => m.modifyProperty i j (·.withOrigin origin)

/-- Applies edits from left to right. -/
def editAll (m : Model) (edits : List Edit) : Model := edits.foldl edit m

end Model

end ApiSurface
