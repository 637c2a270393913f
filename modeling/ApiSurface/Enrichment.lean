/-
Enrichment: documenting every node whose source construct is deprecated.

A node whose origin carries a marker gains the marker's notice as its last documentation line,
unless one of its lines opens with the deprecation tag already. Children are enriched before the
node that holds them. Each enrichment gives a node together with the events it caused, in order;
`Model.enrich` is the node part of `Model.traceEnrich`.

`Model.documented` counts the nodes that have a notice.
-/
import ApiSurface.Model

namespace ApiSurface

/-- What enrichment reports about one node. -/
inductive EnrichmentEvent where
  /-- A notice was added to a node with this origin. -/
  | noticeAdded (origin : String) (notice : String)
  /-- The origin is deprecated, but the node says so already. -/
  | alreadyDocumented (origin : String)
  deriving DecidableEq

/-- A result together with the events that led to it, oldest first. -/
structure Traced (α : Type) where
  value : α
  events : List EnrichmentEvent := []

namespace Traced

/-- The same events with another result. -/
def map {α β : Type} (f : α → β) (t : Traced α) : Traced β := ⟨f t.value, t.events⟩

/-- Two results in order. -/
def and {α β : Type} (t : Traced α) (u : Traced β) : Traced (α × β) :=
  ⟨(t.value, u.value), t.events ++ u.events⟩

/-- A function at each member of a list, in order. -/
def each {α : Type} (f : α → Traced α) (xs : List α) : Traced (List α) :=
  ⟨xs.map fun x => (f x).value, xs.flatMap fun x => (f x).events⟩

end Traced

/-- The documentation lines of a node with this origin, with a notice added when one is due. -/
def traceNotice (comments : List String) (origin : Option SourceElement) : Traced (List String) :=
  match origin with
  | none => ⟨comments, []⟩
  | some e =>
    match e.deprecated with
    | none => ⟨comments, []⟩
    | some m =>
      if isDocumented comments then ⟨comments, [.alreadyDocumented e.name]⟩
      else ⟨comments ++ [m.notice], [.noticeAdded e.name m.notice]⟩

/-- The documentation lines alone. -/
def addNotice (comments : List String) (origin : Option SourceElement) : List String :=
  (traceNotice comments origin).value

namespace Property

/-- A property is enriched from its method or field. -/
def traceEnrich (p : Property) : Traced Property :=
  (traceNotice p.comments p.origin.element?).map p.withComments

/-- The enriched property. -/
def enrich (p : Property) : Property := p.traceEnrich.value

end Property

namespace Bean

/-- The properties are enriched first, then the data class. -/
def traceEnrich (b : Bean) : Traced Bean :=
  ((Traced.each Property.traceEnrich b.properties).and (traceNotice b.comments b.origin)).map
    fun (properties, comments) => { b with properties, comments }

/-- The enriched data class. -/
def enrich (b : Bean) : Bean := b.traceEnrich.value

/-- The number of documented nodes, the data class and its properties. -/
def documented (b : Bean) : Nat :=
  (isDocumented b.comments).toNat + b.properties.countP fun p => isDocumented p.comments

end Bean

namespace EnumMember

/-- A member is enriched from its own origin. -/
def traceEnrich (m : EnumMember) : Traced EnumMember :=
  (traceNotice m.comments m.origin).map m.withComments

/-- The enriched member. -/
def enrich (m : EnumMember) : EnumMember := m.traceEnrich.value

end EnumMember

namespace Enumeration

/-- The members are enriched first, then the enumeration. -/
def traceEnrich (e : Enumeration) : Traced Enumeration :=
  ((Traced.each EnumMember.traceEnrich e.members).and (traceNotice e.comments e.origin)).map
    fun (members, comments) => { e with members, comments }

/-- The enriched enumeration. -/
def enrich (e : Enumeration) : Enumeration := e.traceEnrich.value

/-- The number of documented nodes, the enumeration and its members. -/
def documented (e : Enumeration) : Nat :=
  (isDocumented e.comments).toNat + e.members.countP fun m => isDocumented m.comments

end Enumeration

namespace Endpoint

/-- An endpoint is enriched from its own origin. -/
def traceEnrich (e : Endpoint) : Traced Endpoint :=
  (traceNotice e.comments e.origin).map e.withComments

/-- The enriched endpoint. -/
def enrich (e : Endpoint) : Endpoint := e.traceEnrich.value

end Endpoint

namespace Application

/-- The endpoints are enriched; an application has no documentation of its own. -/
def traceEnrich (a : Application) : Traced Application :=
  (Traced.each Endpoint.traceEnrich a.endpoints).map fun endpoints => { a with endpoints }

/-- The enriched application. -/
def enrich (a : Application) : Application := a.traceEnrich.value

/-- The number of documented endpoints. -/
def documented (a : Application) : Nat := a.endpoints.countP fun e => isDocumented e.comments

end Application

namespace Model

/-- Data classes, enumerations and applications are enriched in this order. -/
def traceEnrich (m : Model) : Traced Model :=
  ((Traced.each Bean.traceEnrich m.beans).and
    ((Traced.each Enumeration.traceEnrich m.enums).and
      (Traced.each Application.traceEnrich m.applications))).map
    fun (beans, enums, applications) => { beans, enums, applications }

/-- The enriched model. -/
def enrich (m : Model) : Model := m.traceEnrich.value

/-- The number of documented nodes. -/
def documented (m : Model) : Nat :=
  m.beans.foldr (·.documented + ·) 0 + m.enums.foldr (·.documented + ·) 0
    + m.applications.foldr (·.documented + ·) 0

end Model

end ApiSurface
