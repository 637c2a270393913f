/-
The model of an API surface: data classes, enumerations and groups of HTTP endpoints.

Every node keeps its documentation lines in `comments` and a link to the source construct it comes
from in `origin`. Nodes are values; a `with…` function gives the node with one part replaced.
-/
import ApiSurface.Number
import ApiSurface.Source

namespace ApiSurface

/-- A property of a data class. -/
structure Property where
  name : String
  typeName : String
  isOptional : Bool := false
  comments : List String := []
  origin : MemberOrigin := .none
  deriving DecidableEq

/-- A data class with its properties in order. -/
structure Bean where
  name : String
  parent : Option String := none
  interfaces : List String := []
  properties : List Property := []
  comments : List String := []
  origin : Option SourceElement := none
  deriving DecidableEq

/-- What the members of an enumeration stand for. -/
inductive EnumKind where
  | string
  | number
  deriving DecidableEq

/-- The value of an enumeration member. -/
inductive EnumValue where
  | text (value : String)
  | number (value : Number)
  deriving BEq

/-- A member of an enumeration. -/
structure EnumMember where
  name : String
  value : EnumValue
  comments : List String := []
  origin : Option SourceElement := none
  deriving BEq

/-- An enumeration with its members in order. -/
structure Enumeration where
  name : String
  kind : EnumKind := .string
  members : List EnumMember := []
  comments : List String := []
  origin : Option SourceElement := none
  deriving BEq

/-- The framework that endpoints were found in. -/
inductive Framework where
  | jaxRs
  | spring
  deriving DecidableEq

/-- A named parameter of an endpoint. -/
structure Parameter where
  name : String
  typeName : String
  deriving DecidableEq

/-- One HTTP endpoint. -/
structure Endpoint where
  originClass : String
  name : String
  returnType : String
  httpMethod : String
  path : String
  pathParams : List Parameter := []
  queryParams : List Parameter := []
  entityParam : Option Parameter := none
  comments : List String := []
  origin : Option SourceElement := none
  deriving DecidableEq

/-- Endpoints that share a base path. -/
structure Application where
  kind : Framework := .jaxRs
  path : Option String := none
  name : Option String := none
  endpoints : List Endpoint := []
  deriving DecidableEq

/-- A whole API surface. -/
structure Model where
  beans : List Bean := []
  enums : List Enumeration := []
  applications : List Application := []
  deriving BEq

namespace Property

/-- The property with other documentation lines. -/
def withComments (p : Property) (comments : List String) : Property := { p with comments }

/-- The property with another origin. -/
def withOrigin (p : Property) (origin : MemberOrigin) : Property := { p with origin }

end Property

namespace Bean

/-- The data class with other documentation lines. -/
def withComments (b : Bean) (comments : List String) : Bean := { b with comments }

/-- The data class with another origin. -/
def withOrigin (b : Bean) (e : SourceElement) : Bean := { b with origin := some e }

end Bean

namespace EnumMember

/-- The member with other documentation lines. -/
def withComments (m : EnumMember) (comments : List String) : EnumMember := { m with comments }

/-- The member with another origin. -/
def withOrigin (m : EnumMember) (e : SourceElement) : EnumMember := { m with origin := some e }

end EnumMember

namespace Enumeration

/-- The enumeration with other documentation lines. -/
def withComments (m : Enumeration) (comments : List String) : Enumeration := { m with comments }

/-- The enumeration with another origin. -/
def withOrigin (m : Enumeration) (e : SourceElement) : Enumeration :=
  { m with origin := some e }

end Enumeration

namespace Endpoint

/-- The endpoint with other documentation lines. -/
def withComments (e : Endpoint) (comments : List String) : Endpoint := { e with comments }

/-- The endpoint with another origin. -/
def withOrigin (e : Endpoint) (s : SourceElement) : Endpoint := { e with origin := some s }

end Endpoint

end ApiSurface
