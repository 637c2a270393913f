/-
The source constructs that the nodes of a model come from.
-/
import ApiSurface.Marker

namespace ApiSurface

/-- A type, method or field of the source, with the deprecation marker it carries. -/
structure SourceElement where
  name : String
  deprecated : Option Marker := none
  deriving DecidableEq

namespace SourceElement

/-- The element with a marker in place of its own. -/
def withMarker (e : SourceElement) (m : Marker) : SourceElement := { e with deprecated := some m }

end SourceElement

/-- The member of a source type that a property stands for. -/
inductive MemberOrigin where
  | method (element : SourceElement)
  | field (element : SourceElement)
  /-- The property has no counterpart in the source. -/
  | none
  deriving DecidableEq

namespace MemberOrigin

/-- The source element of a method or field. -/
def element? : MemberOrigin → Option SourceElement
  | .method e => some e
  | .field e => some e
  | .none => Option.none

/-- Whether the property has no counterpart in the source. -/
def isNone : MemberOrigin → Bool
  | .none => true
  | _ => false

end MemberOrigin

end ApiSurface
