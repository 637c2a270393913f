/-
Deprecation markers and the one documentation line that each of them stands for.
-/

namespace ApiSurface

/-- The tag that opens a deprecation notice. -/
def deprecatedTag : String := "@deprecated"

/-- What a source construct says about its deprecation; every detail may be missing. -/
structure Marker where
  /-- The version that deprecated the construct. -/
  since : Option String := none
  /-- Whether the construct is to be removed. -/
  forRemoval : Option Bool := none
  deriving DecidableEq

namespace Marker

/-- The version, unless it is missing or empty. -/
def version? (m : Marker) : Option String := m.since.filter (· ≠ "")

/-- Whether removal is planned; a missing flag means no. -/
def removal (m : Marker) : Bool := m.forRemoval.getD false

/-- The details of the notice, in the order in which it names them. -/
def details (m : Marker) : List String :=
  (m.version?.map ("since: " ++ ·)).toList ++ if m.removal then ["forRemoval: true"] else []

/-- The documentation line: the tag alone, or the tag and its details. -/
def notice (m : Marker) : String :=
  match m.details with
  | [] => deprecatedTag
  | ds => deprecatedTag ++ " " ++ String.intercalate "; " ds

end Marker

/-- Whether a documentation line opens with the deprecation tag. -/
def isNotice (line : String) : Bool := deprecatedTag.toList.isPrefixOf line.toList

/-- Whether one of the documentation lines opens with the deprecation tag. -/
def isDocumented (comments : List String) : Bool := comments.any isNotice

end ApiSurface
