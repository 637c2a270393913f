/-
The trees that documents are written from.
-/
import ApiSurface.Number

namespace ApiSurface

/-- A value as a document shows it. -/
inductive Tree where
  | null
  | bool (value : Bool)
  | number (value : Number)
  | text (value : String)
  | list (items : List Tree)
  /-- Named members in the order in which they are written. -/
  | record (members : List (String × Tree))
  /-- A value under the name of its alternative. -/
  | tagged (tag : String) (value : Tree)

end ApiSurface
