/-
Values read from a document before it is known what they stand for.

Some parts of a document may take several forms. They are read as `Content` first and then
interpreted as a whole, so a form that does not fit is found out late and has no position
of its own.
-/
import ApiSurface.Number

namespace ApiSurface

/-- A value of a document; the keys of a map may be any value. -/
inductive Content where
  | null
  | bool (value : Bool)
  | number (value : Number)
  /-- An infinite number, or no number at all. -/
  | nonfinite
  | text (value : String)
  | list (items : List Content)
  | map (entries : List (Content × Content))

end ApiSurface
