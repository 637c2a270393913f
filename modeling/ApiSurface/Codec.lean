/-
Reading and writing documents in either language.
-/
import ApiSurface.Error
import ApiSurface.Json.Write
import ApiSurface.Wire.Schema
import ApiSurface.Yaml.Write

namespace ApiSurface

/-- What came of reading a document, and how many marker details were ignored because of their
form. -/
structure Parsed (α : Type) where
  result : Except Error α
  ignored : Nat

namespace Shape

/-- Reads a document as a value of the shape. -/
def parse {α : Type} (s : Shape α) (f : Format) (text : String) : Parsed α :=
  match f with
  | .json => let d := Json.decode s text; ⟨d.result.mapError .json, d.ignored⟩
  | .yaml => let d := Yaml.decode s text; ⟨d.result.mapError .yaml, d.ignored⟩

/-- Writes a value of the shape, a JSON document on one line. -/
def render {α : Type} (s : Shape α) (f : Format) (a : α) : String :=
  match f with
  | .json => Json.compact (s.encode a)
  | .yaml => Yaml.document (s.encode a)

end Shape

namespace Model

/-- Reads a model document. -/
def parse (f : Format) (text : String) : Except Error Model := (Model.shape.parse f text).result

/-- Writes a model document, a JSON document over several lines. -/
def render (f : Format) (m : Model) : String :=
  match f with
  | .json => Json.pretty (Model.shape.encode m)
  | .yaml => Yaml.document (Model.shape.encode m)

/-- Reads a model file; its path tells the language unless one is given. -/
def load (t : FileTree) (path : String) (f : Option Format) : Except Error Model := do
  let format ← match f with
    | some format => .ok format
    | none => Format.ofPath path
  parse format (← (t.readText path).mapError .io)

end Model

end ApiSurface
