/-
The document languages, their names, and the extensions of their files.

The case of ASCII letters makes no difference to either: a name is brought into lower case, and an
extension is compared letter by letter.
-/
import ApiSurface.FilePath

namespace ApiSurface

/-- A document language. -/
inductive Format where
  | json
  | yaml
  deriving DecidableEq

/-- Whether two texts are equal but for the case of their ASCII letters. -/
def Text.equalIgnoringCase : List Char → List Char → Bool
  | [], [] => true
  | c :: cs, d :: ds => c.toLower == d.toLower && equalIgnoringCase cs ds
  | _, _ => false

namespace Format

/-- The name of a language. -/
def name : Format → String
  | .json => "json"
  | .yaml => "yaml"

/-- The language with a name, whatever the case of its letters. -/
def ofName? (name : String) : Option Format :=
  let lower := name.toLower
  if lower = "json" then some .json
  else if lower = "yaml" ∨ lower = "yml" then some .yaml
  else none

/-- The language whose files have an extension, whatever the case of its letters. -/
def ofExtension? (extension : String) : Option Format :=
  let isLike (word : String) := Text.equalIgnoringCase extension.toList word.toList
  if isLike "json" then some .json
  else if isLike "yaml" || isLike "yml" then some .yaml
  else none

/-- The language of a file, by the extension of its path. -/
def ofPath? (path : String) : Option Format := (FilePath.ofText path).extension?.bind ofExtension?

end Format

end ApiSurface
