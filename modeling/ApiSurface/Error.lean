/-
What can go wrong between a file and a model.
-/
import ApiSurface.FileTree
import ApiSurface.Format
import ApiSurface.Json.Decode
import ApiSurface.Yaml.Decode

namespace ApiSurface

/-- An error of the library or of its command line. -/
inductive Error where
  | io (error : IoError)
  | json (error : Json.Error)
  | yaml (error : Yaml.Error)
  | unsupportedFormat (name : String)
  | general (text : String)

namespace Error

/-- The name of the kind of an error. -/
def kind : Error → String
  | .io _ => "Io"
  | .json _ => "Json"
  | .yaml _ => "Yaml"
  | .unsupportedFormat _ => "UnsupportedFormat"
  | .general _ => "General"

/-- The message of an error. -/
def message : Error → String
  | .io e => "IO Error: " ++ e.message
  | .json e => "JSON Error: " ++ e.message
  | .yaml e => "YAML Error: " ++ e.message
  | .unsupportedFormat name => "Unsupported model format: " ++ name
  | .general text => "General Error: " ++ text

/-- The parts of an error, spelled out. -/
def debug (e : Error) : String :=
  let inner := match e with
    | .io i => i.debug
    | .json j => j.debug
    | .yaml y => y.debug
    | .unsupportedFormat name => Text.quoted name
    | .general text => Text.quoted text
  e.kind ++ "(" ++ inner ++ ")"

end Error

namespace Format

/-- The language with a name; an unknown name is reported in lower case. -/
def ofName (name : String) : Except Error Format :=
  match ofName? name with
  | some f => .ok f
  | none => .error (.unsupportedFormat name.toLower)

/-- The language of a file; a path that shows none is reported as it is. -/
def ofPath (path : String) : Except Error Format :=
  match ofPath? path with
  | some f => .ok f
  | none => .error (.unsupportedFormat path)

end Format

end ApiSurface
