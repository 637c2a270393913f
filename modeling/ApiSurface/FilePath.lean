/-
File paths as text: the steps from directory to directory that a path describes.
-/

namespace ApiSurface

/-- The parts of a text between separators; there is always at least one. -/
def segments (separator : Char) : List Char → List (List Char)
  | [] => [[]]
  | c :: cs =>
    match segments separator cs with
    | [] => [[c]]
    | s :: rest => if c = separator then [] :: s :: rest else (c :: s) :: rest

/-- One step of a path. -/
inductive PathStep where
  /-- To the directory itself. -/
  | here
  /-- To the directory around it. -/
  | up
  | name (name : String)
  deriving DecidableEq

/-- A path, without the slashes between its steps. -/
structure FilePath where
  absolute : Bool := false
  steps : List PathStep := []
  /-- Whether the path ends with a slash, so that it can only be a directory. -/
  slash : Bool := false
  deriving DecidableEq

namespace FilePath

/-- The step that a part of a path describes; an empty part is none. -/
def stepOf (part : List Char) : Option PathStep :=
  if part = [] then none
  else if part = ['.'] then some .here
  else if part = ['.', '.'] then some .up
  else some (.name (String.ofList part))

/-- The path that a text describes. -/
def ofText (text : String) : FilePath :=
  let cs := text.toList
  { absolute := cs.head? == some '/'
    steps := (segments '/' cs).filterMap stepOf
    slash := cs.getLast? == some '/' }

/-- A step as text. -/
def stepText : PathStep → String
  | .here => "."
  | .up => ".."
  | .name n => n

/-- The path as text. -/
def text (p : FilePath) : String :=
  (if p.absolute then "/" else "") ++ String.intercalate "/" (p.steps.map stepText)
    ++ if p.slash then "/" else ""

/-- Whether the path is the empty text. -/
def isEmpty (p : FilePath) : Bool := !p.absolute && p.steps.isEmpty

/-- The steps that count: only at the start of a relative path does one to the directory itself. -/
def components (p : FilePath) : List PathStep :=
  match p.absolute, p.steps with
  | false, .here :: rest => .here :: rest.filter (· ≠ .here)
  | _, steps => steps.filter (· ≠ .here)

/-- The path without its last component. -/
def parent? (p : FilePath) : Option FilePath :=
  if p.components.isEmpty then none
  else some { absolute := p.absolute, steps := p.components.dropLast }

/-- The name at the end of the path. -/
def fileName? (p : FilePath) : Option String :=
  match p.components.getLast? with
  | some (.name n) => some n
  | _ => none

/-- The part of a name after its last dot, if something stands before that dot. -/
def extensionOf (name : List Char) : Option (List Char) :=
  match (segments '.' name).reverse with
  | e :: stem :: rest => if rest.isEmpty && stem.isEmpty then none else some e
  | _ => none

/-- The extension of the name at the end of the path. -/
def extension? (p : FilePath) : Option String :=
  p.fileName?.bind fun n => (extensionOf n.toList).map String.ofList

end FilePath

end ApiSurface
