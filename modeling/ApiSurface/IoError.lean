/-
Failures of operations on files, and their words.
-/
import ApiSurface.Text.Quoted

namespace ApiSurface

/-- The failures of operations on files that the system reports. -/
inductive SystemError where
  | notFound
  | alreadyExists
  | notADirectory
  | isADirectory
  | nameTooLong
  /-- Any other failure, such as a full device: its number, its name and its words. -/
  | device (code : Nat) (kind text : String)
  deriving DecidableEq

namespace SystemError

/-- The errors with a number of their own. -/
def all : List SystemError :=
  [.notFound, .alreadyExists, .notADirectory, .isADirectory, .nameTooLong]

/-- The number of an error. -/
def code : SystemError → Nat
  | .notFound => 2
  | .alreadyExists => 17
  | .notADirectory => 20
  | .isADirectory => 21
  | .nameTooLong => 36
  | .device code _ _ => code

/-- The name of an error. -/
def kind : SystemError → String
  | .notFound => "NotFound"
  | .alreadyExists => "AlreadyExists"
  | .notADirectory => "NotADirectory"
  | .isADirectory => "IsADirectory"
  | .nameTooLong => "InvalidFilename"
  | .device _ kind _ => kind

/-- The words for an error. -/
def text : SystemError → String
  | .notFound => "No such file or directory"
  | .alreadyExists => "File exists"
  | .notADirectory => "Not a directory"
  | .isADirectory => "Is a directory"
  | .nameTooLong => "File name too long"
  | .device _ _ text => text

end SystemError

/-- A failed operation on files. -/
inductive IoError where
  | system (error : SystemError)
  /-- A file that is no text. -/
  | notText
  /-- A path that holds the character zero. -/
  | zeroInPath
  /-- Not even the root of a path could be made. -/
  | noRoot
  | other (text : String)

namespace IoError

/-- The message of a failure. -/
def message : IoError → String
  | .system e => e.text ++ " (os error " ++ toString e.code ++ ")"
  | .notText => "stream did not contain valid UTF-8"
  | .zeroInPath => "file name contained an unexpected NUL byte"
  | .noRoot => "failed to create whole tree"
  | .other s => s

/-- The kind and the text of a failure that is not the system's. -/
def debugParts (label kind text : String) : String :=
  label ++ " \x7b kind: " ++ kind ++ ", " ++ text ++ " \x7d"

/-- The parts of a failure, spelled out. -/
def debug (e : IoError) : String :=
  let simple (kind : String) := debugParts "Error" kind ("message: " ++ Text.quoted e.message)
  match e with
  | .system s =>
    "Os \x7b code: " ++ toString s.code ++ ", kind: " ++ s.kind ++ ", message: "
      ++ Text.quoted s.text ++ " \x7d"
  | .notText => simple "InvalidData"
  | .zeroInPath => simple "InvalidInput"
  | .noRoot => simple "Uncategorized"
  | .other s => debugParts "Custom" "Other" ("error: " ++ Text.quoted s)

end IoError

end ApiSurface
