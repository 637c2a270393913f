/-
Why a YAML document is refused, and where.

The place of a value that does not fit is a point of the text and the path to the value.
-/
import ApiSurface.Wire.Mismatch
import ApiSurface.Yaml.Event

namespace ApiSurface.Yaml

/-- The way from the top of a document to a node. -/
inductive Path where
  | top
  | item (parent : Path) (index : Nat)
  | member (parent : Path) (key : String)
  /-- A member whose key is no scalar. -/
  | unnamed (parent : Path)

namespace Path

/-- What stands before the name of a member. -/
def separated : Path → String → String
  | .top, _ => ""
  | _, p => p ++ "."

/-- The words for a path. -/
def describe : Path → String
  | .top => "."
  | .item p i => p.describe ++ "[" ++ toString i ++ "]"
  | .member p key => p.separated p.describe ++ key
  | .unnamed p => p.separated p.describe ++ "?"

end Path

/-- Why a document was refused. -/
inductive Error where
  | defect (defect : Defect)
  | endOfDocument
  | nestedTooDeep (mark : Mark)
  | tooManyAliases
  | severalDocuments
  | mismatch (mismatch : Mismatch) (place : Option (Mark × Path))

/-- An absent value is a unit, and doubles are written out in full. -/
def wording : Wording := ⟨"unit value", Notation.plain⟩

namespace Error

/-- The message without the point. -/
def text : Error → String
  | .defect (.fault f) => f.message
  | .defect (.unknownAnchor _) => "unknown anchor"
  | .endOfDocument => "EOF while parsing a value"
  | .nestedTooDeep _ => "recursion limit exceeded"
  | .tooManyAliases => "repetition limit exceeded"
  | .severalDocuments =>
    "deserializing from YAML containing more than one document is not supported"
  | .mismatch m none => m.message wording
  | .mismatch m (some (_, .top)) => m.message wording
  | .mismatch m (some (_, path)) => path.describe ++ ": " ++ m.message wording

/-- The point, if the message does not hold it already. -/
def mark? : Error → Option Mark
  | .defect (.unknownAnchor m) => some m
  | .nestedTooDeep m => some m
  | .mismatch _ place => place.map (·.1)
  | _ => none

/-- The message with the point. -/
def message (e : Error) : String :=
  match e.mark? with
  | some m => if m.isStart then e.text else e.text ++ " at " ++ m.describe
  | none => e.text

/-- The parts of an error, spelled out. -/
def debug (e : Error) : String :=
  match e with
  | .defect (.fault f) => f.debug
  | _ =>
    "Error(" ++ Text.quoted e.text ++
      (match e.mark? with
        | some m => ", line: " ++ toString (m.line + 1) ++ ", column: " ++ toString (m.column + 1)
        | none => "") ++ ")"

end Error

end ApiSurface.Yaml
