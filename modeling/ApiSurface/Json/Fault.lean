/-
What can be wrong with a JSON text, and where.

A `Place` is kept as the text that is left there, with a few bytes to step over; the line and
the column are worked out from the whole text only when a message is needed.
-/
import ApiSurface.Wire.Mismatch

namespace ApiSurface.Json

/-- The ways in which a text fails to be JSON. -/
inductive Fault where
  | endInValue
  | endInList
  | endInObject
  | endInString
  | expectedColon
  | expectedListCommaOrEnd
  | expectedObjectCommaOrEnd
  | expectedWord
  | expectedValue
  | invalidEscape
  | invalidNumber
  | numberOutOfRange
  | controlCharacter
  | keyNotString
  | loneSurrogate
  | trailingComma
  | trailingCharacters
  | brokenSurrogatePair
  | nestedTooDeep
  deriving DecidableEq

/-- The message for a fault. -/
def Fault.message : Fault → String
  | .endInValue => "EOF while parsing a value"
  | .endInList => "EOF while parsing a list"
  | .endInObject => "EOF while parsing an object"
  | .endInString => "EOF while parsing a string"
  | .expectedColon => "expected `:`"
  | .expectedListCommaOrEnd => "expected `,` or `]`"
  | .expectedObjectCommaOrEnd => "expected `,` or `\x7d`"
  | .expectedWord => "expected ident"
  | .expectedValue => "expected value"
  | .invalidEscape => "invalid escape"
  | .invalidNumber => "invalid number"
  | .numberOutOfRange => "number out of range"
  | .controlCharacter => "control character (\\u0000-\\u001F) found while parsing a string"
  | .keyNotString => "key must be a string"
  | .loneSurrogate => "lone leading surrogate in hex escape"
  | .trailingComma => "trailing comma"
  | .trailingCharacters => "trailing characters"
  | .brokenSurrogatePair => "unexpected end of hex escape"
  | .nestedTooDeep => "recursion limit exceeded"

/-- Why a document was refused: the text is not JSON, or a value does not fit. -/
inductive Cause where
  | fault (fault : Fault)
  | mismatch (mismatch : Mismatch)

/-- An absent value is `null`, and doubles are written as in a document. -/
def wording : Wording := ⟨"null", Notation.json⟩

/-- The message for a cause. -/
def Cause.message : Cause → String
  | .fault f => f.message
  | .mismatch m => m.message wording

/-- A point of a text: the rest of the text there and the bytes to step over. -/
structure Place where
  rest : List Char
  past : Nat

/-- The number of bytes of a text. -/
def byteLength (cs : List Char) : Nat := cs.foldr (·.utf8Size + ·) 0

/-- The position after a number of bytes: the line, and the bytes since its start. -/
def positionAfter (line column : Nat) : List Char → Nat → Nat × Nat
  | [], _ => (line, column)
  | c :: cs, n =>
    if n = 0 then (line, column)
    else if c = '\n' then positionAfter (line + 1) 0 cs (n - 1)
    else positionAfter line (column + min n c.utf8Size) cs (n - c.utf8Size)

/-- The line and the column of a place in a text; no place is past the end. -/
def Place.position (text : List Char) (p : Place) : Nat × Nat :=
  positionAfter 1 0 text (byteLength text - byteLength p.rest + p.past)

/-- Why and where a document was refused. A choice that has no value at the top of a document has
no position. -/
structure Error where
  cause : Cause
  position : Option (Nat × Nat)

namespace Error

/-- The message with the position. -/
def message (e : Error) : String :=
  match e.position with
  | some (line, column) =>
    e.cause.message ++ " at line " ++ toString line ++ " column " ++ toString column
  | none => e.cause.message

/-- The parts of an error, spelled out. -/
def debug (e : Error) : String :=
  let (line, column) := e.position.getD (0, 0)
  "Error(" ++ Text.quoted e.cause.message ++ ", line: " ++ toString line ++ ", column: "
    ++ toString column ++ ")"

end Error

end ApiSurface.Json
