/-
Walking through YAML text.

A `Cursor` is the text that is left, together with the `Mark` of the point where it starts. A line
ends at any of five characters; a carriage return and a line feed are one line end.
-/

namespace ApiSurface.Yaml

/-- A point of a text: bytes before it, lines before it, characters before it on its line. -/
structure Mark where
  index : Nat := 0
  line : Nat := 0
  column : Nat := 0
  deriving DecidableEq

namespace Mark

/-- The start of a text, which messages do not mention. -/
def isStart (m : Mark) : Bool := m.line == 0 && m.column == 0

/-- The words for a point. -/
def describe (m : Mark) : String :=
  "line " ++ toString (m.line + 1) ++ " column " ++ toString (m.column + 1)

/-- The point after a character. -/
def past (m : Mark) (c : Char) : Mark :=
  { m with index := m.index + c.utf8Size, column := m.column + 1 }

/-- The point after a line end of some bytes. -/
def pastBreak (m : Mark) (bytes : Nat) : Mark := ⟨m.index + bytes, m.line + 1, 0⟩

end Mark

/-- A space or a tab. -/
def isBlank (c : Char) : Bool := c == ' ' || c == '\t'

/-- The two separators that keep their identity as line ends. -/
def isSeparator (c : Char) : Bool := c == '\u2028' || c == '\u2029'

/-- A character that ends a line. -/
def isBreak (c : Char) : Bool := c == '\n' || c == '\r' || c == '\u0085' || isSeparator c

/-- A blank or a line end. -/
def isGap (c : Char) : Bool := isBlank c || isBreak c

/-- A blank, a line end, or the end of the text. -/
def isGapOrEnd (c : Option Char) : Bool := c.all isGap

/-- A letter, a digit, a hyphen or an underscore. -/
def isWordChar (c : Char) : Bool := c.isAlphanum || c == '-' || c == '_'

/-- The text that is left and the point where it starts. -/
structure Cursor where
  rest : List Char
  mark : Mark := {}

namespace Cursor

/-- Steps over the next character. -/
def advance (c : Cursor) : Cursor :=
  match c.rest with
  | [] => c
  | x :: xs => ⟨xs, c.mark.past x⟩

/-- Steps over some characters that are no line ends. -/
def advanceBy (c : Cursor) (n : Nat) : Cursor :=
  ⟨c.rest.drop n, (c.rest.take n).foldl Mark.past c.mark⟩

/-- Reads a line end, if there is one; the ordinary ones all read as a line feed. -/
def lineBreak (c : Cursor) : List Char × Cursor :=
  match c.rest with
  | [] => ([], c)
  | x :: xs =>
    if x = '\r' ∧ xs.head? = some '\n' then (['\n'], ⟨xs.tail, c.mark.pastBreak 2⟩)
    else if isSeparator x then ([x], ⟨xs, c.mark.pastBreak x.utf8Size⟩)
    else if isBreak x then (['\n'], ⟨xs, c.mark.pastBreak x.utf8Size⟩)
    else ([], c)

/-- Whether three characters stand next at the start of a line, on their own. -/
def startsMarker (c : Cursor) (x : Char) : Bool :=
  c.mark.column == 0 && c.rest.take 3 == [x, x, x] && isGapOrEnd (c.rest.drop 3).head?

/-- Whether a document starts or ends here. -/
def atDocumentMarker (c : Cursor) : Bool := c.startsMarker '-' || c.startsMarker '.'

end Cursor

end ApiSurface.Yaml
