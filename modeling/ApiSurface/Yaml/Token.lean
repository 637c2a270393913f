/-
The tokens of a YAML text, and lexers, which read parts of it.

Each round of a lexer's loop reads a character at least, so the text that is left at the start of a
loop counts out its rounds (`fuel`).
-/
import ApiSurface.Yaml.Fault

namespace ApiSurface.Yaml

/-- How a scalar is written. -/
inductive ScalarStyle where
  | plain
  | singleQuoted
  | doubleQuoted
  | literal
  | folded
  deriving DecidableEq

/-- The kinds of token. -/
inductive TokenKind where
  | streamStart
  | streamEnd
  | versionDirective (major minor : Nat)
  | tagDirective (handle leading : String)
  | documentStart
  | documentEnd
  | blockSequenceStart
  | blockMappingStart
  | blockEnd
  | flowSequenceStart
  | flowSequenceEnd
  | flowMappingStart
  | flowMappingEnd
  | blockEntry
  | flowEntry
  | key
  | value
  | alias (name : String)
  | anchor (name : String)
  | tag (handle suffix : String)
  | scalar (text : String) (style : ScalarStyle)
  deriving DecidableEq

/-- A token with the points where it starts and stops. -/
structure Token where
  kind : TokenKind
  start : Mark
  stop : Mark

/-- Reads a part of a text at a cursor. -/
abbrev Lexer (α : Type) : Type := StateT Cursor (Except Fault) α

namespace Lexer

/-- The current point. -/
def mark : Lexer Mark := fun c => .ok (c.mark, c)

/-- The next character. -/
def peek? : Lexer (Option Char) := fun c => .ok (c.rest.head?, c)

/-- The text that is left. -/
def rest : Lexer (List Char) := fun c => .ok (c.rest, c)

/-- Steps over the next character. -/
def skip : Lexer Unit := fun c => .ok ((), c.advance)

/-- Reads some characters that are no line ends. -/
def take (n : Nat) : Lexer (List Char) := fun c => .ok (c.rest.take n, c.advanceBy n)

/-- Reads the longest run of characters of a class without line ends. -/
def takeWhile (p : Char → Bool) : Lexer (List Char) := fun c =>
  let run := c.rest.takeWhile p
  .ok (run, ⟨c.rest.dropWhile p, run.foldl Mark.past c.mark⟩)

/-- Reads a line end, if there is one. -/
def lineBreak : Lexer (List Char) := fun c => .ok c.lineBreak

/-- Steps over a comment, if there is one. -/
def skipComment : Lexer Unit := do
  if (← peek?) = some '#' then
    let _ ← takeWhile (!isBreak ·)

/-- Fails at the current point. -/
def fail {α : Type} (problem : Problem) (activity : Activity) (start : Mark) : Lexer α := fun c =>
  .error ⟨.tokens, problem, c.mark, some (activity, start)⟩

end Lexer

end ApiSurface.Yaml
