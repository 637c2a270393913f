/-
Literal and folded block scalars in YAML text.
-/
import ApiSurface.Yaml.Token

namespace ApiSurface.Yaml

/-- What becomes of the line ends after the last line of a block scalar. -/
inductive Chomping where
  | strip
  | clip
  | keep
  deriving DecidableEq

namespace Lexer

/-- Reads the chomping indicator of a block scalar, if there is one. -/
def chomping? : Lexer (Option Chomping) := do
  match ← peek? with
  | some '+' =>
    skip
    return some .keep
  | some '-' =>
    skip
    return some .strip
  | _ => return none

/-- Reads the indentation indicator of a block scalar, if there is one. -/
def indentation? (start : Mark) : Lexer (Option Nat) := do
  match ← peek? with
  | some c =>
    if c = '0' then fail .zeroIndent .blockScalar start
    else if c.isDigit then
      skip
      return some (c.toNat - '0'.toNat)
    else return none
  | none => return none

/-- Reads the indicators of a block scalar, in either order. -/
def blockIndicators (start : Mark) : Lexer (Chomping × Option Nat) := do
  match ← chomping? with
  | some chomp => return (chomp, ← indentation? start)
  | none =>
    match ← indentation? start with
    | some n => return ((← chomping?).getD .clip, some n)
    | none => return (.clip, none)

/-- Reads the empty lines before a line of a block scalar, and that line's indentation. An
indentation of zero is not known yet and becomes that of the deepest line read here. -/
def emptyLines (least : Nat) (start : Mark) :
    List Char → Nat → Nat → List Char → Lexer (List Char × Nat)
  | [], indent, deepest, breaks => do
    let deepest := max deepest (← mark).column
    return (breaks, if indent = 0 then max deepest least else indent)
  | _ :: fuel, indent, deepest, breaks => do
    let c ← get
    let spaces := (c.rest.takeWhile (· == ' ')).length
    let _ ← take (if indent = 0 then spaces else min spaces (indent - c.mark.column))
    let column := (← mark).column
    let deepest := max deepest column
    let next ← peek?
    if (indent = 0 ∨ column < indent) ∧ next = some '\t' then
      fail .tabInIndent .blockScalar start
    else if next.any isBreak then
      let b ← lineBreak
      emptyLines least start fuel indent deepest (breaks ++ b)
    else return (breaks, if indent = 0 then max deepest least else indent)

/-- A block scalar in the middle: the parts read, last part first, the line end of the last line
and the empty lines after it. -/
structure BlockState where
  parts : List (List Char) := []
  lead : List Char := []
  trailing : List Char := []
  /-- Whether the last line started with a blank. -/
  blank : Bool := false

/-- What stands between the last line and one that starts with a blank or not. -/
def BlockState.join (s : BlockState) (literal blank : Bool) : List Char :=
  if !literal && s.lead == ['\n'] && !s.blank && !blank then
    if s.trailing.isEmpty then [' '] else s.trailing
  else s.lead ++ s.trailing

/-- Reads the lines of a block scalar. -/
def blockLines (literal : Bool) (indent : Nat) (start : Mark) :
    List Char → BlockState → Lexer BlockState
  | [], s => pure s
  | _ :: fuel, s => do
    let c ← get
    if c.mark.column = indent ∧ !c.rest.isEmpty then
      let blank := c.rest.head?.any isBlank
      let line ← takeWhile (!isBreak ·)
      let lead ← lineBreak
      let (trailing, _) ← emptyLines indent start (← rest) indent 0 []
      blockLines literal indent start fuel
        ⟨line :: s.join literal blank :: s.parts, lead, trailing, blank⟩
    else return s

/-- Reads a block scalar inside a collection of the given indentation. -/
def blockScalar (literal : Bool) (outer : Int) : Lexer (List Char) := do
  let start ← mark
  skip
  let (chomp, increment) ← blockIndicators start
  let _ ← takeWhile isBlank
  skipComment
  if !(← peek?).all isBreak then fail .missingCommentOrBreak .blockScalar start
  let _ ← lineBreak
  let given := match increment with
    | some n => outer.toNat + n
    | none => 0
  let least := max (outer + 1).toNat 1
  let (trailing, indent) ← emptyLines least start (← rest) given 0 []
  let s ← blockLines literal indent start (← rest) { trailing }
  return s.parts.reverse.flatten ++ (if chomp = .strip then [] else s.lead)
    ++ if chomp = .keep then s.trailing else []

end Lexer

end ApiSurface.Yaml
