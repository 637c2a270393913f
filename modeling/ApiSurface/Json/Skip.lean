/-
Stepping over JSON values that nobody asked for.

Such a value is checked less closely: numbers have no range and surrogates need no partner. There
is no limit on its nesting.
-/
import ApiSurface.Json.Text

namespace ApiSurface.Json.Reader

/-- Steps over the exponent of a number; its letter is next. -/
def skipExponent : Reader Unit := do
  skip
  let sign ← peek?
  if sign = some '+' ∨ sign = some '-' then skip
  if (← takeWhile Char.isDigit).isEmpty then failAhead .invalidNumber

/-- Steps over an exponent if there is one. -/
def skipOptionalExponent : Reader Unit := do
  let c ← peek?
  if c = some 'e' ∨ c = some 'E' then skipExponent

/-- Steps over the fraction and the exponent of a number. -/
def skipAfterInteger : Reader Unit := do
  let c ← peek?
  if c = some '.' then
    skip
    if (← takeWhile Char.isDigit).isEmpty then failAhead .invalidNumber
    skipOptionalExponent
  else skipOptionalExponent

/-- Steps over a number after its sign. -/
def skipNumber : Reader Unit := do
  match ← peek? with
  | none => failHere .invalidNumber
  | some c =>
    if c = '0' then
      skip
      match ← peek? with
      | some d => if d.isDigit then failAhead .invalidNumber else skipAfterInteger
      | none => skipAfterInteger
    else if c.isDigit then
      let _ ← takeWhile Char.isDigit
      skipAfterInteger
    else failAhead .invalidNumber

/-- Reads the key of a member that nobody asked for, and its colon. -/
def skipKey : Reader Unit := do
  match ← peekToken? with
  | none => failAhead .endInObject
  | some c =>
    if c = '"' then
      skipString
      colon
    else failAhead .keyNotString

/-- A bracket that is still open. -/
inductive Bracket where
  | list
  | object

/-- What a value that was met leaves to do: nothing, or the inside of a bracket. -/
def skipStart : Reader (Option Bracket) := do
  match ← peekToken? with
  | none => failAhead .endInValue
  | some c =>
    if c = 'n' then
      skip
      word ['u', 'l', 'l']
      return none
    else if c = 't' then
      skip
      word ['r', 'u', 'e']
      return none
    else if c = 'f' then
      skip
      word ['a', 'l', 's', 'e']
      return none
    else if c = '-' then
      skip
      skipNumber
      return none
    else if c.isDigit then
      skipNumber
      return none
    else if c = '"' then
      skipString
      return none
    else if c = '[' then
      skip
      match ← peekToken? with
      | none => failAhead .endInList
      | some d =>
        if d = ']' then
          skip
          return none
        else return some .list
    else if c = '{' then
      skip
      match ← peekToken? with
      | none => failAhead .endInObject
      | some d =>
        if d = '}' then
          skip
          return none
        else
          skipKey
          return some .object
    else failAhead .expectedValue

/-- Steps over the brackets that close after a value, innermost first, and over the comma that
follows; gives the brackets that stay open. -/
def skipEnds : List Bracket → Reader (List Bracket)
  | [] => pure []
  | .list :: outer => do
    match ← peekToken? with
    | none => failAhead .endInList
    | some c =>
      if c = ',' then
        skip
        return .list :: outer
      else if c = ']' then
        skip
        skipEnds outer
      else failAhead .expectedListCommaOrEnd
  | .object :: outer => do
    match ← peekToken? with
    | none => failAhead .endInObject
    | some c =>
      if c = ',' then
        skip
        skipKey
        return .object :: outer
      else if c = '}' then
        skip
        skipEnds outer
      else failAhead .expectedObjectCommaOrEnd

/-- Steps over the next value and what follows it in the brackets that are open; `fuel` is the text
that was left at the start. -/
def skipInside : List Char → List Bracket → Reader Unit
  | [], _ => failAhead .endInValue
  | _ :: fuel, brackets => do
    match ← skipStart with
    | some b => skipInside fuel (b :: brackets)
    | none =>
      match ← skipEnds brackets with
      | [] => return ()
      | brackets => skipInside fuel brackets

/-- Steps over the colon and the value of a member that nobody asked for. -/
def skipMember : Reader Unit := do
  colon
  skipInside (← rest) []

end ApiSurface.Json.Reader
