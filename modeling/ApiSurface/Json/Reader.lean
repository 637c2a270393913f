/-
Readers of JSON text.

A reader works on the text that is left. A failure says why and, if that is known already, where;
the frame that encloses it supplies a missing place (`Reader.located`). Each round of a loop reads
a character at least, so the text that is left at the start of a loop counts out its rounds.
-/
import ApiSurface.Json.Fault

namespace ApiSurface.Json

/-- A failed attempt; a mismatch has no place until an enclosing frame gives it one. -/
structure Failure where
  cause : Cause
  place : Option Place

/-- The text that is left, and how many marker details were ignored so far. -/
structure State where
  rest : List Char
  ignored : Nat := 0

/-- Reads a value from the text that is left. -/
abbrev Reader (α : Type) : Type := EStateM Failure State α

namespace Reader

/-- Fails a number of bytes past the current place. -/
def failAt {α : Type} (past : Nat) (fault : Fault) : Reader α := fun s =>
  .error ⟨.fault fault, some ⟨s.rest, past⟩⟩ s

/-- Fails at the current place. -/
def failHere {α : Type} (fault : Fault) : Reader α := failAt 0 fault

/-- Fails just past the next byte. -/
def failAhead {α : Type} (fault : Fault) : Reader α := failAt 1 fault

/-- Refuses a value. -/
def refuse {α : Type} (m : Mismatch) : Reader α := fun s => .error ⟨.mismatch m, none⟩ s

/-- Lets a refusal through. -/
def accept {α : Type} : Except Mismatch α → Reader α
  | .ok a => pure a
  | .error m => refuse m

/-- Gives a failure without a place the place at which the reader stopped. -/
def located {α : Type} (r : Reader α) : Reader α := fun s =>
  match r s with
  | .ok a s' => .ok a s'
  | .error f s' => .error { f with place := f.place <|> some ⟨s'.rest, 0⟩ } s'

/-- Runs a closing reader after the first one, even if that failed; the first failure counts. -/
def closing {α : Type} (r : Reader α) (close : Reader Unit) : Reader α := fun s =>
  match r s with
  | .ok a s' =>
    match close s' with
    | .ok () s'' => .ok a s''
    | .error f s'' => .error f s''
  | .error f s' =>
    match close s' with
    | .ok () s'' => .error f s''
    | .error _ s'' => .error f s''

/-- The next character. -/
def peek? : Reader (Option Char) := fun s => .ok s.rest.head? s

/-- Steps over the next character. -/
def skip : Reader Unit := fun s => .ok () { s with rest := s.rest.tail }

/-- Reads the longest run of characters of a class. -/
def takeWhile (p : Char → Bool) : Reader (List Char) := fun s =>
  .ok (s.rest.takeWhile p) { s with rest := s.rest.dropWhile p }

/-- The characters that may stand between tokens. -/
def isBlank (c : Char) : Bool := c = ' ' || c = '\n' || c = '\t' || c = '\r'

/-- The next character after blanks. -/
def peekToken? : Reader (Option Char) := fun s =>
  let rest := s.rest.dropWhile isBlank
  .ok rest.head? { s with rest }

/-- Reads the rest of a word. -/
def word : List Char → Reader Unit
  | [] => pure ()
  | c :: cs => do
    match ← peek? with
    | none => failHere .endInValue
    | some d =>
      if d = c then
        skip
        word cs
      else failAhead .expectedWord

/-- Goes one level down, as long as levels are left. -/
def deeper {α : Type} (depth : Nat) (r : Nat → Reader α) : Reader α :=
  if depth ≤ 1 then failAhead .nestedTooDeep else r (depth - 1)

/-- Whether another item follows in a list. -/
def anotherItem (first : Bool) : Reader Bool := do
  match ← peekToken? with
  | none => failAhead .endInList
  | some c =>
    if c = ']' then return false
    else if first then return true
    else if c = ',' then
      skip
      match ← peekToken? with
      | none => failAhead .endInValue
      | some d => if d = ']' then failAhead .trailingComma else return true
    else failAhead .expectedListCommaOrEnd

/-- Whether another member follows in an object; its key is next. -/
def anotherMember (first : Bool) : Reader Bool := do
  match ← peekToken? with
  | none => failAhead .endInObject
  | some c =>
    if c = '}' then return false
    else if first then
      if c = '"' then return true else failAhead .keyNotString
    else if c = ',' then
      skip
      match ← peekToken? with
      | none => failAhead .endInValue
      | some d =>
        if d = '"' then return true
        else if d = '}' then failAhead .trailingComma
        else failAhead .keyNotString
    else failAhead .expectedObjectCommaOrEnd

/-- Reads the colon after a key. -/
def colon : Reader Unit := do
  match ← peekToken? with
  | none => failAhead .endInObject
  | some c => if c = ':' then skip else failAhead .expectedColon

/-- Reads the end of a list. -/
def endList : Reader Unit := do
  match ← peekToken? with
  | none => failAhead .endInList
  | some c =>
    if c = ']' then skip
    else if c = ',' then
      skip
      match ← peekToken? with
      | some d => if d = ']' then failAhead .trailingComma else failAhead .trailingCharacters
      | none => failAhead .trailingCharacters
    else failAhead .trailingCharacters

/-- Reads the end of an object. -/
def endObject : Reader Unit := do
  match ← peekToken? with
  | none => failAhead .endInObject
  | some c =>
    if c = '}' then skip
    else if c = ',' then failAhead .trailingComma
    else failAhead .trailingCharacters

/-- The text that is left. -/
def rest : Reader (List Char) := fun s => .ok s.rest s

/-- Reads the items of a list up to its end; `fuel` is the text that was left at its start. -/
def items {α : Type} (item : Reader α) : List Char → Bool → Reader (List α)
  | [], _ => failAhead .endInList
  | _ :: fuel, first => do
    if ← anotherItem first then
      let a ← item
      return a :: (← items item fuel false)
    else return []

/-- Reads a list in brackets; the first bracket is next. -/
def list {α : Type} (depth : Nat) (item : Nat → Reader α) : Reader (List α) :=
  deeper depth fun depth => do
    skip
    closing (do items (item depth) (← rest) true) endList

end Reader

end ApiSurface.Json
