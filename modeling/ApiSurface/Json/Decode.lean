/-
Reading a JSON document as a value of a known shape.

A record is read from an object or from a list of its members in order; unknown members are
stepped over, and a member that occurs twice is an error.
-/
import ApiSurface.Json.Skip
import ApiSurface.Json.Value
import ApiSurface.Wire.Shape

namespace ApiSurface.Json

namespace Reader

/-- Reads the value that is next, so far as a message names it, and refuses it. -/
def refuseNext {α : Type} (expected : String) : Reader α := located do
  let refuseAs (found : Found) : Reader α := refuse (.wrongType found expected)
  match ← peek? with
  | none => failAhead .expectedValue
  | some c =>
    if c = 'n' then
      skip
      word ['u', 'l', 'l']
      refuseAs .nothing
    else if c = 't' then
      skip
      word ['r', 'u', 'e']
      refuseAs (.boolean true)
    else if c = 'f' then
      skip
      word ['a', 'l', 's', 'e']
      refuseAs (.boolean false)
    else if c = '-' then
      skip
      refuseAs (.number (← number true))
    else if c.isDigit then refuseAs (.number (← number false))
    else if c = '"' then refuseAs (.text (← string))
    else if c = '[' then refuseAs .sequence
    else if c = '{' then refuseAs .map
    else failAhead .expectedValue

/-- Looks at the next token of a value. -/
def onToken {α : Type} (r : Char → Reader α) : Reader α := do
  match ← peekToken? with
  | none => failAhead .endInValue
  | some c => r c

/-- Reads a string. -/
def text (expected : String) : Reader String :=
  onToken fun c => if c = '"' then string else refuseNext expected

/-- Reads a flag. -/
def flag : Reader Bool :=
  onToken fun c =>
    if c = 't' then do
      skip
      word ['r', 'u', 'e']
      return true
    else if c = 'f' then do
      skip
      word ['a', 'l', 's', 'e']
      return false
    else refuseNext "a boolean"

/-- Reads the absent value. -/
def null : Reader Unit :=
  onToken fun c =>
    if c = 'n' then do
      skip
      word ['u', 'l', 'l']
    else refuseNext "unit"

/-- Reads an absent value, or a value. -/
def optional {α : Type} (value : Reader α) : Reader (Option α) := do
  if (← peekToken?) = some 'n' then
    skip
    word ['u', 'l', 'l']
    return none
  else return some (← value)

/-- Notes what an interpreted content left out, and lets a refusal through. -/
def interpreted {α : Type} (i : Interpreted α) : Reader α := do
  modify fun s => { s with ignored := s.ignored + i.ignored }
  accept i.result

/-- Reads the key of an alternative. -/
def alternative {α β : Type} (choice : Alternatives α β) (key : Reader String) :
    Reader (Variant α β) := do
  accept (choice.find (← key))

/-- Reads a choice: the name of an alternative, or an object with one member. -/
def tagged {α β : Type} (choice : Alternatives α β) (depth : Nat) (value : Nat → Reader α) :
    Reader β :=
  onToken fun c =>
    if c = '{' then do
      let b ← deeper depth fun depth => do
        skip
        let v ← located (alternative choice (text "variant identifier"))
        colon
        match v with
        | .bare b =>
          null
          return b
        | .carrying make => return make (← value depth)
      match ← peekToken? with
      | none => failHere .endInObject
      | some d =>
        if d = '}' then
          skip
          return b
        else failHere .expectedValue
    else if c = '"' then do
      match ← located (alternative choice string) with
      | .bare b => return b
      | .carrying _ => refuse (.wrongType .bareName "newtype variant")
    else failAhead .expectedValue

/-- Refuses a map that is not a single member. -/
def refuseEntries {α : Type} : Reader α :=
  refuse (.wrongValue .map "map with a single key")

/-- Reads the one member of an object that stands for a choice. -/
def singleMember {α β : Type} (choice : Alternatives α β) (value : Reader α) : Reader β := do
  if ← anotherMember true then
    match ← alternative choice string with
    | .bare _ => refuse (.wrongType .map "unit variant")
    | .carrying make =>
      colon
      let a ← value
      if ← anotherMember false then
        let _ ← string
        refuseEntries
      else return make a
  else refuseEntries

/-- Reads a choice that is written as a record with one member, or as a bare name. -/
def keyed {α β : Type} (choice : Alternatives α β) (depth : Nat) (value : Nat → Reader α) :
    Reader β :=
  onToken fun c =>
    if c = '{' then
      located <| deeper depth fun depth => do
        skip
        closing (singleMember choice (value depth)) endObject
    else if c = '"' then
      located do
        match ← alternative choice string with
        | .bare b => return b
        | .carrying _ => refuse (.wrongType .bareName "newtype variant")
    else if c = '[' then
      located <| deeper depth fun _ => do
        skip
        closing (refuse (.wrongType .sequence choice.label)) endList
    else refuseNext choice.label

/-- Reads the members of a record, from an object or from a list. -/
def record {σ α : Type} (fields : Fields σ α) (label : String) (depth : Nat)
    (member : Nat → σ → String → Reader σ) (inOrder : Nat → Reader α) : Reader α :=
  onToken fun c =>
    if c = '{' then
      located <| deeper depth fun depth => do
        skip
        closing (do
          let slots ← members (member depth) (← rest) true fields.empty
          accept (fields.finish slots)) endObject
    else if c = '[' then
      located <| deeper depth fun depth => do
        skip
        closing (inOrder depth) endList
    else refuseNext label

end Reader

mutual

/-- Reads a value of a shape; `depth` levels of nesting are left. -/
def read : {α : Type} → Shape α → Nat → Reader α
  | _, .text, _ => Reader.text "a string"
  | _, .flag, _ => Reader.flag
  | _, .nothing, _ => Reader.onToken fun _ => Reader.refuseNext "nothing"
  | _, .optional s, depth => Reader.optional (read s depth)
  | _, .list item, depth => Reader.onToken fun c =>
    if c = '[' then Reader.located (Reader.list depth (read item))
    else Reader.refuseNext "a sequence"
  | _, .record label fields, depth =>
    Reader.record fields label depth (readMember fields) fun depth =>
      readInOrder fields (fields.positional label) depth 0
  | _, .tagged choice s, depth => Reader.tagged choice depth (read s)
  | _, .keyed choice s, depth => Reader.keyed choice depth (read s)
  | _, .buffered interpret _, depth => do Reader.interpreted (interpret (← Reader.value depth))
  | _, .view there _ s, depth => do return there (← read s depth)

/-- Reads the value of a member into its slot. -/
def readMember : {σ α : Type} → Fields σ α → Nat → σ → String → Reader σ
  | _, _, .nil, _, (), _ => Reader.skipMember
  | _, _, .cons field s rest, depth, (slot, slots), key =>
    if key = field.name then
      match slot with
      | some _ => Reader.refuse (.duplicateField key)
      | none => do
        Reader.colon
        return (some (← read s depth), slots)
    else do return (slot, ← readMember rest depth slots key)

/-- Reads the members of a record as the items of a list; `count` of them were read. -/
def readInOrder : {σ α : Type} → Fields σ α → String → Nat → Nat → Reader α
  | _, _, .nil, _, _, _ => pure ()
  | _, _, .cons field s rest, label, depth, count => do
    let a ← if ← Reader.anotherItem (count = 0) then read s depth
      else match field.default with
        | some a => pure a
        | none => Reader.refuse (.wrongLength count label)
    return (a, ← readInOrder rest label depth (count + 1))

end

/-- The number of levels to which a document may be nested, its outermost value included. -/
def depthLimit : Nat := 128

/-- Reads a document of one value. -/
def document {α : Type} (r : Reader α) : Reader α := do
  let a ← r
  match ← Reader.peekToken? with
  | none => return a
  | some _ => Reader.failAhead .trailingCharacters

/-- A decoded document, and how many marker details were ignored on the way. -/
structure Decoded (α : Type) where
  result : Except Error α
  ignored : Nat

/-- Runs a reader on a whole text. -/
def run {α : Type} (r : Reader α) (text : String) : Decoded α :=
  match document r ⟨text.toList, 0⟩ with
  | .ok a s => ⟨.ok a, s.ignored⟩
  | .error f s => ⟨.error ⟨f.cause, f.place.map (·.position text.toList)⟩, s.ignored⟩

/-- Decodes a document as a value of a shape. -/
def decode {α : Type} (s : Shape α) (text : String) : Decoded α := run (read s depthLimit) text

/-- Decodes a document as a value of any kind. -/
def decodeContent (text : String) : Decoded Content := run (Reader.value depthLimit) text

end ApiSurface.Json
