/-
Readers of YAML documents.

A reader works on the events that are left. A value that does not fit is reported with the point
of the innermost node that was being read and with the path to it. Each round of a loop reads an
event at least, so the events that are left at the start of a loop count out its rounds (`fuel`).
-/
import ApiSurface.Wire.Shape
import ApiSurface.Yaml.Error
import ApiSurface.Yaml.Scalar

namespace ApiSurface.Yaml

/-- The events that are left, the aliases that were followed, and the marker details that were
ignored. -/
structure State where
  rest : List MarkedEvent
  jumps : Nat := 0
  ignored : Nat := 0

/-- Reads a value from the events that are left. -/
abbrev Reader (α : Type) : Type := EStateM Error State α

/-- Where a reader is: the document, and the path to the node. -/
structure Scope where
  document : Document
  path : Path := .top

/-- The number of aliases that may be followed for each event. -/
def jumpsPerEvent : Nat := 100

namespace Reader

/-- Refuses a value. -/
def refuse {α : Type} (m : Mismatch) : Reader α := throw (.mismatch m none)

/-- Lets a refusal through. -/
def accept {α : Type} : Except Mismatch α → Reader α
  | .ok a => pure a
  | .error m => refuse m

/-- Gives a refusal without a place the given one. -/
def located {α : Type} (m : Mark) (path : Path) (r : Reader α) : Reader α := fun s =>
  match r s with
  | .error (.mismatch why none) s' => .error (.mismatch why (some (m, path))) s'
  | other => other

/-- The next event. -/
def peek (sc : Scope) : Reader MarkedEvent := fun s =>
  match s.rest with
  | e :: _ => .ok e s
  | [] => match sc.document.defect with
    | some d => .error (.defect d) s
    | none => .error .endOfDocument s

/-- Steps over the next event. -/
def skip : Reader Unit := fun s => .ok () { s with rest := s.rest.tail }

/-- Reads the next event. -/
def next (sc : Scope) : Reader MarkedEvent := do
  let e ← peek sc
  skip
  return e

/-- Goes one level down, as long as levels are left. -/
def deeper {α : Type} (m : Mark) (depth : Nat) (r : Nat → Reader α) : Reader α :=
  match depth with
  | 0 => throw (.nestedTooDeep m)
  | d + 1 => r d

/-- Runs a reader at the node with an anchor and comes back. -/
def jump {α : Type} (sc : Scope) (anchor : Nat) (r : Reader α) : Reader α := do
  modify fun s => { s with jumps := s.jumps + 1 }
  let s ← get
  if jumpsPerEvent * sc.document.events.length < s.jumps then throw .tooManyAliases
  set { s with rest := sc.document.anchored anchor }
  let a ← r
  modify fun s' => { s' with rest := s.rest }
  return a

/-- Runs a reader at the next node, or where an alias there points. -/
def following {α : Type} (sc : Scope) (r : Reader α) : Reader α := do
  match (← peek sc).event with
  | .alias anchor =>
    skip
    jump sc anchor r
  | _ => r

/-- Reads an event, and what it starts, as a frame that locates refusals. -/
def onEvent {α : Type} (sc : Scope) (r : MarkedEvent → Reader α) : Reader α := following sc do
  let e ← next sc
  located e.mark sc.path (r e)

/-- Refuses what an event starts. -/
def refuseEvent {α : Type} (e : Event) (expected : String) : Reader α :=
  match e with
  | .scalar s style tag =>
    match Scalar.ofEvent s style tag with
    | .ok v => refuse (.wrongType v.found expected)
    | .error m => refuse m
  | .sequenceStart _ => refuse (.wrongType .sequence expected)
  | .mappingStart _ => refuse (.wrongType .map expected)
  | _ => throw .endOfDocument

/-- The events that are left. -/
def rest : Reader (List MarkedEvent) := fun s => .ok s.rest s

/-- Steps over a node; `level` collections are open. -/
def skipNode (sc : Scope) : List MarkedEvent → Nat → Reader Unit
  | [], _ => do let _ ← next sc
  | _ :: fuel, level => do
    let e ← next sc
    let level := match e.event with
      | .sequenceStart _ | .mappingStart _ => level + 1
      | .sequenceEnd | .mappingEnd => level - 1
      | _ => level
    if level = 0 then return () else skipNode sc fuel level

/-- Steps over the next node. -/
def ignore (sc : Scope) : Reader Unit := do skipNode sc (← rest) 0

/-- Reads the items of a sequence and its end. -/
def items {α : Type} (sc : Scope) (item : Scope → Reader α) :
    List MarkedEvent → Nat → Reader (List α)
  | [], _ => do
    let _ ← peek sc
    return []
  | _ :: fuel, index => do
    match (← peek sc).event with
    | .sequenceEnd =>
      skip
      return []
    | _ =>
      let a ← item { sc with path := sc.path.item index }
      return a :: (← items sc item fuel (index + 1))

/-- The scope of a member's value, given the event of its key. -/
def memberScope (sc : Scope) (key : Event) : Scope :=
  match key with
  | .scalar s _ _ => { sc with path := sc.path.member s }
  | _ => { sc with path := sc.path.unnamed }

/-- Reads the members of a mapping and its end. `step` reads a key in the scope of the mapping and
its value in a scope of its own. -/
def members {σ : Type} (sc : Scope) (step : σ → Scope → Reader σ) :
    List MarkedEvent → σ → Reader σ
  | [], acc => do
    let _ ← peek sc
    return acc
  | _ :: fuel, acc => do
    match (← peek sc).event with
    | .mappingEnd =>
      skip
      return acc
    | key => members sc step fuel (← step acc (memberScope sc key))

/-- Reads a scalar as a text. -/
def text (sc : Scope) (expected : String) : Reader String :=
  onEvent sc fun e =>
    match e.event with
    | .scalar s _ _ => pure s
    | other => refuseEvent other expected

/-- Reads a flag. -/
def flag (sc : Scope) : Reader Bool :=
  onEvent sc fun e =>
    match e.event with
    | .scalar s style tag =>
      let mayBe := style = .plain ∨ style = .literal ∧ tag = some (coreTag "bool")
      match if mayBe then Scalar.flag? s else none with
      | some b => pure b
      | none => refuseEvent e.event "a boolean"
    | other => refuseEvent other "a boolean"

/-- Reads the absent value of an alternative without a value. -/
def null (sc : Scope) : Reader Unit :=
  onEvent sc fun e =>
    match e.event with
    | .scalar s style _ =>
      if style = .plain ∧ (s.isEmpty ∨ Scalar.isNull s) then pure ()
      else refuse (.wrongValue (.text s) "null")
    | .void => pure ()
    | other => refuseEvent other "unit"

/-- Whether an event is an absent value. -/
def isAbsent : Event → Except Mismatch Bool
  | .scalar s style tag =>
    if style ≠ .plain then .ok false
    else match tag with
      | some t =>
        if t = coreTag "null" then
          if Scalar.isNull s then .ok true else .error (.wrongValue (.text s) "null")
        else .ok false
      | none => .ok (s.isEmpty || Scalar.isNull s)
  | .void => .ok true
  | _ => .ok false

/-- Reads an absent value, or a value. -/
def optional {α : Type} (sc : Scope) (value : Reader α) : Reader (Option α) := following sc do
  if ← accept (isAbsent (← peek sc).event) then
    skip
    return none
  else return some (← value)

/-- Whether an event stands for an empty collection. -/
def isEmptyNode : Event → Bool
  | .void => true
  | .scalar s style _ => s.isEmpty && style == .plain
  | _ => false

/-- Reads a list. -/
def list {α : Type} (sc : Scope) (depth : Nat) (item : Nat → Scope → Reader α) :
    Reader (List α) :=
  onEvent sc fun e =>
    match e.event with
    | .sequenceStart _ => deeper e.mark depth fun depth => do items sc (item depth) (← rest) 0
    | other => if isEmptyNode other then pure [] else refuseEvent other "a sequence"

/-- Reads the members of a record. -/
def record {σ α : Type} (sc : Scope) (fields : Fields σ α) (label : String) (depth : Nat)
    (step : Nat → σ → Scope → Reader σ) : Reader α :=
  onEvent sc fun e =>
    match e.event with
    | .mappingStart _ =>
      deeper e.mark depth fun depth => do
        let slots ← members sc (step depth) (← rest) fields.empty
        accept (fields.finish slots)
    | other =>
      if isEmptyNode other then accept (fields.finish fields.empty) else refuseEvent other label

/-- The tag of a node. -/
def tagOf : Event → Option String
  | .scalar _ _ tag => tag
  | .sequenceStart tag => tag
  | .mappingStart tag => tag
  | _ => none

/-- Reads any value. -/
def content : Nat → Scope → Reader Content
  | depth, sc => onEvent sc fun e =>
    if (alternativeTag? (tagOf e.event)).isSome then refuse .taggedForm
    else match e.event with
      | .scalar s style tag => do accept (← accept (Scalar.ofEvent s style tag)).content
      | .sequenceStart _ =>
        match depth with
        | 0 => throw (.nestedTooDeep e.mark)
        | d + 1 => do return .list (← items sc (content d) (← rest) 0)
      | .mappingStart _ =>
        match depth with
        | 0 => throw (.nestedTooDeep e.mark)
        | d + 1 => do
          let entries ← members sc (fun entries inner => do
            let key ← content d sc
            return (key, ← content d inner) :: entries) (← rest) []
          return .map entries.reverse
      | _ => return .null

/-- Notes what an interpreted content left out, and lets a refusal through. -/
def interpreted {α : Type} (i : Interpreted α) : Reader α := do
  modify fun s => { s with ignored := s.ignored + i.ignored }
  accept i.result

/-- A bare name that stands for a choice. -/
def bareName {α β : Type} (choice : Alternatives α β) (name : String) : Reader β := do
  match ← accept (choice.find name) with
  | .bare b => return b
  | .carrying _ => refuse (.wrongType .bareName "newtype variant")

/-- Reads a choice: a tagged value, or the bare name of an alternative. The name in a tag has no
place of its own. -/
def tagged {α β : Type} (sc : Scope) (choice : Alternatives α β) (value : Scope → Reader α) :
    Reader β := following sc do
  let e ← peek sc
  match alternativeTag? (tagOf e.event) with
  | some name =>
    match ← accept (choice.find name) with
    | .bare b =>
      null sc
      return b
    | .carrying make => return make (← value sc)
  | none =>
    onEvent sc fun e =>
      match e.event with
      | .scalar s _ _ => bareName choice s
      | other => refuseEvent other "a YAML tag starting with '!'"

/-- Reads the one member of a mapping that stands for a choice. -/
def singleMember {α β : Type} (sc : Scope) (choice : Alternatives α β)
    (value : Scope → Reader α) : Reader β := do
  let refuseEntries : Reader β := refuse (.wrongValue .map "map with a single key")
  let key ← peek sc
  match key.event with
  | .mappingEnd => refuseEntries
  | _ =>
    let v ← onEvent sc fun e =>
      match e.event with
      | .scalar s _ _ => accept (choice.find s)
      | other => refuseEvent other "variant identifier"
    match v with
    | .bare _ => refuse (.wrongType .map "unit variant")
    | .carrying make =>
      let a ← value (memberScope sc key.event)
      match (← peek sc).event with
      | .mappingEnd =>
        skip
        return make a
      | _ =>
        ignore sc
        refuseEntries

/-- Reads a choice that is written as a record with one member, or as a bare name. -/
def keyed {α β : Type} (sc : Scope) (choice : Alternatives α β) (depth : Nat)
    (value : Nat → Scope → Reader α) : Reader β := do
  deeper (← peek sc).mark depth fun depth =>
    onEvent sc fun e =>
      if (alternativeTag? (tagOf e.event)).isSome then
        refuse (.wrongType .alternative choice.label)
      else match e.event with
        | .scalar s style tag => do
          match ← accept (Scalar.ofEvent s style tag) with
          | .text name => bareName choice name
          | other => refuse (.wrongType other.found choice.label)
        | .sequenceStart _ =>
          deeper e.mark depth fun _ => refuse (.wrongType .sequence choice.label)
        | .mappingStart _ =>
          deeper e.mark depth fun depth => singleMember sc choice (value depth)
        | other => refuseEvent other choice.label

end Reader

end ApiSurface.Yaml
