/-
The events of a YAML document: its nodes in order, the collections as their start and their end.
-/
import ApiSurface.Yaml.TokenStream

namespace ApiSurface.Yaml

/-- One step through a document. -/
inductive Event where
  | scalar (text : String) (style : ScalarStyle) (tag : Option String)
  | sequenceStart (tag : Option String)
  | sequenceEnd
  | mappingStart (tag : Option String)
  | mappingEnd
  /-- A reference to the node with an anchor, by the anchor's number. -/
  | alias (anchor : Nat)
  /-- The only event of a text without a document. -/
  | void

/-- An event at the point where it starts. -/
structure MarkedEvent where
  event : Event
  mark : Mark

/-- Why a text does not give a whole document. -/
inductive Defect where
  | fault (fault : Fault)
  /-- An alias whose anchor was not seen before. -/
  | unknownAnchor (mark : Mark)

/-- The first document of a text. -/
structure Document where
  events : List MarkedEvent
  /-- The places among the events that anchors stand for, by number, the last one first. -/
  anchors : List (Nat × Nat)
  /-- Why the events end early, if they do. -/
  defect : Option Defect
  /-- Whether something follows the document. -/
  continued : Bool

namespace Document

/-- The events from the node with an anchor on. -/
def anchored (d : Document) (anchor : Nat) : List MarkedEvent :=
  d.events.drop ((d.anchors.lookup anchor).getD d.events.length)

end Document

/-- Events in the course of being read from tokens. -/
structure EventState where
  tokens : List Token
  /-- What is wrong after the last token. -/
  fault : Fault
  /-- The events so far, last event first. -/
  events : List MarkedEvent := []
  count : Nat := 0
  /-- The names of the anchors so far with their numbers. -/
  names : List (String × Nat) := []
  anchors : List (Nat × Nat) := []
  /-- What tag handles stand for. -/
  handles : List (String × String) := []

/-- Reads events from tokens; a failure keeps the events so far. -/
abbrev EventReader (α : Type) : Type := EStateM Defect EventState α

namespace EventReader

/-- The next token. -/
def peek : EventReader Token := fun s =>
  match s.tokens with
  | t :: _ => .ok t s
  | [] => .error (.fault s.fault) s

/-- Steps over the next token. -/
def skip : EventReader Unit := fun s => .ok () { s with tokens := s.tokens.tail }

/-- Fails at a point. -/
def fail {α : Type} (p : Problem) (m : Mark) (context : Option (Activity × Mark)) : EventReader α :=
  fun s => .error (.fault ⟨.nodes, p, m, context⟩) s

/-- Adds an event. -/
def emit (e : Event) (m : Mark) : EventReader Unit := fun s =>
  .ok () { s with events := ⟨e, m⟩ :: s.events, count := s.count + 1 }

/-- Adds the first event of a node. A new anchor gets the number of the names before it. -/
def emitNode (e : Event) (anchor : Option String) (m : Mark) : EventReader Unit := do
  match anchor with
  | none => pure ()
  | some name =>
    modify fun s =>
      let number := s.names.length
      { s with
        names := (name, number) :: s.names.filter (·.1 != name)
        anchors := (number, s.count) :: s.anchors }
  emit e m

/-- Adds a reference to an anchor. -/
def emitAlias (name : String) (m : Mark) : EventReader Unit := fun s =>
  match s.names.lookup name with
  | some number => emit (.alias number) m s
  | none => .error (.unknownAnchor m) s

/-- Adds a node without a text. -/
def emitEmpty (m : Mark) : EventReader Unit := emit (.scalar "" .plain none) m

/-- Whether a token is of one of some kinds. -/
def isOneOf (t : Token) (kinds : List TokenKind) : Bool :=
  kinds.contains t.kind

end EventReader

end ApiSurface.Yaml
