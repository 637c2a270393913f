/-
Shapes: descriptions of how values of a type appear in a document.

A `Shape α` drives the writer (`Shape.encode`) and the readers of both document languages, so what
is written and what is read cannot drift apart. A record is described by its `Fields`; the first
index of `Fields` is the type of the slots that a reader fills, in any order, before the record is
put together (`Fields.finish`).
-/
import ApiSurface.Wire.Content
import ApiSurface.Wire.Mismatch
import ApiSurface.Wire.Tree

namespace ApiSurface

/-- A named member of a record. -/
structure Field (α : Type) where
  name : String
  /-- The value of a missing member, which is an error when there is none. -/
  default : Option α := none
  /-- Which values are left out when the record is written. -/
  hidden : α → Bool := fun _ => false

/-- One alternative of a choice: a bare name, or a name with a value. -/
inductive Variant (α β : Type) where
  | bare (value : β)
  | carrying (make : α → β)

/-- The named alternatives of a choice, whose values all have one type. -/
structure Alternatives (α β : Type) where
  /-- What a choice is called in messages. -/
  label : String
  variants : List (String × Variant α β)
  /-- The name and the value under which a choice is written. -/
  split : β → String × Option α

namespace Alternatives

/-- The names in order. -/
def names {α β : Type} (a : Alternatives α β) : List String := a.variants.map (·.1)

/-- The alternative with a name. -/
def find {α β : Type} (a : Alternatives α β) (name : String) : Except Mismatch (Variant α β) :=
  match a.variants.lookup name with
  | some v => .ok v
  | none => .error (.unknownVariant name a.names)

end Alternatives

/-- The outcome of interpreting a content, with the number of marker details that were ignored
because of their form. -/
structure Interpreted (α : Type) where
  result : Except Mismatch α
  ignored : Nat := 0

mutual

/-- How values of a type appear in a document. -/
inductive Shape : Type → Type 1 where
  | text : Shape String
  | flag : Shape Bool
  | nothing : Shape Empty
  | optional {α : Type} (value : Shape α) : Shape (Option α)
  | list {α : Type} (item : Shape α) : Shape (List α)
  | record {σ α : Type} (label : String) (fields : Fields σ α) : Shape α
  /-- A choice that names its alternative beside the value. -/
  | tagged {α β : Type} (choice : Alternatives α β) (value : Shape α) : Shape β
  /-- A choice that is written as a record with one member. -/
  | keyed {α β : Type} (choice : Alternatives α β) (value : Shape α) : Shape β
  /-- A value of several forms. -/
  | buffered {α : Type} (read : Content → Interpreted α) (write : α → Tree) : Shape α
  /-- Another type that appears as values of a known shape. -/
  | view {α β : Type} (there : α → β) (back : β → α) (shape : Shape α) : Shape β

/-- The members of a record in the order in which they are written. -/
inductive Fields : Type → Type → Type 1 where
  | nil : Fields Unit Unit
  | cons {α σ β : Type} (field : Field α) (shape : Shape α) (rest : Fields σ β) :
      Fields (Option α × σ) (α × β)

end

mutual

/-- The tree of a value. -/
def Shape.encode : {α : Type} → Shape α → α → Tree
  | _, .text, s => .text s
  | _, .flag, b => .bool b
  | _, .nothing, e => nomatch e
  | _, .optional s, o => match o with
    | some a => s.encode a
    | none => .null
  | _, .list item, l => .list (l.map (item.encode ·))
  | _, .record _ fields, a => .record (fields.encode a)
  | _, .tagged choice s, b => match choice.split b with
    | (name, some a) => .tagged name (s.encode a)
    | (name, none) => .text name
  | _, .keyed choice s, b => match choice.split b with
    | (name, some a) => .record [(name, s.encode a)]
    | (name, none) => .text name
  | _, .buffered _ write, a => write a
  | _, .view _ back s, b => s.encode (back b)

/-- The members of a record that are written. -/
def Fields.encode : {σ α : Type} → Fields σ α → α → List (String × Tree)
  | _, _, .nil, _ => []
  | _, _, .cons field s rest, (a, b) =>
    if field.hidden a then rest.encode b else (field.name, s.encode a) :: rest.encode b

end

namespace Fields

/-- The number of members. -/
def length : {σ α : Type} → Fields σ α → Nat
  | _, _, .nil => 0
  | _, _, .cons _ _ rest => rest.length + 1

/-- The slots before anything was read. -/
def empty : {σ α : Type} → Fields σ α → σ
  | _, _, .nil => ()
  | _, _, .cons _ _ rest => (none, rest.empty)

/-- Puts a record together from its slots; the first missing member without a default is an
error. -/
def finish : {σ α : Type} → Fields σ α → σ → Except Mismatch α
  | _, _, .nil, () => .ok ()
  | _, _, .cons field _ rest, (slot, slots) => do
    let a ← match slot <|> field.default with
      | some a => .ok a
      | none => .error (.missingField field.name)
    return (a, ← rest.finish slots)

/-- What a record is called when its members are given without names. -/
def positional {σ α : Type} (fields : Fields σ α) (label : String) : String :=
  label ++ " with " ++ toString fields.length ++
    if fields.length = 1 then " element" else " elements"

end Fields

end ApiSurface
