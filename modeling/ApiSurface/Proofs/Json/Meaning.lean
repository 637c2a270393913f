/-
What a JSON value stands for.

`Syntax.content?` is the content of a value of any kind, `Shape.ofSyntax?` the value of a known
shape, each with the levels of nesting that are left; `none` means that there is no such value. They
follow the `Syntax` and know nothing of texts: the members of an object are put into their slots
one after the other (`Fields.ofMembers?`), a member that nobody asked for changes nothing, and a slot
takes one member only.
-/
import ApiSurface.Json.Decode
import ApiSurface.Proofs.Json.Body

namespace ApiSurface.Json

/-- The value that a reader gives at the beginning of a text. -/
def Reader.value? {α : Type} (r : Reader α) (cs : List Char) : Option α :=
  match r ⟨cs, 0⟩ with
  | .ok a _ => some a
  | .error _ _ => none

/-- The number that a spelling stands for, if it is in range. -/
def numberOf? (spelling : List Char) : Option Number :=
  if spelling.head? = some '-' then (Reader.number true).value? spelling.tail
  else (Reader.number false).value? spelling

/-- Goes one level down, as long as levels are left. -/
def below {α : Type} (depth : Nat) (f : Nat → Option α) : Option α :=
  if depth ≤ 1 then none else f (depth - 1)

/-! ### Values of any kind -/

mutual

/-- The content of a value of any kind. -/
def Syntax.content? : Syntax → Nat → Option Content
  | _, 0 => none
  | .null, _ + 1 => some .null
  | .bool b, _ + 1 => some (.bool b)
  | .number spelling, _ + 1 => (numberOf? spelling).map .number
  | .text body, _ + 1 => (textOf? body).map .text
  | .list items, depth + 1 => if depth = 0 then none else (contents? items depth).map .list
  | .object members, depth + 1 => if depth = 0 then none else (entries? members depth).map .map

/-- The contents of items. -/
def contents? : List Syntax → Nat → Option (List Content)
  | [], _ => some []
  | t :: ts, depth => (t.content? depth).bind fun c => (contents? ts depth).map (c :: ·)

/-- The contents of members. -/
def entries? : List (List Char × Syntax) → Nat → Option (List (Content × Content))
  | [], _ => some []
  | (key, t) :: ms, depth => (textOf? key).bind fun k => (t.content? depth).bind fun c =>
      (entries? ms depth).map ((.text k, c) :: ·)

end

/-! ### Values of a known shape -/

namespace Syntax

/-- The text of a string. -/
def text? : Syntax → Option String
  | .text body => textOf? body
  | _ => none

/-- The value of a flag. -/
def flag? : Syntax → Option Bool
  | .bool b => some b
  | _ => none

/-- The items of a list. -/
def items? : Syntax → Option (List Syntax)
  | .list items => some items
  | _ => none

/-- The absent value. -/
def null? : Syntax → Option Unit
  | .null => some ()
  | _ => none

/-- The alternative that a string names. -/
def variant? {α β : Type} (choice : Alternatives α β) (body : List Char) : Option (Variant α β) :=
  (textOf? body).bind fun name => choice.variants.lookup name

/-- The alternative whose bare name a value is. -/
def bare? {α β : Type} (choice : Alternatives α β) : Syntax → Option β
  | .text body => (variant? choice body).bind fun
    | .bare b => some b
    | .carrying _ => none
  | _ => none

end Syntax

end ApiSurface.Json

namespace ApiSurface

open Json (Syntax)

mutual

/-- The value of a shape that a JSON value stands for. -/
def Shape.ofSyntax? : {α : Type} → Shape α → Nat → Syntax → Option α
  | _, .text, _, t => t.text?
  | _, .flag, _, t => t.flag?
  | _, .nothing, _, _ => none
  | _, .optional s, depth, t => match t with
    | .null => some none
    | t => (s.ofSyntax? depth t).map some
  | _, .list item, depth, t => t.items?.bind fun ts =>
      Json.below depth fun depth => ts.mapM fun t => item.ofSyntax? depth t
  | _, .record _ fields, depth, t => match t with
    | .object ms => Json.below depth fun depth =>
        (ms.foldlM (fun slots m => (Json.textOf? m.1).bind fun key =>
          fields.putMember? depth slots key m.2) fields.empty).bind fun slots =>
            (fields.finish slots).toOption
    | .list ts => Json.below depth fun depth => (fields.ofItems? depth ts).bind fun r =>
        if r.2.isEmpty then some r.1 else none
    | _ => none
  | _, .tagged choice s, depth, t => match t with
    | .object ((key, value) :: more) =>
        (Json.below depth fun depth => (Syntax.variant? choice key).bind fun
          | .bare b => value.null?.map fun _ => b
          | .carrying make => (s.ofSyntax? depth value).map make).bind fun b =>
            if more.isEmpty then some b else none
    | t => t.bare? choice
  | _, .keyed choice s, depth, t => match t with
    | .object ((key, value) :: more) =>
        Json.below depth fun depth => ((Syntax.variant? choice key).bind fun
          | .bare _ => none
          | .carrying make => (s.ofSyntax? depth value).map make).bind fun b =>
            if more.isEmpty then some b else none
    | t => t.bare? choice
  | _, .buffered interpret _, depth, t => (t.content? depth).bind fun c =>
      (interpret c).result.toOption
  | _, .view there _ s, depth, t => (s.ofSyntax? depth t).map there

/-- The slots with a member put into its own, which has to be empty. -/
def Fields.putMember? : {σ α : Type} → Fields σ α → Nat → σ → String → Syntax → Option σ
  | _, _, .nil, _, (), _, _ => some ()
  | _, _, .cons field s rest, depth, (slot, slots), key, t =>
    if key = field.name then
      match slot with
      | some _ => none
      | none => (s.ofSyntax? depth t).map fun a => (some a, slots)
    else (rest.putMember? depth slots key t).map (slot, ·)

/-- The record whose members are given in order, and the items that are left. -/
def Fields.ofItems? : {σ α : Type} → Fields σ α → Nat → List Syntax → Option (α × List Syntax)
  | _, _, .nil, _, ts => some ((), ts)
  | _, _, .cons field s rest, depth, ts => match ts with
    | [] => field.default.bind fun a => (rest.ofItems? depth []).map fun r => ((a, r.1), r.2)
    | t :: ts => (s.ofSyntax? depth t).bind fun a =>
        (rest.ofItems? depth ts).map fun r => ((a, r.1), r.2)

end

section Slots

variable {α σ β : Type} {field : Field α} {s : Shape α} {rest : Fields σ β} {depth : Nat}
  {slots : σ} {key : String} {t : Syntax}

/-- A member goes into its slot if that is empty. -/
theorem Fields.putMember?_same (h : key = field.name) :
    (Fields.cons field s rest).putMember? depth (none, slots) key t
      = (s.ofSyntax? depth t).map fun a => (some a, slots) := by
  rw [putMember?, if_pos h]

theorem Fields.putMember?_twice (h : key = field.name) (a : α) :
    (Fields.cons field s rest).putMember? depth (some a, slots) key t = none := by
  rw [putMember?, if_pos h]

/-- A member of another name leaves the slot as it is. -/
theorem Fields.putMember?_other (h : key ≠ field.name) (slot : Option α) :
    (Fields.cons field s rest).putMember? depth (slot, slots) key t
      = (rest.putMember? depth slots key t).map (slot, ·) := by
  cases slot <;> rw [putMember?, if_neg h]

end Slots

/-- The slots with the members of an object put into them, one after the other. -/
def Fields.putMembers? {σ α : Type} (fields : Fields σ α) (depth : Nat) (slots : σ)
    (ms : List (List Char × Syntax)) : Option σ :=
  ms.foldlM (fun slots m => (Json.textOf? m.1).bind fun key =>
    fields.putMember? depth slots key m.2) slots

/-- The record whose members an object has. -/
def Fields.ofMembers? {σ α : Type} (fields : Fields σ α) (depth : Nat)
    (ms : List (List Char × Syntax)) : Option α :=
  (fields.putMembers? depth fields.empty ms).bind fun slots => (fields.finish slots).toOption

theorem Shape.ofSyntax?_object {σ α : Type} (label : String) (fields : Fields σ α) (depth : Nat)
    (ms : List (List Char × Syntax)) :
    (Shape.record label fields).ofSyntax? depth (.object ms)
      = Json.below depth fun depth => fields.ofMembers? depth ms := rfl

theorem Shape.ofSyntax?_list {σ α : Type} (label : String) (fields : Fields σ α) (depth : Nat)
    (ts : List Syntax) :
    (Shape.record label fields).ofSyntax? depth (.list ts)
      = Json.below depth fun depth => (fields.ofItems? depth ts).bind fun r =>
          if r.2.isEmpty then some r.1 else none := rfl

end ApiSurface
