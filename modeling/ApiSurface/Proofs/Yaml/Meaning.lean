/-
What a node of a YAML document stands for.

`Node.content?` is the content of a value of any kind, `Shape.ofNode?` the value of a known shape,
each with the levels of nesting that are left and the nodes that aliases lead to; `none` means that
there is no such value. They follow the `Node` and know nothing of events: an alias is what it leads
to (`Node.target`), and a member that nobody asked for changes nothing, whatever its value is.
-/
import ApiSurface.Proofs.Yaml.Node
import ApiSurface.Yaml.Decode

namespace ApiSurface.Yaml

/-- Goes one level down, as long as levels are left. -/
def below {α : Type} (depth : Nat) (f : Nat → Option α) : Option α :=
  match depth with
  | 0 => none
  | depth + 1 => f depth

theorem below_eq_none {α : Type} {f : Nat → Option α} (h : ∀ depth, f depth = none) (depth : Nat) :
    below depth f = none := by
  cases depth with
  | zero => rfl
  | succ depth => exact h depth

theorem below_eq_some {α : Type} {f : Nat → Option α} {depth : Nat} {a : α}
    (h : below depth f = some a) : ∃ d, depth = d + 1 ∧ f d = some a := by
  cases depth with
  | zero => cases h
  | succ depth => exact ⟨depth, rfl, h⟩

namespace Node

/-- The node that is read in the place of a node. -/
def target (anchors : Anchors) : Node → Node
  | .link n => anchors.node n
  | t => t

theorem isLink_target (anchors : Anchors) (t : Node) : (t.target anchors).isLink = false := by
  cases t with
  | link n => exact anchors.isLink_node n
  | _ => rfl

@[simp]
theorem target_target (anchors : Anchors) (t : Node) :
    (t.target anchors).target anchors = t.target anchors := by
  have h := isLink_target anchors t
  generalize t.target anchors = u at h
  cases u with
  | link => cases h
  | _ => rfl

/-- The tag of a node. -/
def tag : Node → Option String
  | .scalar _ _ tag => tag
  | .sequence tag _ => tag
  | .mapping tag _ => tag
  | .link _ => none

/-- Whether a node stands under the name of an alternative. -/
def isTagged (t : Node) : Bool := (alternativeTag? t.tag).isSome

/-- Whether a node stands for an empty collection. -/
def isEmpty : Node → Bool
  | .scalar s style _ => s.isEmpty && style == .plain
  | _ => false

/-- The text of a scalar. -/
def text? : Node → Option String
  | .scalar s _ _ => some s
  | _ => none

/-- The value of a flag. -/
def flag? : Node → Option Bool
  | .scalar s style tag =>
    if style = .plain ∨ style = .literal ∧ tag = some (coreTag "bool") then Scalar.flag? s else none
  | _ => none

/-- The absent value of an alternative without a value. -/
def null? : Node → Option Unit
  | .scalar s style _ => if style = .plain ∧ (s.isEmpty ∨ Scalar.isNull s) then some () else none
  | _ => none

/-- Whether a value is absent. -/
def absent? : Node → Option Bool
  | .scalar s style tag => (Reader.isAbsent (.scalar s style tag)).toOption
  | _ => some false

/-- The alternative whose bare name a text is. -/
def bare? {α β : Type} (choice : Alternatives α β) (name : String) : Option β :=
  (choice.variants.lookup name).bind fun
    | .bare b => some b
    | .carrying _ => none

/-- The choice that the one member of a mapping stands for. -/
def member? {α β : Type} (anchors : Anchors) (choice : Alternatives α β)
    (value? : Node → Option α) : List (Node × Node) → Option β
  | [] => none
  | m :: ms => ((m.1.target anchors).text?.bind fun name => choice.variants.lookup name).bind fun
    | .bare _ => none
    | .carrying make => (value? m.2).bind fun a => if ms.isEmpty then some (make a) else none

/-- The choice that a mapping with one member or a bare name stands for. -/
def keyed? {α β : Type} (anchors : Anchors) (choice : Alternatives α β)
    (value? : Nat → Node → Option α) (depth : Nat) (t : Node) : Option β :=
  if t.isTagged then none
  else match t with
    | .scalar s style tag => match Scalar.ofEvent s style tag with
      | .ok (.text name) => bare? choice name
      | _ => none
    | .mapping _ ms => below depth fun depth => member? anchors choice (value? depth) ms
    | _ => none

/-- The choice that a tag or a bare name stands for. -/
def tagged? {α β : Type} (choice : Alternatives α β) (value? : Node → Option α) (t : Node) :
    Option β :=
  match alternativeTag? t.tag with
  | some name => (choice.variants.lookup name).bind fun
    | .bare b => t.null?.map fun _ => b
    | .carrying make => (value? t).map make
  | none => t.text?.bind (bare? choice)

/-! ### Values of any kind -/

/-- The content of a scalar. -/
def scalarContent? (s : String) (style : ScalarStyle) (tag : Option String) : Option Content :=
  (do (← Scalar.ofEvent s style tag).content : Except Mismatch Content).toOption

/-- The contents of the two parts of a member. -/
def pair? (content? : Node → Option Content) (m : Node × Node) : Option (Content × Content) :=
  (content? m.1).bind fun key => (content? m.2).map (key, ·)

/-- The content of a value of any kind. -/
def content? (anchors : Anchors) : Nat → Node → Option Content
  | depth, t =>
    if (t.target anchors).isTagged then none
    else match t.target anchors with
      | .scalar s style tag => scalarContent? s style tag
      | .sequence _ ts =>
        match depth with
        | 0 => none
        | depth + 1 => (ts.mapM (content? anchors depth)).map .list
      | .mapping _ ms =>
        match depth with
        | 0 => none
        | depth + 1 => (ms.mapM (pair? (content? anchors depth))).map .map
      | .link _ => none

end Node

end ApiSurface.Yaml

namespace ApiSurface

open Yaml (Node Anchors)

mutual

/-- The value of a shape that a node stands for. -/
def Shape.ofNode? (anchors : Anchors) : {α : Type} → Shape α → Nat → Node → Option α
  | _, .text, _, t => (t.target anchors).text?
  | _, .flag, _, t => (t.target anchors).flag?
  | _, .nothing, _, _ => none
  | _, .optional s, depth, t => (t.target anchors).absent?.bind fun absent =>
      if absent then some none else (s.ofNode? anchors depth (t.target anchors)).map some
  | _, .list item, depth, t => match t.target anchors with
    | .sequence _ ts => Yaml.below depth fun depth => ts.mapM fun t => item.ofNode? anchors depth t
    | t => if t.isEmpty then some [] else none
  | _, .record _ fields, depth, t => match t.target anchors with
    | .mapping _ ms => Yaml.below depth fun depth =>
        (ms.foldlM (fun slots (m : Node × Node) => (m.1.target anchors).text?.bind fun key =>
          fields.putNode? anchors depth slots key m.2) fields.empty).bind fun slots =>
            (fields.finish slots).toOption
    | t => if t.isEmpty then (fields.finish fields.empty).toOption else none
  | _, .tagged choice s, depth, t => (t.target anchors).tagged? choice (s.ofNode? anchors depth)
  | _, .keyed choice s, depth, t => Yaml.below depth fun depth =>
    (t.target anchors).keyed? anchors choice (s.ofNode? anchors) depth
  | _, .buffered interpret _, depth, t => (t.content? anchors depth).bind fun c =>
      (interpret c).result.toOption
  | _, .view there _ s, depth, t => (s.ofNode? anchors depth t).map there

/-- The slots after the value of a member was read. -/
def Fields.putNode? (anchors : Anchors) : {σ α : Type} → Fields σ α → Nat → σ → String → Node →
    Option σ
  | _, _, .nil, _, (), _, _ => some ()
  | _, _, .cons field s rest, depth, (slot, slots), key, t =>
    if key = field.name then
      match slot with
      | some _ => none
      | none => (s.ofNode? anchors depth t).map (some ·, slots)
    else (rest.putNode? anchors depth slots key t).map (slot, ·)

end

/-- A node stands for what is read in its place. -/
theorem Shape.ofNode?_target (anchors : Anchors) : {α : Type} → (s : Shape α) → (depth : Nat) →
    (t : Node) → s.ofNode? anchors depth (t.target anchors) = s.ofNode? anchors depth t
  | _, .view _ _ s, depth, t => by
    rw [ofNode?, ofNode?, ofNode?_target anchors s]
  | _, .buffered _ _, depth, t => by
    rw [ofNode?, ofNode?, Node.content?, Node.content?, Node.target_target]
  | _, .text, _, t | _, .flag, _, t | _, .optional _, _, t | _, .list _, _, t
  | _, .record _ _, _, t | _, .tagged _ _, _, t | _, .keyed _ _, _, t => by
    rw [ofNode?, ofNode?, Node.target_target]
  | _, .nothing, _, _ => rfl

/-! ### Records -/

section Slots

variable {α σ β : Type} {anchors : Anchors} {field : Field α} {s : Shape α} {rest : Fields σ β}
  {depth : Nat} {slots : σ} {key : String} {t : Node}

theorem Fields.putNode?_same (h : key = field.name) :
    (Fields.cons field s rest).putNode? anchors depth (none, slots) key t
      = (s.ofNode? anchors depth t).map (some ·, slots) := by
  rw [putNode?, if_pos h]

theorem Fields.putNode?_twice (h : key = field.name) (a : α) :
    (Fields.cons field s rest).putNode? anchors depth (some a, slots) key t = none := by
  rw [putNode?, if_pos h]

theorem Fields.putNode?_other (h : key ≠ field.name) (slot : Option α) :
    (Fields.cons field s rest).putNode? anchors depth (slot, slots) key t
      = (rest.putNode? anchors depth slots key t).map (slot, ·) := by
  cases slot <;> rw [putNode?, if_neg h]

end Slots

/-- The slots with the members of a mapping put into them, one after the other. -/
def Fields.putNodes? {σ α : Type} (anchors : Anchors) (fields : Fields σ α) (depth : Nat)
    (slots : σ) (ms : List (Node × Node)) : Option σ :=
  ms.foldlM (fun slots m => (m.1.target anchors).text?.bind fun key =>
    fields.putNode? anchors depth slots key m.2) slots

/-- The record whose members a mapping has. -/
def Fields.ofNodes? {σ α : Type} (anchors : Anchors) (fields : Fields σ α) (depth : Nat)
    (ms : List (Node × Node)) : Option α :=
  (fields.putNodes? anchors depth fields.empty ms).bind fun slots => (fields.finish slots).toOption

theorem Shape.ofNode?_mapping {σ α : Type} (anchors : Anchors) (label : String)
    (fields : Fields σ α) (depth : Nat) (tag : Option String) (ms : List (Node × Node)) :
    (Shape.record label fields).ofNode? anchors depth (.mapping tag ms)
      = Yaml.below depth fun depth => fields.ofNodes? anchors depth ms := rfl

theorem Shape.ofNode?_sequence {α : Type} (anchors : Anchors) (item : Shape α) (depth : Nat)
    (tag : Option String) (ts : List Node) :
    (Shape.list item).ofNode? anchors depth (.sequence tag ts)
      = Yaml.below depth fun depth => ts.mapM (item.ofNode? anchors depth) := rfl

end ApiSurface
