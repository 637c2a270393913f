/-
The places in a document at which a record is read.

A `Site` is a value with one object left open, at which the reader of a shape reads a record of
known fields. Whatever is read of the whole value depends on the members of that object only through
the record that they make (`Site.through`), so no change that leaves the record as it is can be told
from outside, and an object that is no record spoils the whole value.
-/
import ApiSurface.Proofs.Json.MarkerSlot
import ApiSurface.Proofs.Wire.Levels

namespace ApiSurface

open Json (Syntax textOf? entries?)

/-! ### What depends on a part only -/

/-- Whether a result depends on its input only through what is made of the input first. -/
def Through {ι α β : Type} (part : ι → Option β) (whole : ι → Option α) : Prop :=
  ∃ g : β → Option α, ∀ x, whole x = (part x).bind g

namespace Through

variable {ι α β γ : Type} {part : ι → Option β} {mid : ι → Option γ} {whole : ι → Option α}

theorem refl (part : ι → Option β) : Through part part := ⟨some, fun x => by simp⟩

theorem none (part : ι → Option β) : Through part fun _ => (Option.none : Option α) :=
  ⟨fun _ => Option.none, fun x => by simp⟩

theorem of_eq {whole' : ι → Option α} (h : Through part whole) (heq : ∀ x, whole' x = whole x) :
    Through part whole' := by
  rwa [funext heq]

theorem bind (h : Through part whole) (k : α → Option γ) :
    Through part fun x => (whole x).bind k := by
  obtain ⟨g, hg⟩ := h
  refine ⟨fun b => (g b).bind k, fun x => ?_⟩
  dsimp only
  rw [hg, Option.bind_assoc]

theorem map (h : Through part whole) (f : α → γ) : Through part fun x => (whole x).map f := by
  simp only [Option.map_eq_bind]
  exact h.bind _

theorem trans (h : Through part mid) (h' : Through mid whole) : Through part whole := by
  obtain ⟨g, hg⟩ := h'
  have := h.bind g
  simpa only [← hg] using this

theorem comp (h : Through part whole) {κ : Type} (f : κ → ι) :
    Through (fun x => part (f x)) fun x => whole (f x) := by
  obtain ⟨g, hg⟩ := h
  exact ⟨g, fun x => hg (f x)⟩

/-- What is read before the part makes no difference. -/
theorem after (o : Option γ) {k : γ → ι → Option α} (h : ∀ c, Through part (k c)) :
    Through part fun x => o.bind (k · x) := by
  cases o with
  | none => exact none part
  | some c => exact h c

theorem below (depth : Nat) {k : Nat → ι → Option α} (h : Through part (k (depth - 1))) :
    Through part fun x => Json.below depth (k · x) := by
  simp only [Json.below]
  split
  · exact none part
  · exact h

end Through

/-! ### The fields of a record -/

namespace Fields.Has

variable {σ α β : Type} {fields : Fields σ α} {i : Nat} {name : String} {s : Shape β}

/-- Slots depend on a member through the value of its shape. -/
theorem through_put (h : fields.Has i name s) (depth : Nat) (slots : σ) :
    Through (s.ofSyntax? depth) (fields.putMember? depth slots name) := by
  induction h with
  | @head α σ β field s rest =>
    obtain ⟨slot, slots⟩ := slots
    cases slot with
    | some a => exact (Through.none _).of_eq fun t => putMember?_twice rfl a
    | none => exact ((Through.refl _).map _).of_eq fun t => putMember?_same rfl
  | tail other h ih =>
    obtain ⟨slot, slots⟩ := slots
    exact ((ih slots).map _).of_eq fun t => putMember?_other other slot

/-- A record in a list depends on each of its items through the value of its shape. -/
theorem through_items (h : fields.Has i name s) (depth : Nat) {before : List Syntax}
    (after : List Syntax) (hi : before.length = i) :
    Through (s.ofSyntax? depth) fun t => fields.ofItems? depth (before ++ t :: after) := by
  induction h generalizing before with
  | head =>
    obtain rfl := List.length_eq_zero_iff.mp hi
    exact (Through.refl _).bind _
  | tail other h ih =>
    obtain ⟨t, before, rfl⟩ := List.exists_cons_of_length_eq_add_one hi
    exact .after _ fun a => (ih (by simpa using hi)).map _

end Fields.Has

/-- An object as a record depends on each of its members through the value of its shape. -/
theorem Fields.Has.through_members {σ α β : Type} {fields : Fields σ α} {i : Nat} {name : String}
    {s : Shape β} (h : fields.Has i name s) (depth : Nat) {key : List Char}
    (hkey : textOf? key = some name) (before after : List (List Char × Syntax)) :
    Through (s.ofSyntax? depth) fun t =>
      fields.ofMembers? depth (before ++ (key, t) :: after) := by
  have happend (t : Syntax) : fields.putMembers? depth fields.empty (before ++ (key, t) :: after)
      = (fields.putMembers? depth fields.empty before).bind fun slots =>
        (fields.putMember? depth slots name t).bind (fields.putMembers? depth · after) := by
    rw [Fields.putMembers?, List.foldlM_append]
    refine congrArg _ (funext fun slots => ?_)
    exact Fields.putMembers?_text hkey
  simp only [Fields.ofMembers?, happend]
  exact (Through.after _ fun slots => (h.through_put depth slots).bind _).bind _

/-! ### Sites -/

/-- The record that an object makes. An object that is held back is read whole before that. -/
def Fields.ofHeld? {σ α : Type} (fields : Fields σ α) (held : Bool) (depth : Nat)
    (ms : List (List Char × Syntax)) : Option α :=
  if held && (entries? ms depth).isNone then none else fields.ofMembers? depth ms

theorem Fields.ofHeld?_eq_some {σ α : Type} {fields : Fields σ α} {held : Bool} {depth : Nat}
    {ms : List (List Char × Syntax)} {a : α} :
    fields.ofHeld? held depth ms = some a ↔
      (held = true → ∃ es, entries? ms depth = some es) ∧ fields.ofMembers? depth ms = some a := by
  rw [Fields.ofHeld?]
  cases held <;> cases entries? ms depth <;> simp

/-- Whether a value with an object left open is read by a shape with a record at that object: one of
known fields, with some levels of nesting left, and held back if it is a marker in its slot. -/
inductive Site : {τ ρ α : Type} → Fields τ ρ → Nat → Bool → Shape α → Nat →
    (List (List Char × Syntax) → Syntax) → Prop
  | here {τ ρ : Type} (label : String) (fields : Fields τ ρ) (left : Nat) :
      Site fields left false (.record label fields) (left + 1) .object
  | slot (left : Nat) : Site Marker.fields left true markerSlotShape (left + 1) .object
  | view {τ ρ α β : Type} {fields : Fields τ ρ} {left : Nat} {held : Bool} {s : Shape α}
      {depth : Nat} {plug : List (List Char × Syntax) → Syntax} (there : α → β) (back : β → α)
      (h : Site fields left held s depth plug) :
      Site fields left held (.view there back s) depth plug
  | optional {τ ρ α : Type} {fields : Fields τ ρ} {left : Nat} {held : Bool} {s : Shape α}
      {depth : Nat} {plug : List (List Char × Syntax) → Syntax}
      (h : Site fields left held s depth plug) :
      Site fields left held (.optional s) depth plug
  | item {τ ρ α : Type} {fields : Fields τ ρ} {left : Nat} {held : Bool} {s : Shape α}
      {depth : Nat} {plug : List (List Char × Syntax) → Syntax} (before after : List Syntax)
      (h : Site fields left held s depth plug) :
      Site fields left held (.list s) (depth + 1) fun ms => .list (before ++ plug ms :: after)
  /-- Inside the value of a member of another record. -/
  | member {τ ρ σ α β : Type} {fields : Fields τ ρ} {left : Nat} {held : Bool} {s : Shape α}
      {depth : Nat} {plug : List (List Char × Syntax) → Syntax} (label : String)
      {outer : Fields σ β} {i : Nat} {name : String} (hfield : outer.Has i name s)
      {key : List Char} (hkey : textOf? key = some name) (before after : List (List Char × Syntax))
      (h : Site fields left held s depth plug) :
      Site fields left held (.record label outer) (depth + 1)
        fun ms => .object (before ++ (key, plug ms) :: after)
  /-- Inside a record whose members are given in order. -/
  | position {τ ρ σ α β : Type} {fields : Fields τ ρ} {left : Nat} {held : Bool} {s : Shape α}
      {depth : Nat} {plug : List (List Char × Syntax) → Syntax} (label : String)
      {outer : Fields σ β} {name : String} {before : List Syntax}
      (hfield : outer.Has before.length name s) (after : List Syntax)
      (h : Site fields left held s depth plug) :
      Site fields left held (.record label outer) (depth + 1)
        fun ms => .list (before ++ plug ms :: after)
  | tagged {τ ρ α β : Type} {fields : Fields τ ρ} {left : Nat} {held : Bool} {s : Shape α}
      {depth : Nat} {plug : List (List Char × Syntax) → Syntax} {choice : Alternatives α β}
      {key : List Char} {make : α → β} (hkey : Syntax.variant? choice key = some (.carrying make))
      (h : Site fields left held s depth plug) :
      Site fields left held (.tagged choice s) (depth + 1) fun ms => .object [(key, plug ms)]
  | keyed {τ ρ α β : Type} {fields : Fields τ ρ} {left : Nat} {held : Bool} {s : Shape α}
      {depth : Nat} {plug : List (List Char × Syntax) → Syntax} {choice : Alternatives α β}
      {key : List Char} {make : α → β} (hkey : Syntax.variant? choice key = some (.carrying make))
      (h : Site fields left held s depth plug) :
      Site fields left held (.keyed choice s) (depth + 1) fun ms => .object [(key, plug ms)]

namespace Json

theorem ofSyntax?_items {α : Type} (s : Shape α) (depth : Nat) (ts : List Syntax) :
    (Shape.list s).ofSyntax? depth (.list ts)
      = below depth fun depth => ts.mapM (s.ofSyntax? depth) := rfl

section Choices

variable {α β : Type} {choice : Alternatives α β} {key : List Char} {make : α → β}

theorem ofSyntax?_tagged (hkey : Syntax.variant? choice key = some (.carrying make)) (s : Shape α)
    (depth : Nat) (t : Syntax) :
    (Shape.tagged choice s).ofSyntax? depth (.object [(key, t)])
      = below depth fun depth => (s.ofSyntax? depth t).map make := by
  rw [Shape.ofSyntax?, hkey, below, below]
  split
  · rfl
  · exact Option.bind_fun_some _

theorem ofSyntax?_keyed (hkey : Syntax.variant? choice key = some (.carrying make)) (s : Shape α)
    (depth : Nat) (t : Syntax) :
    (Shape.keyed choice s).ofSyntax? depth (.object [(key, t)])
      = below depth fun depth => (s.ofSyntax? depth t).map make := by
  rw [Shape.ofSyntax?, hkey]
  exact congrArg _ (funext fun depth => Option.bind_fun_some _)

end Choices

end Json

namespace Site

variable {τ ρ α : Type} {fields : Fields τ ρ} {left : Nat} {held : Bool} {s : Shape α}
  {depth : Nat} {plug : List (List Char × Syntax) → Syntax}

theorem ne_null (h : Site fields left held s depth plug) (ms : List (List Char × Syntax)) :
    plug ms ≠ .null := by
  induction h with
  | view _ _ _ ih => exact ih
  | optional _ ih => exact ih
  | _ => simp

/-- A value depends on the open object through the record that it makes. -/
theorem through (h : Site fields left held s depth plug) :
    Through (fields.ofHeld? held left) fun ms => s.ofSyntax? depth (plug ms) := by
  induction h with
  | here label fields left =>
    simp only [Shape.ofSyntax?_object]
    exact .below _ ((Through.refl _).of_eq fun ms => rfl)
  | slot left =>
    simp only [ofSyntax?_slot]
    refine .below _ (((Through.refl _).map (some ∘ Marker.ofDetails)).of_eq fun ms => ?_)
    simp only [Fields.ofHeld?, Bool.true_and, Nat.add_sub_cancel]
    split <;> rfl
  | view there back h ih => exact ih.map there
  | optional h ih =>
    refine (ih.map some).of_eq fun ms => ?_
    exact Json.ofSyntax?_optional (h.ne_null ms)
  | item before after h ih =>
    simp only [Json.ofSyntax?_items, List.mapM_append, List.mapM_cons]
    exact .below _ (.after _ fun bs => (ih.bind _).bind _)
  | member label hfield hkey before after h ih =>
    simp only [Shape.ofSyntax?_object]
    exact .below _ (ih.trans ((hfield.through_members _ hkey before after).comp _))
  | position label hfield after h ih =>
    simp only [Shape.ofSyntax?_list]
    exact .below _ ((ih.trans ((hfield.through_items _ after rfl).comp _)).bind _)
  | tagged hkey h ih =>
    simp only [Json.ofSyntax?_tagged hkey]
    exact .below _ (ih.map _)
  | keyed hkey h ih =>
    simp only [Json.ofSyntax?_keyed hkey]
    exact .below _ (ih.map _)

end Site

/-! ### Levels -/

/-- The levels down to an open object are levels of the shape. -/
theorem Site.depth_le {τ ρ α : Type} {fields : Fields τ ρ} {left : Nat} {held : Bool} {s : Shape α}
    {depth : Nat} {plug : List (List Char × Syntax) → Syntax}
    (h : Site fields left held s depth plug) : depth ≤ left + s.levels := by
  induction h with
  | here | slot => simp [Shape.levels, markerSlotShape]
  | view _ _ _ ih => simpa [Shape.levels] using ih
  | optional _ ih => simpa [Shape.levels] using ih
  | item | tagged | keyed =>
    simp only [Shape.levels]
    omega
  | member _ hfield | position _ hfield =>
    have := hfield.levels_le
    simp only [Shape.levels]
    omega

end ApiSurface
