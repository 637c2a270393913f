/-
Values that differ in some of their markers only.

`Spots` says which markers in a value are meant, and `Shape.Apart R s p a a'` that the markers of
`a` and `a'` at the spots `p` are related by `R` and all the rest is equal. A record is put together
from slots, so slots differ in the same way on the way there (`Fields.SlotsApart`).
-/
import ApiSurface.Proofs.Wire.Levels
import Mathlib.Logic.Function.Basic

namespace ApiSurface

/-- Some of the markers in a value. -/
inductive Spots where
  | none
  /-- The marker that the value itself is. -/
  | here
  /-- Some in the first item of a list, and some in the others. -/
  | items (head tail : Spots)
  /-- Some in the fields of a record, by position. -/
  | fields (spot : Nat → Spots)

/-- Whether there is any marker among some. -/
inductive Spots.Any : Spots → Prop
  | here : Any .here
  | head {p q : Spots} (h : p.Any) : Any (.items p q)
  | tail {p q : Spots} (h : q.Any) : Any (.items p q)
  | field {f : Nat → Spots} (i : Nat) (h : (f i).Any) : Any (.fields f)

mutual

/-- Whether two values of a shape are equal but for some markers, which are related. -/
inductive Shape.Apart (R : Marker → Marker → Prop) : {α : Type} → Shape α → Spots → α → α → Prop
  | same {α : Type} {s : Shape α} (a : α) : Shape.Apart R s .none a a
  | marker {m m' : Marker} (h : R m m') : Shape.Apart R markerSlotShape .here (some m) (some m')
  | view {α β : Type} {s : Shape α} {p : Spots} {a a' : α} (there : α → β) (back : β → α)
      (h : Shape.Apart R s p a a') : Shape.Apart R (.view there back s) p (there a) (there a')
  | optional {α : Type} {s : Shape α} {p : Spots} {a a' : α} (h : Shape.Apart R s p a a') :
      Shape.Apart R (.optional s) p (some a) (some a')
  | item {α : Type} {s : Shape α} {p q : Spots} {a a' : α} {as as' : List α}
      (h : Shape.Apart R s p a a') (hs : Shape.Apart R (.list s) q as as') :
      Shape.Apart R (.list s) (.items p q) (a :: as) (a' :: as')
  | record {σ α : Type} {fields : Fields σ α} {f : Nat → Spots} {a a' : α} (label : String)
      (h : fields.Apart R f a a') : Shape.Apart R (.record label fields) (.fields f) a a'
  | keyed {α β : Type} {s : Shape α} {p : Spots} {a a' : α} {choice : Alternatives α β}
      {name : String} {make : α → β} (hmake : choice.variants.lookup name = some (.carrying make))
      (h : Shape.Apart R s p a a') : Shape.Apart R (.keyed choice s) p (make a) (make a')

/-- Whether two records are equal but for some markers, which are related. -/
inductive Fields.Apart (R : Marker → Marker → Prop) : {σ α : Type} → Fields σ α → (Nat → Spots) →
    α → α → Prop
  | nil {f : Nat → Spots} : Fields.Apart R .nil f () ()
  | cons {α σ β : Type} {field : Field α} {s : Shape α} {rest : Fields σ β} {f : Nat → Spots}
      {a a' : α} {b b' : β} (h : s.Apart R (f 0) a a')
      (hs : rest.Apart R (fun i => f (i + 1)) b b') :
      Fields.Apart R (.cons field s rest) f (a, b) (a', b')

end

/-- Whether two slots are equal but for some markers, which are related. -/
inductive Shape.SlotApart (R : Marker → Marker → Prop) {α : Type} (s : Shape α) (p : Spots) :
    Option α → Option α → Prop
  | missing (h : p = .none) : SlotApart R s p none none
  | filled {a a' : α} (h : s.Apart R p a a') : SlotApart R s p (some a) (some a')

/-- Whether the slots of two records are equal but for some markers, which are related. -/
def Fields.SlotsApart (R : Marker → Marker → Prop) : {σ α : Type} → Fields σ α → (Nat → Spots) →
    σ → σ → Prop
  | _, _, .nil, _, _, _ => True
  | _, _, .cons _ s rest, f, (slot, slots), (slot', slots') =>
    s.SlotApart R (f 0) slot slot' ∧ rest.SlotsApart R (fun i => f (i + 1)) slots slots'

namespace Fields

variable {R : Marker → Marker → Prop}

theorem slotsApart_empty : {σ α : Type} → (fields : Fields σ α) →
    fields.SlotsApart R (fun _ => .none) fields.empty fields.empty
  | _, _, .nil => trivial
  | _, _, .cons _ _ rest => ⟨.missing rfl, slotsApart_empty rest⟩

theorem finish_cons {α σ β : Type} {field : Field α} {s : Shape α} {rest : Fields σ β}
    (slot : Option α) (slots : σ) :
    ((cons field s rest).finish (slot, slots)).toOption
      = (slot <|> field.default).bind fun a => (rest.finish slots).toOption.map (a, ·) := by
  rw [finish]
  cases slot <;> cases field.default <;> cases rest.finish slots <;> rfl

/-- Records differ where their slots do, as a missing member has the same default in both. -/
theorem SlotsApart.finish : {σ α : Type} → {fields : Fields σ α} → {f : Nat → Spots} →
    {slots slots' : σ} → fields.SlotsApart R f slots slots' → {a : α} →
    (fields.finish slots).toOption = some a →
    ∃ a', (fields.finish slots').toOption = some a' ∧ fields.Apart R f a a'
  | _, _, .nil, _, (), (), _, a, ha => ⟨a, ha, .nil⟩
  | _, _, .cons field s rest, f, (slot, slots), (slot', slots'), h, a, ha => by
    obtain ⟨hslot, hslots⟩ := h
    rw [finish_cons] at ha ⊢
    obtain ⟨x, hx, ha⟩ := Option.bind_eq_some_iff.mp ha
    obtain ⟨b, hb, rfl⟩ := Option.map_eq_some_iff.mp ha
    obtain ⟨b', hb', happart⟩ := SlotsApart.finish hslots hb
    have hvalue : ∃ x', (slot' <|> field.default) = some x' ∧ s.Apart R (f 0) x x' := by
      cases hslot with
      | missing h => exact ⟨x, hx, h ▸ .same x⟩
      | filled h =>
        cases hx
        exact ⟨_, rfl, h⟩
    obtain ⟨x', hx', hapart⟩ := hvalue
    exact ⟨(x', b'), by rw [hx', hb']; rfl, .cons hapart happart⟩

end Fields

end ApiSurface
