/-
The fields of a record, and the levels of nesting that a shape has.

A reader goes at most as many levels down as the shape has (`Shape.levels`) before it reads values of
any kind, so whoever knows the limit knows what is left for those.
-/
import ApiSurface.Wire.Schema

namespace ApiSurface

/-- Whether a record has a field of a shape at a position and under a name. -/
inductive Fields.Has : {σ α β : Type} → Fields σ α → Nat → String → Shape β → Prop
  | head {α σ β : Type} {field : Field α} {s : Shape α} {rest : Fields σ β} :
      Has (.cons field s rest) 0 field.name s
  | tail {α σ β γ : Type} {field : Field α} {s : Shape α} {rest : Fields σ β} {i : Nat}
      {name : String} {s' : Shape γ} (other : name ≠ field.name) (h : Has rest i name s') :
      Has (.cons field s rest) (i + 1) name s'

mutual

/-- The levels of nesting at which a shape reads records, at most. -/
def Shape.levels : {α : Type} → Shape α → Nat
  | _, .text => 0
  | _, .flag => 0
  | _, .nothing => 0
  | _, .optional s => s.levels
  | _, .list s => s.levels + 1
  | _, .record _ fields => fields.levels + 1
  | _, .tagged _ s => s.levels + 1
  | _, .keyed _ s => s.levels + 1
  | _, .buffered _ _ => 1
  | _, .view _ _ s => s.levels

/-- The levels of nesting inside the members of a record. -/
def Fields.levels : {σ α : Type} → Fields σ α → Nat
  | _, _, .nil => 0
  | _, _, .cons _ s rest => max s.levels rest.levels

end

theorem Fields.Has.levels_le {σ α β : Type} {fields : Fields σ α} {i : Nat} {name : String}
    {s : Shape β} (h : fields.Has i name s) : s.levels ≤ fields.levels := by
  induction h with
  | head => exact Nat.le_max_left _ _
  | tail _ _ ih => exact Nat.le_trans ih (Nat.le_max_right _ _)

theorem Model.levels_shape : Model.shape.levels = 8 := by
  rfl

end ApiSurface
