/-
Records whose fields occur at most once.

Members are put into the slots of a record one after the other (`Fields.make?`, for the members of
either language). Where the first field occurs once, its value comes from that member alone and the
other members make the record of the other fields (`make?_cons`); so by induction on the fields
every field is read by itself.
-/
import ApiSurface.Proofs.Wire.Kept
import ApiSurface.Wire.Schema

namespace ApiSurface

/-- How the members of some language are read: their names, and their values by shape. -/
structure MemberReading (μ : Type) where
  name : μ → Option String
  value : {α : Type} → Shape α → μ → Option α

namespace MemberReading

variable {μ : Type} (r : MemberReading μ)

/-- The first member of a name. -/
def find? (name : String) (ms : List μ) : Option μ := ms.find? fun m => r.name m = some name

/-- Whether at most one member has a name. -/
def Once (name : String) (ms : List μ) : Prop :=
  ms.Pairwise fun m m' => r.name m = some name → r.name m' ≠ some name

variable {r} {name : String} {m : μ} {ms : List μ}

theorem find?_eq_none : r.find? name ms = none ↔ ∀ m ∈ ms, r.name m ≠ some name := by
  simp [find?, List.find?_eq_none]

theorem find?_self (h : r.name m = some name) : r.find? name (m :: ms) = some m := by
  simp [find?, h]

theorem find?_other (h : r.name m ≠ some name) : r.find? name (m :: ms) = r.find? name ms := by
  simp [find?, h]

/-- After the member of a name there is no other one. -/
theorem Once.find?_eq_none (once : r.Once name (m :: ms)) (h : r.name m = some name) :
    r.find? name ms = none :=
  MemberReading.find?_eq_none.mpr fun m' hm' => (List.pairwise_cons.mp once).1 m' hm' h

end MemberReading

/-- Whether a record has a field, and how the value of the field is got and replaced. -/
inductive Fields.Lens : {σ α β : Type} → Fields σ α → Field β → Shape β → (α → β) →
    (β → α → α) → Prop
  | head {α σ β : Type} {field : Field α} {s : Shape α} {rest : Fields σ β} :
      Lens (.cons field s rest) field s (·.1) fun a r => (a, r.2)
  | tail {α σ β γ : Type} {field : Field α} {s : Shape α} {rest : Fields σ β} {field' : Field γ}
      {s' : Shape γ} {get : β → γ} {set : γ → β → β} (other : field'.name ≠ field.name)
      (h : Lens rest field' s' get set) :
      Lens (.cons field s rest) field' s' (fun r => get r.2) fun c r => (r.1, set c r.2)

namespace Fields

variable {μ : Type} {r : MemberReading μ}

/-- The slots with a member put into its own, which has to be empty. -/
def put (r : MemberReading μ) : {σ α : Type} → Fields σ α → σ → String → μ → Option σ
  | _, _, .nil, (), _, _ => some ()
  | _, _, .cons field s rest, (slot, slots), name, m =>
    if name = field.name then
      match slot with
      | some _ => none
      | none => (r.value s m).map (some ·, slots)
    else (rest.put r slots name m).map (slot, ·)

/-- The slots with members put into them, one after the other. -/
def fill? {σ α : Type} (fields : Fields σ α) (r : MemberReading μ) (slots : σ) (ms : List μ) :
    Option σ :=
  ms.foldlM (fun slots m => (r.name m).bind fun name => fields.put r slots name m) slots

/-- The record that members make. -/
def make? {σ α : Type} (fields : Fields σ α) (r : MemberReading μ) (ms : List μ) : Option α :=
  (fields.fill? r fields.empty ms).bind fun slots => (fields.finish slots).toOption

theorem fill?_cons {σ α : Type} (fields : Fields σ α) (slots : σ) (m : μ) (ms : List μ) :
    fields.fill? r slots (m :: ms) = (r.name m).bind fun name =>
      (fields.put r slots name m).bind fun slots => fields.fill? r slots ms :=
  Option.bind_assoc _ _ _

theorem put_unknown : {σ α : Type} → (fields : Fields σ α) → (slots : σ) → {name : String} →
    (m : μ) → name ∉ fields.names → fields.put r slots name m = some slots
  | _, _, .nil, (), _, _, _ => rfl
  | _, _, .cons field _ rest, (slot, slots), name, m, h => by
    obtain ⟨hname, hrest⟩ : name ≠ field.name ∧ name ∉ rest.names := by simpa [names] using h
    cases slot <;>
    · rw [put, if_neg hname, rest.put_unknown slots m hrest]
      rfl

section Cons

variable {α β σ : Type} {field : Field α} {s : Shape α} {rest : Fields σ β} {name : String} {m : μ}
  {ms : List μ}

theorem put_other (h : name ≠ field.name) (slot : Option α) (slots : σ) :
    (Fields.cons field s rest).put r (slot, slots) name m
      = (rest.put r slots name m).map (slot, ·) := by
  cases slot <;> rw [put, if_neg h]

/-- Members of other names leave the first slot as it is. -/
theorem fill?_absent (h : r.find? field.name ms = none) (slot : Option α) (slots : σ) :
    (Fields.cons field s rest).fill? r (slot, slots) ms
      = (rest.fill? r slots ms).map (slot, ·) := by
  induction ms generalizing slots with
  | nil => rfl
  | cons m ms ih =>
    rw [fill?_cons, fill?_cons]
    cases hname : r.name m with
    | none => rfl
    | some name =>
      have hother : name ≠ field.name := by
        rintro rfl
        rw [MemberReading.find?_self hname] at h
        cases h
      rw [MemberReading.find?_other (by simpa [hname] using hother)] at h
      rw [Option.bind_some, Option.bind_some, put_other hother]
      cases rest.put r slots name m with
      | none => rfl
      | some slots => exact ih h slots

/-- The first slot takes the value of the member with the name of its field. -/
theorem fill?_present (fresh : field.name ∉ rest.names) (once : r.Once field.name ms)
    (h : r.find? field.name ms = some m) (slots : σ) :
    (Fields.cons field s rest).fill? r (none, slots) ms
      = (r.value s m).bind fun a => (rest.fill? r slots ms).map (some a, ·) := by
  induction ms generalizing slots with
  | nil => cases h
  | cons m' ms ih =>
    rw [fill?_cons, fill?_cons]
    cases hname : r.name m' with
    | none => exact (Option.bind_fun_none _).symm
    | some name =>
      rw [Option.bind_some, Option.bind_some]
      by_cases hself : name = field.name
      · subst hself
        obtain rfl : m' = m := by simpa [MemberReading.find?_self hname] using h
        rw [put, if_pos rfl, put_unknown rest slots m' fresh, Option.bind_map]
        exact congrArg _ (funext fun a => fill?_absent (once.find?_eq_none hname) _ _)
      · rw [MemberReading.find?_other (by simpa [hname] using hself)] at h
        rw [put_other hself]
        cases rest.put r slots name m' with
        | none => exact (Option.bind_fun_none _).symm
        | some slots => exact ih (List.pairwise_cons.mp once).2 h slots

/-- The first field is read by itself, from the member of its name or by its default. -/
theorem make?_cons (fresh : field.name ∉ rest.names) (once : r.Once field.name ms) :
    (Fields.cons field s rest).make? r ms
      = ((r.find? field.name ms).elim field.default (r.value s)).bind fun a =>
        (rest.make? r ms).map (a, ·) := by
  have hfinish (slot : Option α) (slots : σ) :
      ((Fields.cons field s rest).finish (slot, slots)).toOption
        = (slot <|> field.default).bind fun a =>
          (rest.finish slots).toOption.map (a, ·) := by
    rw [finish]
    cases slot <|> field.default <;> cases rest.finish slots <;> rfl
  rw [make?, make?, empty]
  cases hfind : r.find? field.name ms with
  | none =>
    rw [fill?_absent hfind, Option.bind_map]
    simp only [Function.comp_def, hfinish, Option.elim_none]
    cases rest.fill? r rest.empty ms with
    | none => exact (Option.bind_fun_none _).symm
    | some slots => rfl
  | some m =>
    rw [fill?_present fresh once hfind, Option.elim_some, Option.bind_assoc]
    refine congrArg _ (funext fun a => ?_)
    rw [Option.bind_map]
    simp only [Function.comp_def, hfinish]
    cases rest.fill? r rest.empty ms <;> rfl

end Cons

/-- A record without fields takes any members with readable names. -/
theorem make?_nil {ms : List μ} (h : ∀ m ∈ ms, (r.name m).isSome) : Fields.nil.make? r ms = some () := by
  have hfill : Fields.nil.fill? r () ms = some () := by
    induction ms with
    | nil => rfl
    | cons m ms ih =>
      obtain ⟨hm, hms⟩ := List.forall_mem_cons.mp h
      obtain ⟨name, hname⟩ := Option.isSome_iff_exists.mp hm
      rw [fill?_cons, hname, Option.bind_some, put, Option.bind_some, ih hms]
  rw [make?]
  exact (congrArg (Option.bind · _) hfill).trans rfl

end Fields

namespace SourceElement

/-- The members of an element. -/
def fields : Fields (Option String × Option (Option Marker) × Unit)
    (String × Option Marker × Unit) :=
  .cons (.required "name") .text (.cons (.optional "deprecated") markerSlotShape .nil)

/-- An element has its name and the marker of its slot, whatever its other members are. -/
theorem make?_fields {μ : Type} {r : MemberReading μ} {m : μ} {ms : List μ} {name : String}
    (keys : ∀ m ∈ ms, (r.name m).isSome) (once : ∀ field ∈ fields.names, r.Once field ms)
    (hname : r.find? "name" ms = some m) (hvalue : r.value .text m = some name) :
    fields.make? r ms
      = ((r.find? "deprecated" ms).elim (some none) (r.value markerSlotShape)).map (name, ·, ()) := by
  rw [fields, Fields.make?_cons (by decide) (once _ (by decide)),
    Fields.make?_cons (by decide) (once _ (by decide)), Fields.make?_nil keys]
  show (((r.find? "name" ms).elim none (r.value .text)).bind _) = _
  rw [hname, Option.elim_some, hvalue, Option.bind_some]
  show (((r.find? "deprecated" ms).elim (some none) _).bind _).map _ = _
  cases (r.find? "deprecated" ms).elim (some none) (r.value markerSlotShape) <;> rfl

end SourceElement

end ApiSurface
