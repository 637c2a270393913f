/-
The members of an object that make a record.

The members are put into slots one after the other, and two of them in either order
(`putMember?_comm`), so an object is a record whatever the order of its members. A member with a name
that the record does not have changes nothing, a member with the default of its field may be left
out, and no slot takes two members.
-/
import ApiSurface.Proofs.Json.Meaning
import ApiSurface.Proofs.Wire.Kept

namespace ApiSurface.Fields

open Json (Syntax textOf?)

/-! ### One member -/

section Slots

variable {α σ β : Type} {field : Field α} {s : Shape α} {rest : Fields σ β} {depth : Nat}
  {key key' : String}

theorem bind_putMember?_other (h : key ≠ field.name) (slot : Option α) (o : Option σ) (t : Syntax) :
    (o.map (slot, ·)).bind ((Fields.cons field s rest).putMember? depth · key t)
      = (o.bind (rest.putMember? depth · key t)).map (slot, ·) := by
  cases o with
  | none => rfl
  | some slots => exact putMember?_other h slot

/-- The members of two slots are put in in either order. -/
theorem putMember?_comm_same (h : key = field.name) (h' : key' ≠ field.name)
    (slots : Option α × σ) (t t' : Syntax) :
    ((Fields.cons field s rest).putMember? depth slots key t).bind
        ((Fields.cons field s rest).putMember? depth · key' t')
      = ((Fields.cons field s rest).putMember? depth slots key' t').bind
        ((Fields.cons field s rest).putMember? depth · key t) := by
  obtain ⟨slot, slots⟩ := slots
  rw [putMember?_other h']
  cases slot with
  | some a =>
    rw [putMember?_twice h]
    cases rest.putMember? depth slots key' t' with
    | none => rfl
    | some slots' => exact (putMember?_twice h a).symm
  | none =>
    rw [putMember?_same h]
    cases hput : rest.putMember? depth slots key' t' <;> cases hs : s.ofSyntax? depth t <;>
      simp [putMember?_same h, putMember?_other h', hput, hs]

end Slots

/-- Two members are put into their slots in either order. -/
theorem putMember?_comm : {σ α : Type} → (fields : Fields σ α) → (depth : Nat) → (slots : σ) →
    (key key' : String) → (t t' : Syntax) →
    (fields.putMember? depth slots key t).bind (fields.putMember? depth · key' t')
      = (fields.putMember? depth slots key' t').bind (fields.putMember? depth · key t)
  | _, _, .nil, _, (), _, _, _, _ => rfl
  | _, _, .cons field s rest, depth, (slot, slots), key, key', t, t' => by
    by_cases hkey : key = field.name <;> by_cases hkey' : key' = field.name
    · -- Both are members of this slot, which takes one only.
      cases slot with
      | some a =>
        rw [putMember?_twice hkey, putMember?_twice hkey']
        rfl
      | none =>
        rw [putMember?_same hkey, putMember?_same hkey']
        cases s.ofSyntax? depth t <;> cases s.ofSyntax? depth t' <;>
          simp [putMember?_twice hkey, putMember?_twice hkey']
    · exact putMember?_comm_same hkey hkey' _ t t'
    · exact (putMember?_comm_same hkey' hkey _ t' t).symm
    · rw [putMember?_other hkey, putMember?_other hkey', bind_putMember?_other hkey',
        bind_putMember?_other hkey, putMember?_comm rest]

/-- A member of a name that the record does not have changes nothing. -/
theorem putMember?_unknown : {σ α : Type} → (fields : Fields σ α) → (depth : Nat) → (slots : σ) →
    {key : String} → key ∉ fields.names → (t : Syntax) →
    fields.putMember? depth slots key t = some slots
  | _, _, .nil, _, (), _, _, _ => rfl
  | _, _, .cons field s rest, depth, (slot, slots), key, h, t => by
    rw [names, List.mem_cons, not_or] at h
    rw [putMember?_other h.1, putMember?_unknown rest depth slots h.2 t]
    rfl

/-- No slot takes two members. -/
theorem putMember?_repeated : {σ α : Type} → (fields : Fields σ α) → (depth : Nat) → (slots : σ) →
    {key : String} → key ∈ fields.names → (t t' : Syntax) →
    (fields.putMember? depth slots key t).bind (fields.putMember? depth · key t') = none
  | _, _, .nil, _, (), _, h, _, _ => absurd h List.not_mem_nil
  | _, _, .cons field s rest, depth, (slot, slots), key, h, t, t' => by
    by_cases hkey : key = field.name
    · cases slot with
      | some a => rw [putMember?_twice hkey, Option.bind_none]
      | none =>
        rw [putMember?_same hkey]
        cases s.ofSyntax? depth t with
        | none => rfl
        | some a => exact putMember?_twice hkey a
    · have hrest := (List.mem_cons.mp h).resolve_left hkey
      rw [putMember?_other hkey, bind_putMember?_other hkey, putMember?_repeated rest _ _ hrest]
      rfl

/-! ### Defaults -/

/-- Whether a value is the default of the field with a name. -/
def IsDefault : {σ α : Type} → Fields σ α → Nat → String → Syntax → Prop
  | _, _, .nil, _, _, _ => False
  | _, _, .cons field s rest, depth, name, t =>
    if name = field.name then ∃ a, field.default = some a ∧ s.ofSyntax? depth t = some a
    else rest.IsDefault depth name t

/-- Whether slots are others with some defaults taken out. -/
def Lacks : {σ α : Type} → Fields σ α → σ → σ → Prop
  | _, _, .nil, _, _ => True
  | _, _, .cons field _ rest, (slot, slots), (slot', slots') =>
    (slot' = slot ∨ slot' = none ∧ slot = field.default) ∧ rest.Lacks slots slots'

theorem lacks_refl : {σ α : Type} → (fields : Fields σ α) → (slots : σ) → fields.Lacks slots slots
  | _, _, .nil, _ => trivial
  | _, _, .cons _ _ rest, (_, slots) => ⟨.inl rfl, rest.lacks_refl slots⟩

/-- A default that was put into its slot is lacking where it was not. -/
theorem IsDefault.lacks : {σ α : Type} → {fields : Fields σ α} → {depth : Nat} → {name : String} →
    {t : Syntax} → fields.IsDefault depth name t → {slots slots' : σ} →
    fields.putMember? depth slots name t = some slots' → fields.Lacks slots' slots
  | _, _, .nil, _, _, _, h, _, _, _ => h.elim
  | _, _, .cons field s rest, depth, name, t, h, (slot, slots), (slot', slots'), hput => by
    by_cases hname : name = field.name
    · rw [IsDefault, if_pos hname] at h
      obtain ⟨a, hdefault, ha⟩ := h
      cases slot with
      | some b =>
        rw [putMember?_twice hname] at hput
        cases hput
      | none =>
        rw [putMember?_same hname, ha] at hput
        cases hput
        exact ⟨.inr ⟨rfl, hdefault.symm⟩, rest.lacks_refl slots⟩
    · rw [IsDefault, if_neg hname] at h
      rw [putMember?_other hname] at hput
      obtain ⟨mid, hmid, heq⟩ := Option.map_eq_some_iff.mp hput
      cases heq
      exact ⟨.inl rfl, h.lacks hmid⟩

/-- What can be put into slots can be put into slots that lack defaults. -/
theorem Lacks.put : {σ α : Type} → {fields : Fields σ α} → {slots slots' : σ} →
    fields.Lacks slots slots' → {depth : Nat} → {key : String} → {t : Syntax} → {after : σ} →
    fields.putMember? depth slots key t = some after →
    ∃ after', fields.putMember? depth slots' key t = some after' ∧ fields.Lacks after after'
  | _, _, .nil, _, _, _, _, _, _, _, _ => ⟨(), rfl, trivial⟩
  | _, _, .cons field s rest, (slot, slots), (slot', slots'), h, depth, key, t, (after, afters),
      hput => by
    obtain ⟨hslot, hslots⟩ := h
    by_cases hkey : key = field.name
    · cases slot with
      | some a =>
        rw [putMember?_twice hkey] at hput
        cases hput
      | none =>
        obtain rfl : slot' = none := hslot.elim id (·.1)
        rw [putMember?_same hkey] at hput ⊢
        obtain ⟨a, ha, heq⟩ := Option.map_eq_some_iff.mp hput
        cases heq
        exact ⟨(some a, slots'), by rw [ha]; rfl, .inl rfl, hslots⟩
    · rw [putMember?_other hkey] at hput ⊢
      obtain ⟨mid, hmid, heq⟩ := Option.map_eq_some_iff.mp hput
      cases heq
      obtain ⟨mid', hmid', hlacks⟩ := hslots.put hmid
      exact ⟨(slot', mid'), by rw [hmid']; rfl, hslot, hlacks⟩

/-- Defaults that are lacking are filled in. -/
theorem Lacks.finish : {σ α : Type} → {fields : Fields σ α} → {slots slots' : σ} →
    fields.Lacks slots slots' → fields.finish slots = fields.finish slots'
  | _, _, .nil, _, _, _ => rfl
  | _, _, .cons field s rest, (slot, slots), (slot', slots'), h => by
    obtain ⟨hslot, hslots⟩ := h
    have heq : (slot <|> field.default) = (slot' <|> field.default) := by
      obtain rfl | ⟨rfl, rfl⟩ := hslot
      · rfl
      · cases field.default <;> rfl
    rw [Fields.finish, Fields.finish, heq, hslots.finish]

/-! ### All members -/

section Members

variable {α σ : Type} {fields : Fields σ α} {depth : Nat} {slots : σ}
  {ms ms' : List (List Char × Syntax)}

theorem putMembers?_cons (m : List Char × Syntax) :
    fields.putMembers? depth slots (m :: ms)
      = ((textOf? m.1).bind (fields.putMember? depth slots · m.2)).bind
        (fields.putMembers? depth · ms) := List.foldlM_cons

theorem putMembers?_text {m : List Char × Syntax} {key : String} (hkey : textOf? m.1 = some key) :
    fields.putMembers? depth slots (m :: ms)
      = (fields.putMember? depth slots key m.2).bind (fields.putMembers? depth · ms) := by
  rw [putMembers?_cons, hkey, Option.bind_some]

theorem putMembers?_unreadable {m : List Char × Syntax} (hkey : textOf? m.1 = none) :
    fields.putMembers? depth slots (m :: ms) = none := by
  rw [putMembers?_cons, hkey]
  rfl

theorem putMembers?_swap (m m' : List Char × Syntax) :
    fields.putMembers? depth slots (m :: m' :: ms)
      = fields.putMembers? depth slots (m' :: m :: ms) := by
  cases hkey : textOf? m.1 with
  | none =>
    rw [putMembers?_unreadable hkey, putMembers?_cons]
    simp [putMembers?_unreadable hkey]
  | some key =>
    cases hkey' : textOf? m'.1 with
    | none =>
      rw [putMembers?_unreadable hkey', putMembers?_cons]
      simp [putMembers?_unreadable hkey']
    | some key' =>
      simp only [putMembers?_text hkey, putMembers?_text hkey']
      rw [← Option.bind_assoc, ← Option.bind_assoc, putMember?_comm]

/-- The order of the members does not matter. -/
theorem putMembers?_perm (h : ms.Perm ms') (slots : σ) :
    fields.putMembers? depth slots ms = fields.putMembers? depth slots ms' := by
  induction h generalizing slots with
  | nil => rfl
  | cons m _ ih =>
    rw [putMembers?_cons, putMembers?_cons]
    exact congrArg _ (funext ih)
  | trans _ _ ih ih' => rw [ih, ih']
  | swap m m' ms => exact putMembers?_swap m' m

/-- What can be put into slots can be put into slots that lack defaults. -/
theorem Lacks.putMembers {slots slots' after : σ} (h : fields.Lacks slots slots')
    (hput : fields.putMembers? depth slots ms = some after) :
    ∃ after', fields.putMembers? depth slots' ms = some after' ∧ fields.Lacks after after' := by
  induction ms generalizing slots slots' with
  | nil =>
    cases hput
    exact ⟨slots', rfl, h⟩
  | cons m ms ih =>
    rw [putMembers?_cons] at hput ⊢
    obtain ⟨mid, hmid, hrest⟩ := Option.bind_eq_some_iff.mp hput
    obtain ⟨key, hkey, hmember⟩ := Option.bind_eq_some_iff.mp hmid
    obtain ⟨mid', hmember', hlacks⟩ := h.put hmember
    rw [hkey, Option.bind_some, hmember']
    exact ih hlacks hrest

theorem ofMembers?_perm (h : ms.Perm ms') :
    fields.ofMembers? depth ms = fields.ofMembers? depth ms' := by
  rw [ofMembers?, ofMembers?, putMembers?_perm h]

section First

variable {m m' : List Char × Syntax} {key : String} {a : α}

theorem ofMembers?_unknown (hkey : textOf? m.1 = some key) (h : key ∉ fields.names) :
    fields.ofMembers? depth (m :: ms) = fields.ofMembers? depth ms := by
  rw [ofMembers?, putMembers?_text hkey, putMember?_unknown fields depth _ h]
  rfl

/-- A member with the default of its field may be left out. -/
theorem ofMembers?_default (hkey : textOf? m.1 = some key) (h : fields.IsDefault depth key m.2)
    (hread : fields.ofMembers? depth (m :: ms) = some a) : fields.ofMembers? depth ms = some a := by
  rw [ofMembers?, putMembers?_text hkey] at hread
  obtain ⟨after, hput, hfinish⟩ := Option.bind_eq_some_iff.mp hread
  obtain ⟨slots, hmember, hmembers⟩ := Option.bind_eq_some_iff.mp hput
  obtain ⟨after', hput', hlacks⟩ := (h.lacks hmember).putMembers hmembers
  rw [ofMembers?, hput', Option.bind_some, ← hlacks.finish, hfinish]

theorem ofMembers?_repeated (hkey : textOf? m.1 = some key) (hkey' : textOf? m'.1 = some key)
    (h : key ∈ fields.names) : fields.ofMembers? depth (m :: m' :: ms) = none := by
  rw [ofMembers?, putMembers?_text hkey]
  simp only [putMembers?_text hkey']
  rw [← Option.bind_assoc, putMember?_repeated fields depth _ h]
  rfl

end First

end Members

end ApiSurface.Fields
