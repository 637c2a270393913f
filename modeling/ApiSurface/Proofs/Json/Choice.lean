/-
The two forms of a choice, and a member that is put into an object.

A choice on its own and a choice that is written as a record with one member are read alike, but
for one value: under the name of a bare alternative an object may hold the absent value only in the
first form (`Shape.ofSyntax?_tagged_eq_keyed`). The two forms are met at different depths. That makes
no difference to a value that is nested less deep than the levels that are left
(`Shape.ofSyntax?_within`), because no reader looks at the levels but to go one further down.

* `Shape.ofSyntax?_within` — a value at one depth and at another;
* `Fields.Lens.ofMembers?` — a record with one more member.
-/
import ApiSurface.Proofs.Json.Edits
import ApiSurface.Proofs.Json.MarkerObject

namespace ApiSurface

open Json (Syntax textOf? member?)

/-! ### Levels -/

theorem mapM_congr {ι α : Type} {f g : ι → Option α} {l : List ι} (h : ∀ a ∈ l, f a = g a) :
    l.mapM f = l.mapM g := by
  induction l with
  | nil => rfl
  | cons a l ih =>
    obtain ⟨ha, hl⟩ := List.forall_mem_cons.mp h
    rw [List.mapM_cons, List.mapM_cons, ha, ih hl]

namespace Json

/-- Whether a value is nested at most to a depth. -/
inductive Syntax.Within : Nat → Syntax → Prop
  | null {n : Nat} : Within n .null
  | bool {n : Nat} (b : Bool) : Within n (.bool b)
  | number {n : Nat} (spelling : List Char) : Within n (.number spelling)
  | text {n : Nat} (body : List Char) : Within n (.text body)
  | list {n : Nat} {ts : List Syntax} (h : ∀ t ∈ ts, Within n t) : Within (n + 1) (.list ts)
  | object {n : Nat} {ms : List (List Char × Syntax)} (h : ∀ m ∈ ms, Within n m.2) :
      Within (n + 1) (.object ms)

section Levels

variable {n depth depth' : Nat}

theorem contents?_congr {ts : List Syntax} (h : ∀ t ∈ ts, t.content? depth = t.content? depth') :
    contents? ts depth = contents? ts depth' := by
  rw [← Reader.mapM_content?, ← Reader.mapM_content?]
  exact mapM_congr h

theorem entries?_congr {ms : List (List Char × Syntax)}
    (h : ∀ m ∈ ms, m.2.content? depth = m.2.content? depth') :
    entries? ms depth = entries? ms depth' := by
  induction ms with
  | nil => rfl
  | cons m ms ih =>
    obtain ⟨key, t⟩ := m
    obtain ⟨ht, hms⟩ := List.forall_mem_cons.mp h
    rw [entries?, entries?, ht, ih hms]

/-- The content of a value depends on the levels that are left only if they are too few. -/
theorem Syntax.Within.content? {t : Syntax} (h : t.Within n) (hd : n < depth) (hd' : n < depth') :
    t.content? depth = t.content? depth' := by
  obtain ⟨d, rfl⟩ := Nat.exists_eq_add_one.mpr (show 0 < depth by omega)
  obtain ⟨d', rfl⟩ := Nat.exists_eq_add_one.mpr (show 0 < depth' by omega)
  induction h generalizing d d' with
  | null | bool | number | text => rfl
  | list _ ih =>
    obtain ⟨d, rfl⟩ := Nat.exists_eq_add_one.mpr (show 0 < d by omega)
    obtain ⟨d', rfl⟩ := Nat.exists_eq_add_one.mpr (show 0 < d' by omega)
    rw [Syntax.content?, Syntax.content?, if_neg (by simp), if_neg (by simp),
      contents?_congr fun t ht => ih t ht d (by omega) d' (by omega)]
  | object _ ih =>
    obtain ⟨d, rfl⟩ := Nat.exists_eq_add_one.mpr (show 0 < d by omega)
    obtain ⟨d', rfl⟩ := Nat.exists_eq_add_one.mpr (show 0 < d' by omega)
    rw [Syntax.content?, Syntax.content?, if_neg (by simp), if_neg (by simp),
      entries?_congr fun m hm => ih m hm d (by omega) d' (by omega)]

/-- Going one level down is alike wherever levels are left. -/
theorem below_congr {α : Type} {f : Nat → Option α} (hd : 1 < depth) (hd' : 1 < depth')
    (h : f (depth - 1) = f (depth' - 1)) : below depth f = below depth' f := by
  rw [below, below, if_neg (by omega), if_neg (by omega), h]

end Levels

end Json

section Levels

variable {n depth depth' : Nat}

theorem Fields.putMembers?_congr {σ α : Type} {fields : Fields σ α} {ms : List (List Char × Syntax)}
    (h : ∀ m ∈ ms, ∀ slots key,
      fields.putMember? depth slots key m.2 = fields.putMember? depth' slots key m.2) (slots : σ) :
    fields.putMembers? depth slots ms = fields.putMembers? depth' slots ms := by
  induction ms generalizing slots with
  | nil => rfl
  | cons m ms ih =>
    obtain ⟨hm, hms⟩ := List.forall_mem_cons.mp h
    rw [putMembers?_cons, putMembers?_cons]
    simp only [hm, ih hms]

/-- The choice that an alternative makes: a bare one as it may stand, another one of its value. -/
def Variant.make? {α β : Type} (bare : β → Option β) (value : Option α) : Variant α β → Option β
  | .bare b => bare b
  | .carrying make => value.map make

section Choices

variable {α β : Type} (choice : Alternatives α β) (s : Shape α) (depth : Nat) (key : List Char)
  (value : Syntax) (more : List (List Char × Syntax))

/-- In its own form a choice takes an object whose bare alternative holds the absent value. -/
theorem Shape.ofSyntax?_tagged :
    (Shape.tagged choice s).ofSyntax? depth (.object ((key, value) :: more))
      = (Json.below depth fun depth => (Syntax.variant? choice key).bind
        (Variant.make? (fun b => value.null?.map fun _ => b) (s.ofSyntax? depth value))).bind
          fun b => if more.isEmpty then some b else none := by
  rw [Shape.ofSyntax?]
  refine congrArg (Option.bind · _) (congrArg (Json.below depth) (funext fun depth => ?_))
  refine congrArg _ (funext fun v => ?_)
  cases v <;> rfl

/-- In the form of a record a choice takes no object with a bare alternative. -/
theorem Shape.ofSyntax?_keyed :
    (Shape.keyed choice s).ofSyntax? depth (.object ((key, value) :: more))
      = Json.below depth fun depth => ((Syntax.variant? choice key).bind
        (Variant.make? (fun _ => none) (s.ofSyntax? depth value))).bind
          fun b => if more.isEmpty then some b else none := by
  rw [Shape.ofSyntax?]
  refine congrArg (Json.below depth) (funext fun depth => congrArg (Option.bind · _) ?_)
  refine congrArg _ (funext fun v => ?_)
  cases v <;> rfl

end Choices

mutual

/-- What a value stands for depends on the levels that are left only if they are too few. -/
theorem Shape.ofSyntax?_within : {α : Type} → (s : Shape α) → {n depth depth' : Nat} →
    {t : Syntax} → t.Within n → n < depth → n < depth' → s.ofSyntax? depth t = s.ofSyntax? depth' t
  | _, .text, _, _, _, _, _, _, _ => rfl
  | _, .flag, _, _, _, _, _, _, _ => rfl
  | _, .nothing, _, _, _, _, _, _, _ => rfl
  | _, .optional s, _, _, _, t, h, hd, hd' => by
    by_cases hnull : t = .null
    · rw [hnull]
      rfl
    · rw [Json.ofSyntax?_optional hnull, Json.ofSyntax?_optional hnull,
        Shape.ofSyntax?_within s h hd hd']
  | _, .list item, _, depth, depth', _, h, hd, hd' => by
    cases h with
    | @list n ts h =>
      -- the items are one level further down, on both sides
      have low : n < depth - 1 ∧ n < depth' - 1 := by omega
      refine Json.below_congr (f := fun depth => ts.mapM (item.ofSyntax? depth ·))
        (show 1 < depth by omega) (show 1 < depth' by omega) ?_
      exact mapM_congr fun t ht => Shape.ofSyntax?_within item (h t ht) low.1 low.2
    | _ => rfl
  | _, .record _ fields, _, depth, depth', _, h, hd, hd' => by
    cases h with
    | @list n ts h =>
      have low : n < depth - 1 ∧ n < depth' - 1 := by omega
      rw [Shape.ofSyntax?_list, Shape.ofSyntax?_list]
      refine Json.below_congr (by omega) (by omega) ?_
      rw [Fields.ofItems?_within fields h low.1 low.2]
    | @object n ms h =>
      have low : n < depth - 1 ∧ n < depth' - 1 := by omega
      have hmembers : fields.putMembers? (depth - 1) fields.empty ms
          = fields.putMembers? (depth' - 1) fields.empty ms :=
        Fields.putMembers?_congr (fun m hm slots key =>
          Fields.putMember?_within fields (h m hm) low.1 low.2 slots key) _
      rw [Shape.ofSyntax?_object, Shape.ofSyntax?_object]
      refine Json.below_congr (by omega) (by omega) ?_
      rw [Fields.ofMembers?, Fields.ofMembers?, hmembers]
    | _ => rfl
  | _, .tagged choice s, _, depth, depth', _, h, hd, hd' => by
    cases h with
    | @object n ms h =>
      cases ms with
      | nil => rfl
      | cons m more =>
        obtain ⟨key, value⟩ := m
        have low : n < depth - 1 ∧ n < depth' - 1 := by omega
        have hvalue := Shape.ofSyntax?_within s (h _ List.mem_cons_self) low.1 low.2
        rw [Shape.ofSyntax?_tagged, Shape.ofSyntax?_tagged]
        refine congrArg (Option.bind · _) (Json.below_congr (show 1 < depth by omega)
          (show 1 < depth' by omega) ?_)
        rw [hvalue]
    | _ => rfl
  | _, .keyed choice s, _, depth, depth', _, h, hd, hd' => by
    cases h with
    | @object n ms h =>
      cases ms with
      | nil => rfl
      | cons m more =>
        obtain ⟨key, value⟩ := m
        have low : n < depth - 1 ∧ n < depth' - 1 := by omega
        have hvalue := Shape.ofSyntax?_within s (h _ List.mem_cons_self) low.1 low.2
        rw [Shape.ofSyntax?_keyed, Shape.ofSyntax?_keyed]
        refine Json.below_congr (by omega) (by omega) ?_
        rw [hvalue]
    | _ => rfl
  | _, .buffered _ _, _, _, _, _, h, hd, hd' => by
    rw [Shape.ofSyntax?, Shape.ofSyntax?, h.content? hd hd']
  | _, .view _ _ s, _, _, _, _, h, hd, hd' => by
    rw [Shape.ofSyntax?, Shape.ofSyntax?, Shape.ofSyntax?_within s h hd hd']

theorem Fields.putMember?_within : {σ α : Type} → (fields : Fields σ α) → {n depth depth' : Nat} →
    {t : Syntax} → t.Within n → n < depth → n < depth' → (slots : σ) → (key : String) →
    fields.putMember? depth slots key t = fields.putMember? depth' slots key t
  | _, _, .nil, _, _, _, _, _, _, _, (), _ => rfl
  | _, _, .cons field s rest, _, _, _, _, h, hd, hd', (slot, slots), key => by
    have hs := Shape.ofSyntax?_within s h hd hd'
    have hrest := Fields.putMember?_within rest h hd hd' slots key
    cases slot with
    | none => rw [Fields.putMember?, Fields.putMember?, hs, hrest]
    | some a => rw [Fields.putMember?, Fields.putMember?, hrest]

theorem Fields.ofItems?_within : {σ α : Type} → (fields : Fields σ α) → {n depth depth' : Nat} →
    {ts : List Syntax} → (∀ t ∈ ts, t.Within n) → n < depth → n < depth' →
    fields.ofItems? depth ts = fields.ofItems? depth' ts
  | _, _, .nil, _, _, _, _, _, _, _ => rfl
  | _, _, .cons field s rest, _, _, _, ts, h, hd, hd' => by
    cases ts with
    | nil => rw [Fields.ofItems?, Fields.ofItems?, Fields.ofItems?_within rest h hd hd']
    | cons t ts =>
      obtain ⟨ht, hts⟩ := List.forall_mem_cons.mp h
      rw [Fields.ofItems?, Fields.ofItems?, Shape.ofSyntax?_within s ht hd hd',
        Fields.ofItems?_within rest hts hd hd']

end

end Levels

/-! ### The two forms -/

section Forms

variable {α β : Type} {choice : Alternatives α β} {s : Shape α} {depth : Nat} {t : Syntax}

/-- An object that holds the absent value under the name of a bare alternative is a choice in its
own form only. -/
theorem Shape.ofSyntax?_bare_object {key : List Char} {b : β}
    (hb : Syntax.variant? choice key = some (.bare b)) (hd : 1 < depth) :
    (Shape.tagged choice s).ofSyntax? depth (.object [(key, .null)]) = some b ∧
      (Shape.keyed choice s).ofSyntax? depth (.object [(key, .null)]) = none := by
  rw [Shape.ofSyntax?_tagged, Shape.ofSyntax?_keyed, Json.below, Json.below,
    if_neg (Nat.not_le.mpr hd), if_neg (Nat.not_le.mpr hd), hb]
  exact ⟨rfl, rfl⟩

/-- Any other value is the same choice in both forms, or none in either. -/
theorem Shape.ofSyntax?_tagged_eq_keyed
    (h : ∀ key b, Syntax.variant? choice key = some (.bare b) → t ≠ .object [(key, .null)]) :
    (Shape.tagged choice s).ofSyntax? depth t = (Shape.keyed choice s).ofSyntax? depth t := by
  cases t with
  | object ms =>
    cases ms with
    | nil => rfl
    | cons m more =>
      obtain ⟨key, value⟩ := m
      rw [Shape.ofSyntax?_tagged, Shape.ofSyntax?_keyed, Json.below, Json.below]
      by_cases hlow : depth ≤ 1
      · rw [if_pos hlow, if_pos hlow]
        rfl
      · rw [if_neg hlow, if_neg hlow]
        cases hv : Syntax.variant? choice key with
        | none => rfl
        | some v =>
          cases v with
          | carrying make => rfl
          | bare b =>
            -- Under a bare name there is something else than the absent value, or more after it.
            have hother := h key b hv
            cases value with
            | null =>
              cases more with
              | nil => exact absurd rfl hother
              | cons _ _ => rfl
            | _ => rfl
  | _ => rfl

end Forms

/-! ### One more member -/

section Members

variable {σ α : Type} {fields : Fields σ α} {depth : Nat} {ms : List (List Char × Syntax)} {a : α}

/-- The members of an object that makes a record have their names once. -/
theorem Fields.once_of_ofMembers? (h : fields.ofMembers? depth ms = some a) {name : String}
    (known : name ∈ fields.names) : Json.Once name ms := by
  rw [Json.Once, List.pairwise_iff_forall_sublist]
  intro m m' hsub hm hm'
  obtain ⟨rest, hperm⟩ := hsub.exists_perm_append
  rw [ofMembers?_perm hperm, List.cons_append, List.cons_append, List.nil_append,
    ofMembers?_repeated hm hm' known] at h
  cases h

/-- A member under the name of a missing one gives the field its value, if it has any. -/
theorem Fields.Lens.ofMembers? {β : Type} {field : Field β} {s : Shape β} {get : α → β}
    {set : β → α → α} (lens : fields.Lens field s get set) (nodup : fields.names.Nodup)
    (once : ∀ name ∈ fields.names, Json.Once name ms) (absent : member? field.name ms = none)
    (hread : fields.ofMembers? depth ms = some a) {key : List Char}
    (hkey : textOf? key = some field.name) (t : Syntax) :
    fields.ofMembers? depth ((key, t) :: ms) = (s.ofSyntax? depth t).map (set · a) := by
  induction lens with
  | @head α σ β field s rest =>
    obtain ⟨fresh, -⟩ := List.nodup_cons.mp nodup
    have honce := once field.name List.mem_cons_self
    obtain ⟨-, hrest⟩ := Json.of_ofMembers?_cons fresh honce hread
    -- the member takes the place of the missing one, so the name still stands once
    have honce' : Json.Once field.name ((key, t) :: ms) :=
      List.pairwise_cons.mpr ⟨fun m hm _ => Json.member?_eq_none.mp absent m hm, honce⟩
    rw [Json.ofMembers?_cons fresh honce', Json.member?_cons_self hkey, Option.elim_some,
      ofMembers?_unknown hkey fresh, hrest]
    exact Option.map_eq_bind.symm
  | @tail α σ β γ field s rest field' s' get set other _ ih =>
    obtain ⟨fresh, nodup⟩ := List.nodup_cons.mp nodup
    have honce := once field.name List.mem_cons_self
    -- the member is of a later field, so the first one is as it was
    have hother : textOf? key ≠ some field.name := by
      rw [hkey]
      exact fun h => other (Option.some.inj h)
    obtain ⟨hvalue, hrest⟩ := Json.of_ofMembers?_cons fresh honce hread
    have honce' : Json.Once field.name ((key, t) :: ms) :=
      List.pairwise_cons.mpr ⟨fun m _ hm => absurd hm hother, honce⟩
    have ih := ih nodup (fun name hname => once name (List.mem_cons_of_mem _ hname)) absent hrest
      hkey
    rw [Json.ofMembers?_cons fresh honce', Json.member?_cons_other hother, hvalue, Option.bind_some,
      ih, Option.map_map]
    rfl

end Members

end ApiSurface
