/-
What is written as JSON is read back.

`reads_read` says so for every shape, layout and kept value, whatever follows the value;
`decode_write` is the case of a whole text, and `Model.parse_render_json` that of a model.

The proof follows the shape. For a record it follows the members: reading the written members one
by one builds up `Fields.filled`, since the key of a member is not the name of an earlier one.
-/
import ApiSurface.Codec
import ApiSurface.Proofs.Json.Reading

namespace ApiSurface.Json

open Reader

section Scalars

variable {l : Layout} (level : Nat)

theorem reads_text (s expected : String) :
    Reads (Reader.text expected) (write l level (.text s)) s := by
  intro bs rest ignored hb _
  have hread := string_quoted s rest ignored
  rw [quoted, List.cons_append] at hread
  rw [Reader.text, write, quoted, List.cons_append, onToken_eq hb (by decide), if_pos rfl, hread]

theorem reads_flag (b : Bool) : Reads Reader.flag (write l level (.bool b)) b := by
  intro bs rest ignored hb _
  cases b <;>
  · rw [Reader.flag, write, List.cons_append, onToken_eq hb (by decide)]
    rfl

theorem reads_optional_none {α : Type} (value : Reader α) :
    Reads (Reader.optional value) (write l level .null) none := by
  intro bs rest ignored hb _
  rw [Reader.optional, write, List.cons_append, bind_ok (peekToken?_eq hb (by decide) ignored)]
  rfl

theorem reads_optional_some {α : Type} {value : Reader α} {t : Tree} {a : α} (ht : t ≠ .null)
    (holds : t.Holds Survives) (h : Reads value (write l level t) a) :
    Reads (Reader.optional value) (write l level t) (some a) := by
  intro bs rest ignored hb hends
  obtain ⟨c, cs, hcs, hc, hn⟩ := exists_write_cons l level holds
  have hread := h [] rest ignored nofun hends
  have hblank : isBlank c = false := by simp_all [startsValue]
  rw [hcs, List.nil_append, List.cons_append] at hread
  rw [Reader.optional, hcs, List.cons_append, bind_ok (peekToken?_eq hb hblank ignored),
    if_neg (by rintro ⟨⟩; exact ht (hn rfl)), bind_ok hread]
  rfl

end Scalars

/-! ### Choices -/

section Choices

variable {α β : Type} {l : Layout} {choice : Alternatives α β} {value : Nat → Reader α}
  {name : String} {depth : Nat}

theorem alternative_ok {key : Reader String} {v : Variant α β} {s s' : State}
    (hk : key s = .ok name s') (hv : choice.variants.lookup name = some v) :
    alternative choice key s = .ok v s' := by
  rw [alternative, bind_ok hk, Alternatives.find, hv]
  rfl

/-- The bare name of an alternative. -/
theorem reads_tagged_bare (level : Nat) {b : β}
    (hv : choice.variants.lookup name = some (.bare b)) :
    Reads (Reader.tagged choice depth value) (write l level (.text name)) b := by
  intro bs rest ignored hb _
  have hread := string_quoted name rest ignored
  rw [quoted, List.cons_append] at hread
  rw [Reader.tagged, write, quoted, List.cons_append, onToken_eq hb (by decide)]
  simp only [Char.reduceEq, ↓reduceIte]
  rw [bind_ok (located_ok (alternative_ok hread hv))]
  rfl

theorem reads_keyed_bare (level : Nat) {b : β}
    (hv : choice.variants.lookup name = some (.bare b)) :
    Reads (Reader.keyed choice depth value) (write l level (.text name)) b := by
  intro bs rest ignored hb _
  have hread := string_quoted name rest ignored
  rw [quoted, List.cons_append] at hread
  rw [Reader.keyed, write, quoted, List.cons_append, onToken_eq hb (by decide)]
  simp only [Char.reduceEq, ↓reduceIte]
  refine located_ok ?_
  rw [bind_ok (alternative_ok hread hv)]
  rfl

/-- An object with the name and the value of an alternative. -/
theorem reads_tagged_carrying (hl : l.IsBlank) (level : Nat) {t : Tree} {a : α} {make : α → β}
    (hv : choice.variants.lookup name = some (.carrying make)) (hd : 1 < depth)
    (h : Reads (value (depth - 1)) (write l (level + 1) t) a) :
    Reads (Reader.tagged choice depth value) (write l level (.tagged name t)) (make a) := by
  intro bs rest ignored hb _
  obtain ⟨cs, hcs, hblank⟩ := hl.colon
  -- The name, the value and the closing brace, each with what comes after it.
  have hkey := reads_text (l := l) level name "variant identifier" (l.newLine (level + 1))
    (':' :: (cs ++ (write l (level + 1) t ++ (l.newLine level ++ '\x7d' :: rest)))) ignored
    (hl.newLine _) (by rintro _ ⟨⟩; rfl)
  have hvalue := h cs (l.newLine level ++ '\x7d' :: rest) ignored hblank
    (ends_of_blank (hl.newLine level) (by rintro _ ⟨⟩; rfl))
  rw [write] at hkey
  rw [Reader.tagged, write, hcs, List.cons_append, onToken_eq hb (by decide), if_pos rfl]
  simp only [List.append_assoc, List.cons_append, List.nil_append] at hkey ⊢
  refine (bind_ok (a := make a) (t := ⟨l.newLine level ++ '\x7d' :: rest, ignored⟩) ?_ _).trans ?_
  · rw [deeper_ok hd, bind_skip, bind_ok (located_ok (alternative_ok hkey hv)),
      bind_ok (colon_cons _ ignored)]
    exact bind_ok hvalue _
  · rw [bind_ok (peekToken?_eq (hl.newLine level) (by decide) ignored)]
    rfl

/-- A record with one member is read as the alternative that the member names. -/
theorem reads_keyed_carrying (hl : l.IsBlank) (level : Nat) {t : Tree} {a : α} {make : α → β}
    (hv : choice.variants.lookup name = some (.carrying make)) (hd : 1 < depth)
    (h : Reads (value (depth - 1)) (write l (level + 1) t) a) :
    Reads (Reader.keyed choice depth value) (write l level (.record [(name, t)])) (make a) := by
  intro bs rest ignored hb _
  obtain ⟨cs, hcs, hblank⟩ := hl.colon
  obtain ⟨bs', htext, hb'⟩ := write_record hl level [(name, t)]
  obtain ⟨qs, hq⟩ : ∃ qs, quoted name = '"' :: qs := ⟨_, rfl⟩
  have hkey := string_quoted name
    (':' :: (cs ++ (write l (level + 1) t ++ (bs' ++ '\x7d' :: rest)))) ignored
  have hvalue := h cs (bs' ++ '\x7d' :: rest) ignored hblank
    (ends_of_blank hb' (by rintro _ ⟨⟩; rfl))
  rw [Reader.keyed, htext, writeMembers_eq, List.cons_append, onToken_eq hb (by decide), if_pos rfl]
  refine located_ok ?_
  rw [deeper_ok hd, bind_skip]
  simp only [membersText, valueText, hcs, hq, List.append_assoc, List.cons_append,
    List.nil_append] at hkey ⊢
  refine closing_ok (a := make a) (t := ⟨'\x7d' :: rest, ignored⟩) ?_ ?_
  · rw [singleMember]
    refine (bind_ok (anotherMember_key hl (level + 1) true _ ignored) _).trans ?_
    rw [if_pos rfl, bind_ok (alternative_ok hkey hv)]
    refine (bind_ok (colon_cons _ ignored) _).trans ?_
    rw [bind_ok hvalue, bind_ok (anotherMember_end false hb' rest ignored)]
    rfl
  · rw [endObject, bind_ok (peekToken?_cons (by decide) _ ignored)]
    rfl

end Choices

/-! ### Records and shapes -/

/-- A member of another name leaves a slot as it is. -/
theorem Builds.cons_slot {α σ β : Type} {l : Layout} {level depth : Nat} {field : Field α}
    {s : Shape α} {rest : Fields σ β} {slots slots' : σ} {ms : List (String × Tree)}
    (h : Builds l level (readMember rest depth) slots ms slots')
    (names : ∀ m ∈ ms, m.1 ≠ field.name) (slot : Option α) :
    Builds l level (readMember (.cons field s rest) depth) (slot, slots) ms (slot, slots') := by
  induction h with
  | nil slots => exact .nil _
  | @cons slots mid last key t ms head _ ih =>
    refine .cons ?_ (ih fun m hm => names m (List.mem_cons_of_mem _ hm))
    intro bs rest' ignored hb hends
    cases slot <;>
    · rw [readMember, if_neg (names _ List.mem_cons_self),
        bind_ok (head bs rest' ignored hb hends)]
      rfl

mutual

/-- What is written for a kept value is read as the value. -/
theorem reads_read {l : Layout} (hl : l.IsBlank) : {α : Type} → (s : Shape α) → {n : Nat} →
    (a : α) → s.Keeps Survives n a → (level depth : Nat) → n < depth →
    Reads (read s depth) (write l level (s.encode a)) a
  | _, .text, _, s, _, level, _, _ => by
    rw [read, Shape.encode]
    exact reads_text level s _
  | _, .flag, _, b, _, level, _, _ => by
    rw [read, Shape.encode]
    exact reads_flag level b
  | _, .nothing, _, e, _, _, _, _ => nomatch e
  | _, .optional s, _, none, _, level, _, _ => by
    rw [read, Shape.encode]
    exact reads_optional_none level _
  | _, .optional s, n, some a, h, level, depth, hd => by
    obtain ⟨ha, hnull⟩ := h a rfl
    rw [read, Shape.encode]
    exact reads_optional_some level hnull ha.holds (reads_read hl s a ha level depth hd)
  | _, .list item, n, xs, h, level, depth, hd => by
    intro bs rest ignored hb _
    obtain ⟨hn, hx⟩ := h
    have holds : ∀ x ∈ xs, (item.encode x).Holds Survives := fun x hx' => (hx x hx').holds
    have hitems : ∀ x ∈ xs, Reads (read item (depth - 1)) (write l (level + 1) (item.encode x)) x :=
      fun x hx' => reads_read hl item x (hx x hx') (level + 1) (depth - 1) (by omega)
    obtain ⟨cs, hcs, hread⟩ := closing_items hl level holds hitems
    rw [read, Shape.encode, hcs, List.cons_append, onToken_eq hb (by decide), if_pos rfl]
    refine located_ok ?_
    rw [Reader.list, deeper_ok (by omega), bind_skip, hread, List.map_id']
  | _, .record label fields, n, a, h, level, depth, hd => by
    intro bs rest ignored hb _
    obtain ⟨hn, ha⟩ := h
    have hbuilds := builds_fields hl fields a ha (level + 1) (depth - 1) (by omega)
    obtain ⟨cs, hcs, hread⟩ := closing_members hl level hbuilds
      (k := fun slots => accept (fields.finish slots))
      (fun s => by rw [Fields.finish_filled fields a ha]; rfl)
    rw [read, Shape.encode, hcs, List.cons_append, Reader.record, onToken_eq hb (by decide),
      if_pos rfl]
    refine located_ok ?_
    rw [deeper_ok (by omega), bind_skip, hread]
  | _, .tagged choice s, n, b, h, level, depth, hd => by
    rw [Shape.Keeps] at h
    rw [read, Shape.encode]
    -- the alternative has a value beside its name, or its name stands alone
    match hs : choice.split b, h with
    | (name, some a), ⟨hn, ha, make, hv, hb⟩ =>
      subst hb
      exact reads_tagged_carrying hl level hv (by omega)
        (reads_read hl s a ha (level + 1) (depth - 1) (by omega))
    | (name, none), hv => exact reads_tagged_bare level hv
  | _, .keyed choice s, n, b, h, level, depth, hd => by
    rw [Shape.Keeps] at h
    rw [read, Shape.encode]
    match hs : choice.split b, h with
    | (name, some a), ⟨hn, ha, make, hv, hb⟩ =>
      subst hb
      exact reads_keyed_carrying hl level hv (by omega)
        (reads_read hl s a ha (level + 1) (depth - 1) (by omega))
    | (name, none), ⟨_, hv⟩ => exact reads_keyed_bare level hv
  | _, .buffered interpret write, n, a, h, level, depth, hd => by
    intro bs rest ignored hb hends
    obtain ⟨hsimple, hread⟩ := h
    rw [read, Shape.encode, bind_ok (reads_value hl hsimple level hd bs rest ignored hb hends),
      hread]
    rfl
  | _, .view there back s, n, b, h, level, depth, hd => by
    intro bs rest ignored hb hends
    obtain ⟨hback, ha⟩ := h
    have hread := reads_read hl s (back b) ha level depth hd bs rest ignored hb hends
    rw [read, Shape.encode, bind_ok hread, hback]
    rfl

/-- Reading the written members of a record one by one fills their slots. -/
theorem builds_fields {l : Layout} (hl : l.IsBlank) : {σ α : Type} → (fields : Fields σ α) →
    {n : Nat} → (a : α) → fields.Keeps Survives n a → (level depth : Nat) → n < depth →
    Builds l level (readMember fields depth) fields.empty (fields.encode a) (fields.filled a)
  | _, _, .nil, _, _, _, _, _, _ => .nil _
  | _, _, .cons field s rest, n, (a, b), h, level, depth, hd => by
    obtain ⟨ha, name, hb⟩ := h
    have htail := builds_fields hl rest b hb level depth hd
    have names : ∀ m ∈ rest.encode b, m.1 ≠ field.name := by
      intro m hm hname
      exact name (hname ▸ rest.mem_names_of_mem_encode b m hm)
    rw [Fields.empty, Fields.encode, Fields.filled]
    split
    · rename_i hidden
      -- A hidden member is not written, and its slot stays empty.
      exact Builds.cons_slot htail names none
    · rename_i hidden
      rw [if_neg hidden] at ha
      -- The member fills its slot, and the members after it have other names.
      refine .cons ?_ (Builds.cons_slot htail names (some a))
      have hread := reads_read hl s a ha level depth hd
      have hslots : Reads (do return (some (← read s depth), rest.empty))
          (write l level (s.encode a)) (some a, rest.empty) := by
        intro bs rest' ignored hb' hends
        rw [bind_ok (hread bs rest' ignored hb' hends)]
        rfl
      have hmember := reads_valueText hl hslots
      intro bs rest' ignored hb' hends
      rw [readMember, if_pos rfl, hmember bs rest' ignored hb' hends]

end

/-! ### Documents -/

/-- A written document is read as its value, with blanks around it. -/
theorem decode_write {l : Layout} (hl : l.IsBlank) {α : Type} {s : Shape α} {n : Nat} {a : α}
    (h : s.Keeps Survives n a) (hn : n < depthLimit) {before after : List Char}
    (hb : ∀ b ∈ before, isBlank b = true) (ha : ∀ b ∈ after, isBlank b = true) :
    decode s (String.ofList (before ++ (write l 0 (s.encode a) ++ after))) = ⟨.ok a, 0⟩ := by
  have hends : Ends after := by
    have := ends_of_blank ha (Text.stops_nil _)
    rwa [List.append_nil] at this
  have hread := reads_read hl s a h 0 depthLimit hn before after 0 hb hends
  have hend : peekToken? ⟨after, 0⟩ = .ok none ⟨[], 0⟩ := by
    have hdrop : after.dropWhile isBlank = [] := by
      have hnil : Text.Stops isBlank [] := nofun
      simpa using Text.dropWhile_append ha hnil
    rw [peekToken?, hdrop]
    rfl
  rw [decode, run, String.toList_ofList, document, bind_ok hread, bind_ok hend]
  rfl

end ApiSurface.Json

namespace ApiSurface

/-- A model whose numbers survive is read back from the JSON document that is written for it, blanks
around it or not. -/
theorem Model.parse_numbers_json {m : Model} (numbers : m.Numbers Json.Reader.Survives)
    {before after : List Char} (hb : ∀ b ∈ before, Json.Reader.isBlank b = true)
    (ha : ∀ b ∈ after, Json.Reader.isBlank b = true) :
    Model.parse .json (String.ofList (before ++ ((m.render .json).toList ++ after))) = .ok m := by
  have h := Json.decode_write Json.Layout.isBlank_pretty (Model.keeps_shape (n := 9) (by decide) m
    numbers) (by decide) hb ha
  rw [Model.parse, Shape.parse, Model.render, Json.pretty, String.toList_ofList, h]
  rfl

theorem Model.parse_blank_json {m : Model} (whole : m.IsWhole) {before after : List Char}
    (hb : ∀ b ∈ before, Json.Reader.isBlank b = true)
    (ha : ∀ b ∈ after, Json.Reader.isBlank b = true) :
    Model.parse .json (String.ofList (before ++ ((m.render .json).toList ++ after))) = .ok m := by
  refine parse_numbers_json (fun e he v hv x hx => ?_) hb ha
  obtain ⟨i, rfl⟩ := whole e he v hv x hx
  exact Json.Reader.survives_integer i

/-- Nothing of a model is lost when it is written as JSON and read again. -/
theorem Model.parse_render_json (m : Model) (whole : m.IsWhole) :
    Model.parse .json (m.render .json) = .ok m := by
  have blank : ∀ b ∈ ([] : List Char), Json.Reader.isBlank b = true := nofun
  have h := Model.parse_blank_json whole blank blank
  rwa [List.nil_append, List.append_nil, String.ofList_toList] at h

theorem Model.parse_render_json_awkward :
    Model.awkward.IsWhole ∧ Model.parse .json (Model.awkward.render .json) = .ok Model.awkward :=
  ⟨Model.isWhole_awkward, Model.parse_render_json _ Model.isWhole_awkward⟩

end ApiSurface
