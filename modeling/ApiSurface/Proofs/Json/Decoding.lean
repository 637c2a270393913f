/-
What a document is decoded as.

The reader of a shape makes of a spelled value what `Shape.ofSyntax?` says (`denotes_read`), by
recursion on the shape; `run_document` is the case of a whole text.
-/
import ApiSurface.Codec
import ApiSurface.Proofs.Json.Denotation

namespace ApiSurface.Json

/-! ### What a value is not, by its first character -/

namespace Syntax

variable {t : Syntax} {c : Char}

theorem text?_eq_none (h : t.Opens c) (hc : c ≠ '"') : t.text? = none := by
  cases t with
  | text body => exact absurd h hc
  | _ => rfl

theorem flag?_eq_none (h : t.Opens c) (ht : c ≠ 't') (hf : c ≠ 'f') : t.flag? = none := by
  cases t with
  | bool b =>
    cases b
    · exact absurd h hf
    · exact absurd h ht
  | _ => rfl

theorem items?_eq_none (h : t.Opens c) (hc : c ≠ '[') : t.items? = none := by
  cases t with
  | list items => exact absurd h hc
  | _ => rfl

theorem null?_eq_none (h : t.Opens c) (hc : c ≠ 'n') : t.null? = none := by
  cases t with
  | null => exact absurd h hc
  | _ => rfl

/-- What starts with a bracket is a list, whose items stand up to the closing one. -/
theorem exists_items {ds : List Char} (hc : t.Opens '[') (h : t.Spells ('[' :: ds))
    (rest : List Char) : ∃ ts inside, t = .list ts ∧ SpellsItems true ts inside ∧
      ds ++ rest = inside ++ ']' :: rest := by
  obtain ⟨ts, rfl⟩ := exists_list_of_opens hc
  obtain ⟨inside, hds, hts⟩ := h
  obtain rfl := List.tail_eq_of_cons_eq hds
  exact ⟨ts, inside, rfl, hts, List.append_assoc ..⟩

/-- What starts with a brace is an object, whose members stand up to the closing one. -/
theorem exists_members {ds : List Char} (hc : t.Opens '\x7b') (h : t.Spells ('\x7b' :: ds))
    (rest : List Char) : ∃ ms inside, t = .object ms ∧ SpellsMembers true ms inside ∧
      ds ++ rest = inside ++ '\x7d' :: rest := by
  obtain ⟨ms, rfl⟩ := exists_object_of_opens hc
  obtain ⟨inside, hds, hms⟩ := h
  obtain rfl := List.tail_eq_of_cons_eq hds
  exact ⟨ms, inside, rfl, hms, List.append_assoc ..⟩

end Syntax

namespace Reader

variable {α β : Type}

/-- The first character of a value settles what becomes of it. -/
theorem denotes_onToken {k : Char → Reader α} {t : Syntax} {o : Option α}
    (h : ∀ {c : Char} {ds rest : List Char} (ignored : Nat), t.Opens c → t.Spells (c :: ds) →
      t.Follows rest → Gives rest o (k c ⟨c :: (ds ++ rest), ignored⟩)) :
    Denotes (onToken k) t o := by
  intro bs cs rest ignored hb ht hends
  obtain ⟨c, ds, rfl, hc⟩ := ht.exists_opens
  rw [List.cons_append, onToken_eq hb hc.isBlank]
  exact h ignored hc ht hends

theorem gives_refuseNext (expected : String) (rest : List Char) (s : State) :
    Gives rest none ((refuseNext expected : Reader α) s) := (fails_refuseNext expected s).gives rest

/-- A value one level down is read after the character that opens it. -/
theorem gives_inside {f : Nat → Option α} {r : Nat → Reader α} {depth : Nat} {c : Char}
    {cs rest : List Char} {ignored : Nat}
    (h : Gives rest (f (depth - 1)) (r (depth - 1) ⟨cs, ignored⟩)) :
    Gives rest (below depth f) (deeper depth (fun depth => do skip; r depth) ⟨c :: cs, ignored⟩) :=
  Gives.deeper fun _ => by rwa [bind_skip]

/-! ### Scalars -/

theorem gives_body {ds body : List Char} (h : (Syntax.text body).Spells ('"' :: ds))
    (rest : List Char) (ignored : Nat) :
    Gives rest (textOf? body) (string ⟨'"' :: (ds ++ rest), ignored⟩) := by
  obtain ⟨hds, hbody⟩ := h
  obtain rfl : ds = body ++ ['"'] := List.tail_eq_of_cons_eq hds
  rw [List.append_assoc]
  exact gives_string hbody rest ignored

theorem denotes_text (expected : String) (t : Syntax) : Denotes (text expected) t t.text? := by
  refine denotes_onToken fun {c ds rest} ignored hc ht _ => ?_
  by_cases hq : c = '"'
  · subst hq
    obtain ⟨body, rfl⟩ := Syntax.exists_text_of_opens hc
    rw [if_pos rfl]
    exact gives_body ht rest ignored
  · rw [if_neg hq, Syntax.text?_eq_none hc hq]
    exact gives_refuseNext _ _ _

theorem denotes_flag (t : Syntax) : Denotes flag t t.flag? := by
  refine denotes_onToken fun {c ds rest} ignored hc ht _ => ?_
  by_cases htrue : c = 't'
  · subst htrue
    obtain rfl := Syntax.eq_true_of_opens hc
    obtain rfl : ds = ['r', 'u', 'e'] := List.tail_eq_of_cons_eq ht
    exact .ok true ignored
  by_cases hfalse : c = 'f'
  · subst hfalse
    obtain rfl := Syntax.eq_false_of_opens hc
    obtain rfl : ds = ['a', 'l', 's', 'e'] := List.tail_eq_of_cons_eq ht
    exact .ok false ignored
  · rw [if_neg htrue, if_neg hfalse, Syntax.flag?_eq_none hc htrue hfalse]
    exact gives_refuseNext _ _ _

theorem denotes_null (t : Syntax) : Denotes null t t.null? := by
  refine denotes_onToken fun {c ds rest} ignored hc ht _ => ?_
  by_cases hn : c = 'n'
  · subst hn
    obtain rfl := Syntax.eq_null_of_opens hc
    obtain rfl : ds = ['u', 'l', 'l'] := List.tail_eq_of_cons_eq ht
    exact .ok () ignored
  · rw [if_neg hn, Syntax.null?_eq_none hc hn]
    exact gives_refuseNext _ _ _

theorem denotes_optional_null (value : Reader α) : Denotes (optional value) .null (some none) := by
  intro bs cs rest ignored hb ht _
  cases ht
  rw [optional, List.cons_append, bind_ok (peekToken?_eq hb (by decide) ignored)]
  exact .ok none ignored

theorem denotes_optional {value : Reader α} {t : Syntax} {o : Option α} (hn : t ≠ .null)
    (h : Denotes value t o) : Denotes (optional value) t (o.map some) := by
  intro bs cs rest ignored hb ht hends
  have hread := h ignored blanks_nil ht hends
  obtain ⟨c, ds, rfl, hc⟩ := ht.exists_opens
  have hne : some c ≠ some 'n' := by
    rintro ⟨⟩
    exact hn (Syntax.eq_null_of_opens hc)
  rw [optional, List.cons_append, bind_ok (peekToken?_eq hb hc.isBlank ignored), if_neg hne]
  exact hread.map some

/-- More items come after a comma. -/
theorem exists_comma_of_spellsItems {t : Syntax} {ts : List Syntax} {inside : List Char}
    (h : SpellsItems false (t :: ts) inside) :
    ∃ bs cs, inside = bs ++ ',' :: cs ∧ Blanks bs := by
  obtain ⟨sep, cs, more, rfl, hsep, -⟩ := h
  cases hsep with
  | @comma bs bs' hb hb' => exact ⟨bs, bs' ++ (cs ++ more), by simp, hb⟩

theorem exists_comma_of_spellsMembers {m : List Char × Syntax} {ms : List (List Char × Syntax)}
    {inside : List Char} (h : SpellsMembers false (m :: ms) inside) :
    ∃ bs cs, inside = bs ++ ',' :: cs ∧ Blanks bs := by
  obtain ⟨sep, bs, bs', cs, more, rfl, hsep, -⟩ := h
  cases hsep with
  | @comma ds ds' hd hd' => exact ⟨ds, _, List.append_assoc .., hd⟩

theorem fails_text_brace (expected : String) {bs : List Char} (hb : Blanks bs) (rest : List Char)
    (ignored : Nat) : Fails (text expected) ⟨bs ++ '\x7d' :: rest, ignored⟩ := by
  exact (fails_refuseNext expected _).of_eq (onToken_eq hb (by decide) _ ignored)

/-! ### Choices -/

section Choices

variable {choice : Alternatives α β}

theorem gives_alternative (choice : Alternatives α β) {key : Reader String} {body : List Char}
    {s : State} {rest : List Char} (h : Gives rest (textOf? body) (key s)) :
    Gives rest (Syntax.variant? choice body) (alternative choice key s) := by
  refine h.bind fun name ignored _ => ?_
  rw [Alternatives.find]
  cases choice.variants.lookup name with
  | some v => exact .ok v ignored
  | none => exact .error _ _

/-- The bare name of an alternative. -/
theorem gives_bare {key : Reader (Variant α β)} {body : List Char} {s : State} {rest : List Char}
    (h : Gives rest (Syntax.variant? choice body) (key s)) {k : Variant α β → Reader β}
    (hbare : ∀ b s, k (.bare b) s = .ok b s) (hcarrying : ∀ make s, Fails (k (.carrying make)) s) :
    Gives rest (Syntax.bare? choice (.text body)) ((key >>= k) s) := by
  refine h.bind fun v ignored _ => ?_
  cases v with
  | bare b =>
    rw [hbare]
    exact .ok b ignored
  | carrying make => exact (hcarrying make _).gives rest

/-- A choice is no other value than an object or a string. -/
theorem bare?_other {t : Syntax} {c : Char} (hc : t.Opens c) (hobject : c ≠ '\x7b') (hq : c ≠ '"')
    (s : Shape α) (depth : Nat) :
    (Shape.tagged choice s).ofSyntax? depth t = none ∧
      (Shape.keyed choice s).ofSyntax? depth t = none := by
  cases t with
  | object ms => exact absurd hc hobject
  | text body => exact absurd hc hq
  | _ => exact ⟨rfl, rfl⟩

/-- The key of a member names an alternative. -/
theorem gives_variant (choice : Alternatives α β) {sep key : List Char} (hsep : Blanks sep)
    (hk : IsBody key) (rest : List Char) (ignored : Nat) :
    Gives rest (Syntax.variant? choice key)
      (located (alternative choice (text "variant identifier"))
        ⟨sep ++ '"' :: (key ++ '"' :: rest), ignored⟩) := by
  refine (gives_alternative choice ?_).located
  have h : Gives rest _ _ :=
    denotes_text "variant identifier" (.text key) ignored hsep ⟨rfl, hk⟩ trivial
  rwa [List.cons_append, List.append_assoc, List.singleton_append] at h

theorem denotes_tagged (choice : Alternatives α β) {s : Shape α}
    (hread : ∀ depth t, Denotes (read s depth) t (s.ofSyntax? depth t)) (depth : Nat)
    (t : Syntax) :
    Denotes (tagged choice depth (read s)) t ((Shape.tagged choice s).ofSyntax? depth t) := by
  refine denotes_onToken fun {c ds rest} ignored hc ht _ => ?_
  by_cases hobject : c = '\x7b'
  · subst hobject
    obtain ⟨ms, inside, rfl, hms, hrest⟩ := Syntax.exists_members hc ht rest
    rw [if_pos rfl, hrest]
    cases ms with
    | nil =>
      refine (Fails.bind_left (Fails.deeper ?_) _).gives rest
      have hkey := fails_text_brace "variant identifier" hms rest ignored
      exact (Fails.bind_left (Fails.located (Fails.bind_left hkey _)) _).of_eq (bind_skip _ _ _ _)
    | cons m ms =>
      obtain ⟨key, t⟩ := m
      obtain ⟨sep, bs, bs', cs, more, rfl, hsep, hk, hb, hb', ht, hms⟩ := hms
      cases hsep with
      | first hsep =>
        simp only [List.append_assoc, List.cons_append]
        rw [Shape.ofSyntax?]
        refine Gives.bind (m := more ++ '\x7d' :: rest) ?_ fun b ignored _ => ?_
        · refine gives_inside ?_
          refine (gives_variant choice hsep hk _ ignored).bind fun v ignored _ => ?_
          rw [bind_ok (colon_ok hb _ ignored)]
          have hends := t.follows_of_ends (ends_spellsMembers hms rest)
          -- a bare alternative has the absent value beside its name, another one its own value
          cases v with
          | bare b => exact (denotes_null t ignored hb' ht hends).map fun _ => b
          | carrying make => exact (hread (depth - 1) t ignored hb' ht hends).map make
        · -- the object ends here, or has a member too many
          cases ms with
          | nil =>
            rw [bind_ok (peekToken?_eq hms (by decide) ignored)]
            exact .ok b ignored
          | cons m' ms =>
            obtain ⟨bs, cs, hmore, hb⟩ := exists_comma_of_spellsMembers hms
            rw [hmore, List.append_assoc, List.cons_append,
              bind_ok (peekToken?_eq hb (by decide) ignored)]
            exact .error _ _
  by_cases hq : c = '"'
  · subst hq
    obtain ⟨body, rfl⟩ := Syntax.exists_text_of_opens hc
    rw [if_neg hobject, if_pos rfl]
    have hfind := (gives_alternative choice (gives_body ht rest ignored)).located
    exact gives_bare hfind (fun _ _ => rfl) fun _ _ => fails_refuse _ _
  · rw [if_neg hobject, if_neg hq, (bare?_other hc hobject hq s depth).1]
    exact .error _ _

theorem denotes_keyed (choice : Alternatives α β) {s : Shape α}
    (hread : ∀ depth t, Denotes (read s depth) t (s.ofSyntax? depth t)) (depth : Nat)
    (t : Syntax) :
    Denotes (keyed choice depth (read s)) t ((Shape.keyed choice s).ofSyntax? depth t) := by
  refine denotes_onToken fun {c ds rest} ignored hc ht _ => ?_
  by_cases hobject : c = '\x7b'
  · subst hobject
    obtain ⟨ms, inside, rfl, hms, hrest⟩ := Syntax.exists_members hc ht rest
    rw [if_pos rfl, hrest]
    refine Gives.located ?_
    cases ms with
    | nil =>
      refine (Fails.deeper ?_).gives rest
      have hsingle : Fails (singleMember choice (read s (depth - 1)))
          ⟨inside ++ '\x7d' :: rest, ignored⟩ :=
        Fails.of_eq (fails_refuse _ _) (bind_ok (anotherMember_end true hms rest ignored) _)
      exact (hsingle.closing endObject).of_eq (bind_skip _ _ _ _)
    | cons m ms =>
      obtain ⟨key, t⟩ := m
      obtain ⟨sep, bs, bs', cs, more, rfl, hsep, hk, hb, hb', ht, hms⟩ := hms
      simp only [List.append_assoc, List.cons_append]
      rw [Shape.ofSyntax?]
      refine gives_inside ?_
      refine Gives.closing (m := '\x7d' :: rest) ?_ (endObject_ok rest)
      rw [singleMember, bind_ok (anotherMember_separates hsep _ ignored), if_pos rfl,
        Option.bind_assoc]
      refine (gives_alternative choice (gives_string hk _ ignored)).bind fun v ignored _ => ?_
      cases v with
      | bare b => exact .error _ _
      | carrying make =>
        dsimp only
        rw [bind_ok (colon_ok hb _ ignored), Option.bind_map]
        have hends := t.follows_of_ends (ends_spellsMembers hms rest)
        refine (hread (depth - 1) t ignored hb' ht hends).bind fun a ignored _ => ?_
        -- the object ends here, or has a member too many
        cases ms with
        | nil =>
          rw [bind_ok (anotherMember_end false hms rest ignored)]
          exact .ok (make a) ignored
        | cons m' ms =>
          obtain ⟨sep, bs, bs', cs, more, rfl, hsep, -⟩ := hms
          rw [List.append_assoc, List.cons_append,
            bind_ok (anotherMember_separates hsep _ ignored), if_pos rfl]
          exact (Fails.bind fun _ s => fails_refuse _ s).gives _
  by_cases hq : c = '"'
  · subst hq
    obtain ⟨body, rfl⟩ := Syntax.exists_text_of_opens hc
    rw [if_neg hobject, if_pos rfl]
    have hfind := gives_alternative choice (gives_body ht rest ignored)
    exact (gives_bare hfind (fun _ _ => rfl) fun _ _ => fails_refuse _ _).located
  · rw [if_neg hobject, if_neg hq, (bare?_other hc hobject hq s depth).2]
    by_cases hlist : c = '['
    · subst hlist
      rw [if_pos rfl]
      refine (Fails.located (Fails.deeper ?_)).gives rest
      exact ((fails_refuse _ _).closing endList).of_eq (bind_skip _ _ _ _)
    · rw [if_neg hlist]
      exact gives_refuseNext _ _ _

end Choices

/-! ### Records whose members are given in order -/

/-- Whether a result is a value with certain items of a list left, or a failure. -/
inductive GivesItems (rest : List Char) :
    Option (α × List Syntax) → EStateM.Result Failure State α → Prop
  | ok (a : α) {first : Bool} {ts : List Syntax} {inside : List Char}
      (h : SpellsItems first ts inside) (ignored : Nat) :
      GivesItems rest (some (a, ts)) (.ok a ⟨inside ++ ']' :: rest, ignored⟩)
  | error (f : Failure) (s : State) : GivesItems rest none (.error f s)

/-- Items that are left are too many. -/
theorem fails_endList {first : Bool} {t : Syntax} {ts : List Syntax} {inside : List Char}
    (h : SpellsItems first (t :: ts) inside) (rest : List Char) (ignored : Nat) :
    Fails endList ⟨inside ++ ']' :: rest, ignored⟩ := by
  cases first with
  | true =>
    obtain ⟨sep, cs, more, rfl, hsep, ht, -⟩ := h
    cases hsep with
    | first hb =>
      obtain ⟨c, ds, rfl, hc⟩ := ht.exists_opens
      have hstart := hc.startsValue
      simp only [startsValue, Bool.and_eq_true, Bool.not_eq_true', bne_iff_ne] at hstart
      obtain ⟨⟨⟨-, hlist⟩, -⟩, hcomma⟩ := hstart
      rw [List.append_assoc, List.append_assoc, List.cons_append]
      refine Fails.of_eq ?_ (bind_ok (peekToken?_eq hb hc.isBlank ignored) _)
      simp only [if_neg hlist, if_neg hcomma]
      exact fails_failAhead _ _
  | false =>
    obtain ⟨bs, cs, rfl, hb⟩ := exists_comma_of_spellsItems h
    rw [List.append_assoc, List.cons_append]
    refine Fails.of_eq ?_ (bind_ok (peekToken?_eq hb (by decide) ignored) _)
    refine Fails.bind fun _ s => Fails.bind fun c s => ?_
    cases c with
    | none => exact fails_failAhead _ _
    | some d =>
      dsimp only
      split <;> exact fails_failAhead _ _

theorem GivesItems.map {r : Reader α} {s : State} {rest : List Char}
    {o : Option (α × List Syntax)} (h : GivesItems rest o (r s)) (f : α → β) :
    GivesItems rest (o.map fun r => (f r.1, r.2)) ((do return f (← r) : Reader β) s) := by
  generalize hr : r s = result at h
  cases h with
  | ok a h ignored =>
    rw [bind_ok hr]
    exact .ok (f a) h ignored
  | error f s' =>
    rw [bind_error hr]
    exact .error f s'

theorem Gives.bind_items {r : Reader α} {k : α → Reader β} {s : State} {mid rest : List Char}
    {o : Option α} {p : α → Option (β × List Syntax)} (h : Gives mid o (r s))
    (h' : ∀ a ignored, GivesItems rest (p a) (k a ⟨mid, ignored⟩)) :
    GivesItems rest (o.bind p) ((r >>= k) s) := by
  generalize hr : r s = result at h
  cases h with
  | ok a ignored =>
    rw [bind_ok hr]
    exact h' a ignored
  | error f s' =>
    rw [bind_error hr]
    exact .error f s'

theorem GivesItems.closing {r : Reader α} {s : State} {rest : List Char}
    {o : Option (α × List Syntax)} (h : GivesItems rest o (r s)) :
    Gives rest (o.bind fun r => if r.2.isEmpty then some r.1 else none) (closing r endList s) := by
  rw [Reader.closing]
  generalize r s = result at h
  cases h with
  | error f s' =>
    dsimp only
    cases endList s' <;> exact .error _ _
  | @ok a first ts inside h ignored =>
    cases ts with
    | nil =>
      have hend : endList ⟨inside ++ ']' :: rest, ignored⟩ = .ok () ⟨rest, ignored⟩ := by
        rw [endList, bind_ok (peekToken?_eq h (by decide) ignored)]
        rfl
      simp only [hend]
      exact .ok a ignored
    | cons t ts =>
      obtain ⟨f, s', hend⟩ := fails_endList h rest ignored
      simp only [hend]
      exact .error _ _

/-! ### Shapes -/

theorem record_other {σ : Type} {t : Syntax} {c : Char} (hc : t.Opens c) (hobject : c ≠ '\x7b')
    (hlist : c ≠ '[') (label : String) (fields : Fields σ α) (depth : Nat) :
    (Shape.record label fields).ofSyntax? depth t = none := by
  cases t with
  | object ms => exact absurd hc hobject
  | list ts => exact absurd hc hlist
  | _ => rfl

theorem gives_accept (r : Except Mismatch α) (rest : List Char) (ignored : Nat) :
    Gives rest r.toOption (accept r ⟨rest, ignored⟩) := by
  cases r with
  | ok a => exact .ok a ignored
  | error m => exact .error _ _

mutual

/-- The reader of a shape makes of a value what it stands for. -/
theorem denotes_read : {α : Type} → (s : Shape α) → (depth : Nat) → (t : Syntax) →
    Denotes (read s depth) t (s.ofSyntax? depth t)
  | _, .text, depth, t => denotes_text "a string" t
  | _, .flag, depth, t => denotes_flag t
  | _, .nothing, depth, t => denotes_onToken fun _ _ _ _ => gives_refuseNext _ _ _
  | _, .optional s, depth, t => by
    rw [read]
    by_cases hn : t = .null
    · subst hn
      exact denotes_optional_null _
    · have hof : (Shape.optional s).ofSyntax? depth t = (s.ofSyntax? depth t).map some := by
        cases t with
        | null => exact absurd rfl hn
        | _ => rfl
      rw [hof]
      exact denotes_optional hn (denotes_read s depth t)
  | _, .list item, depth, t => by
    rw [read]
    refine denotes_onToken fun {c ds rest} ignored hc ht _ => ?_
    by_cases hlist : c = '['
    · subst hlist
      obtain ⟨ts, inside, rfl, hts, hrest⟩ := Syntax.exists_items hc ht rest
      rw [if_pos rfl, hrest]
      show Gives rest (below depth fun depth => ts.mapM fun t => item.ofSyntax? depth t) _
      refine Gives.located (gives_inside ?_)
      exact gives_list (fun t _ => denotes_read item (depth - 1) t) hts rest ignored
    · rw [if_neg hlist, Shape.ofSyntax?, Syntax.items?_eq_none hc hlist]
      exact gives_refuseNext _ _ _
  | _, .record label fields, depth, t => by
    rw [read]
    refine denotes_onToken fun {c ds rest} ignored hc ht _ => ?_
    by_cases hobject : c = '\x7b'
    · subst hobject
      obtain ⟨ms, inside, rfl, hms, hrest⟩ := Syntax.exists_members hc ht rest
      rw [if_pos rfl, hrest, Shape.ofSyntax?_object]
      refine Gives.located (gives_inside ?_)
      exact gives_object
        (fun m _ slots key => denotes_readMember fields (depth - 1) slots key m.2) hms
        fields.empty (fun slots rest ignored => gives_accept (fields.finish slots) rest ignored)
        rest ignored
    -- a record is also read from a list of its members in order
    by_cases hlist : c = '['
    · subst hlist
      obtain ⟨ts, inside, rfl, hts, hrest⟩ := Syntax.exists_items hc ht rest
      rw [if_neg hobject, if_pos rfl, hrest, Shape.ofSyntax?_list]
      refine Gives.located (gives_inside ?_)
      exact (givesItems_readInOrder fields (fields.positional label) (depth - 1) 0 ts hts rest
        ignored).closing
    · rw [if_neg hobject, if_neg hlist, record_other hc hobject hlist]
      exact gives_refuseNext _ _ _
  | _, .tagged choice s, depth, t => by
    rw [read]
    exact denotes_tagged choice (denotes_read s) depth t
  | _, .keyed choice s, depth, t => by
    rw [read]
    exact denotes_keyed choice (denotes_read s) depth t
  | _, .buffered interpret _, depth, t => fun ignored hb ht hends => by
    rw [read, Shape.ofSyntax?]
    refine (denotes_value t depth ignored hb ht hends).bind fun c ignored _ => ?_
    exact gives_accept _ _ _
  | _, .view there _ s, depth, t => fun ignored hb ht hends => by
    rw [read, Shape.ofSyntax?]
    exact (denotes_read s depth t ignored hb ht hends).map there

/-- The value of a member is put into its slot. -/
theorem denotes_readMember : {σ α : Type} → (fields : Fields σ α) → (depth : Nat) → (slots : σ) →
    (key : String) → (t : Syntax) →
    DenotesMember (readMember fields depth slots key) t (fields.putMember? depth slots key t)
  | _, _, .nil, depth, (), key, t => fun ignored hb hb' ht hends => by
    rw [readMember, skipMember_ok ht hb hb' hends]
    exact .ok () ignored
  | _, _, .cons field s more, depth, (slot, slots), key, t =>
    fun ignored hb hb' ht hends => by
    by_cases hkey : key = field.name
    · cases slot with
      | some a =>
        rw [Fields.putMember?_twice hkey, readMember, if_pos hkey]
        exact .error _ _
      | none =>
        rw [Fields.putMember?_same hkey, readMember, if_pos hkey]
        have hread : Denotes (do return (some (← read s depth), slots)) t
            ((s.ofSyntax? depth t).map fun a => (some a, slots)) :=
          fun ignored hb ht hends => (denotes_read s depth t ignored hb ht hends).map _
        exact hread.member ignored hb hb' ht hends
    · rw [Fields.putMember?_other hkey]
      have hmore := denotes_readMember more depth slots key t ignored hb hb' ht hends
      cases slot <;>
      · rw [readMember, if_neg hkey]
        exact hmore.map _

/-- The members of a record are the items of a list, as far as there are any. -/
theorem givesItems_readInOrder : {σ α : Type} → (fields : Fields σ α) → (label : String) →
    (depth count : Nat) → (ts : List Syntax) → {inside : List Char} →
    SpellsItems (count = 0) ts inside → (rest : List Char) → (ignored : Nat) →
    GivesItems rest (fields.ofItems? depth ts)
      (readInOrder fields label depth count ⟨inside ++ ']' :: rest, ignored⟩)
  | _, _, .nil, label, depth, count, ts, inside, h, rest, ignored => .ok () h ignored
  | _, _, .cons field s more, label, depth, count, [], inside, h, rest, ignored => by
    have hend := anotherItem_end (decide (count = 0)) h rest ignored
    rw [readInOrder, Fields.ofItems?]
    cases field.default with
    | none =>
      rw [bind_ok hend]
      exact .error _ _
    | some a =>
      rw [bind_ok hend]
      have hnil : SpellsItems (count + 1 = 0) [] [] := blanks_nil
      exact (givesItems_readInOrder more label depth (count + 1) [] hnil rest ignored).map (a, ·)
  | _, _, .cons field s more, label, depth, count, t :: ts, inside, h, rest, ignored => by
    obtain ⟨sep, cs, after, rfl, hsep, ht, hts⟩ := h
    have hitem := denotes_read s depth t ignored blanks_nil ht
      (t.follows_of_ends (ends_spellsItems hts rest))
    obtain ⟨c, ds, rfl, hc⟩ := ht.exists_opens
    rw [readInOrder, Fields.ofItems?, List.append_assoc, List.append_assoc, List.cons_append,
      bind_ok (anotherItem_separates hsep hc.startsValue _ ignored)]
    exact hitem.bind_items fun a ignored =>
      (givesItems_readInOrder more label depth (count + 1) ts hts rest ignored).map (a, ·)

end

end Reader

/-! ### Whole texts -/

section Documents

open Reader

variable {α : Type} {r : Reader α} {t : Syntax} {o : Option α} {text : String}

theorem toOption_run (rest : List Char) (h : Gives rest o (document r ⟨text.toList, 0⟩)) :
    (run r text).result.toOption = o := by
  rw [run]
  generalize document r ⟨text.toList, 0⟩ = result at h
  cases h <;> rfl

/-- Nothing but blanks may follow the value of a whole text. -/
theorem run_spelled (h : Denotes r t o) {bs cs rest : List Char}
    (htext : text.toList = bs ++ (cs ++ rest)) (hb : Blanks bs) (ht : t.Spells cs)
    (hrest : t.Follows rest) :
    (run r text).result.toOption = if rest.all isBlank then o else none := by
  obtain ⟨blanks, left, rfl, hblanks, hstop⟩ := Text.exists_run isBlank rest
  have htoken (ignored : Nat) :
      peekToken? ⟨blanks ++ left, ignored⟩ = .ok left.head? ⟨left, ignored⟩ := by
    rw [peekToken?, Text.dropWhile_append hblanks hstop]
  have hread := h 0 hb ht hrest
  rw [← htext] at hread
  cases left with
  | nil =>
    rw [List.append_nil] at hread htoken ⊢
    rw [List.all_eq_true.mpr hblanks, if_pos rfl]
    refine toOption_run [] (hread.bind_same fun a ignored => ?_)
    rw [bind_ok (htoken ignored)]
    exact .ok a ignored
  | cons c left =>
    have hc : isBlank c = false := hstop c rfl
    rw [if_neg (by simp [hc])]
    refine toOption_run [] (hread.bind_none (fun a ignored => ?_) [])
    exact (fails_failAhead _ _).of_eq (bind_ok (htoken ignored) _)

/-- A whole text that spells a value is read as what the value denotes. -/
theorem run_document (h : Denotes r t o) (ht : t.Document text) :
    (run r text).result.toOption = o := by
  obtain ⟨before, cs, after, htext, hb, hcs, ha⟩ := ht
  have hends := ends_of_blank ha (Text.stops_nil _)
  rw [List.append_nil] at hends
  rw [run_spelled h htext hb hcs (t.follows_of_ends hends), List.all_eq_true.mpr ha, if_pos rfl]

end Documents

end ApiSurface.Json

namespace ApiSurface

theorem Model.parse_json (text : String) :
    Model.parse .json text = (Json.decode Model.shape text).result.mapError .json := rfl

theorem Model.toOption_parse_json (text : String) :
    (Model.parse .json text).toOption = (Json.decode Model.shape text).result.toOption := by
  rw [parse_json]
  cases (Json.decode Model.shape text).result <;> rfl

theorem eq_ok_of_toOption {ε α : Type} {x : Except ε α} {a : α} (h : x.toOption = some a) :
    x = .ok a := by
  cases x <;> cases h
  rfl

theorem Model.parse_eq_ok {f : Format} {text : String} {m : Model}
    (h : (Model.parse f text).toOption = some m) : Model.parse f text = .ok m :=
  eq_ok_of_toOption h

/-- A text that is no model document is a JSON error. -/
theorem Model.exists_json_error {text : String} (h : (Model.parse .json text).toOption = none) :
    ∃ e, Model.parse .json text = .error (.json e) := by
  rw [parse_json] at h ⊢
  cases hd : (Json.decode Model.shape text).result with
  | ok m =>
    rw [hd] at h
    cases h
  | error e => exact ⟨e, rfl⟩

/-- A document is the model that its value stands for, if there is one. -/
theorem Model.toOption_parse_document {t : Json.Syntax} {text : String} (h : t.Document text) :
    (Model.parse .json text).toOption = Model.shape.ofSyntax? Json.depthLimit t := by
  rw [toOption_parse_json, Json.decode, Json.run_document (Json.Reader.denotes_read _ _ t) h]

end ApiSurface
