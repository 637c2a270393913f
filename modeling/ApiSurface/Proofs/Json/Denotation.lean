/-
Readers read what a value stands for.

`Denotes r t o` says that a reader makes of a spelled value a certain one, or a failure, whatever
blanks stand before it and whatever follows. What the items of a list or the members of an object
denote settles what the list or the object does (`gives_list`, `gives_object`); a value of any kind
denotes its content (`denotes_value`).
-/
import ApiSurface.Proofs.Json.Meaning
import ApiSurface.Proofs.Json.Stepping

namespace ApiSurface.Json

mutual

/-- What holds of a value if it holds of its parts holds of every value. -/
@[elab_as_elim]
theorem Syntax.induct {P : Syntax → Prop} (null : P .null) (bool : ∀ b, P (.bool b))
    (number : ∀ spelling, P (.number spelling)) (text : ∀ body, P (.text body))
    (list : ∀ ts, (∀ t ∈ ts, P t) → P (.list ts))
    (object : ∀ ms, (∀ m ∈ ms, P m.2) → P (.object ms)) : (t : Syntax) → P t
  | .null => null
  | .bool b => bool b
  | .number spelling => number spelling
  | .text body => text body
  | .list ts => list ts (Syntax.induct_items null bool number text list object ts)
  | .object ms => object ms (Syntax.induct_members null bool number text list object ms)

theorem Syntax.induct_items {P : Syntax → Prop} (null : P .null) (bool : ∀ b, P (.bool b))
    (number : ∀ spelling, P (.number spelling)) (text : ∀ body, P (.text body))
    (list : ∀ ts, (∀ t ∈ ts, P t) → P (.list ts))
    (object : ∀ ms, (∀ m ∈ ms, P m.2) → P (.object ms)) : (ts : List Syntax) → ∀ t ∈ ts, P t
  | [] => by simp
  | t :: ts => List.forall_mem_cons.mpr
    ⟨Syntax.induct null bool number text list object t,
      Syntax.induct_items null bool number text list object ts⟩

theorem Syntax.induct_members {P : Syntax → Prop} (null : P .null) (bool : ∀ b, P (.bool b))
    (number : ∀ spelling, P (.number spelling)) (text : ∀ body, P (.text body))
    (list : ∀ ts, (∀ t ∈ ts, P t) → P (.list ts))
    (object : ∀ ms, (∀ m ∈ ms, P m.2) → P (.object ms)) :
    (ms : List (List Char × Syntax)) → ∀ m ∈ ms, P m.2
  | [] => by simp
  | (key, t) :: ms => List.forall_mem_cons.mpr
    ⟨Syntax.induct null bool number text list object t,
      Syntax.induct_members null bool number text list object ms⟩

end

theorem Syntax.Opens.isBlank {t : Syntax} {c : Char} (h : t.Opens c) :
    Reader.isBlank c = false := by
  have := h.startsValue
  simp_all [Reader.startsValue]

section Opens

variable {t : Syntax}

theorem Syntax.eq_null_of_opens (h : t.Opens 'n') : t = .null := by
  cases t with
  | null => rfl
  | bool b => cases b <;> cases h
  | number => exact absurd h (by simp [Opens])
  | _ => cases h

theorem Syntax.eq_true_of_opens (h : t.Opens 't') : t = .bool true := by
  cases t with
  | bool b =>
    cases b
    · cases h
    · rfl
  | number => exact absurd h (by simp [Opens])
  | _ => cases h

theorem Syntax.eq_false_of_opens (h : t.Opens 'f') : t = .bool false := by
  cases t with
  | bool b =>
    cases b
    · rfl
    · cases h
  | number => exact absurd h (by simp [Opens])
  | _ => cases h

theorem Syntax.exists_text_of_opens (h : t.Opens '"') : ∃ body, t = .text body := by
  cases t with
  | text body => exact ⟨body, rfl⟩
  | bool b => cases b <;> cases h
  | number => exact absurd h (by simp [Opens])
  | _ => cases h

theorem Syntax.exists_list_of_opens (h : t.Opens '[') : ∃ items, t = .list items := by
  cases t with
  | list items => exact ⟨items, rfl⟩
  | bool b => cases b <;> cases h
  | number => exact absurd h (by simp [Opens])
  | _ => cases h

theorem Syntax.exists_object_of_opens (h : t.Opens '\x7b') : ∃ members, t = .object members := by
  cases t with
  | object members => exact ⟨members, rfl⟩
  | bool b => cases b <;> cases h
  | number => exact absurd h (by simp [Opens])
  | _ => cases h

end Opens

namespace Reader

/-- Whether a reader makes of a spelled value a certain one, or a failure, whatever stands around
it. -/
def Denotes {α : Type} (r : Reader α) (t : Syntax) (o : Option α) : Prop :=
  ∀ {bs cs rest : List Char} (ignored : Nat), Blanks bs → t.Spells cs → t.Follows rest →
    Gives rest o (r ⟨bs ++ (cs ++ rest), ignored⟩)

/-! ### Scalars -/

theorem Means.value?_eq {α : Type} {r : Reader α} {cs : List Char} {o : Option α}
    (h : Means r cs o) : r.value? cs = o := by
  have alone := h [] 0 nofun
  rw [List.append_nil] at alone
  rw [value?]
  generalize r ⟨cs, 0⟩ = result at alone
  cases alone <;> rfl

theorem gives_positive {cs : List Char} (h : IsMagnitude cs) {rest : List Char}
    (hends : Ends rest) (ignored : Nat) :
    Gives rest (numberOf? cs) (number false ⟨cs ++ rest, ignored⟩) := by
  obtain ⟨o, ho⟩ := exists_means_number false h
  have hsign : cs.head? ≠ some '-' := by
    obtain ⟨c, ds, rfl, hc⟩ := h.exists_cons
    rintro ⟨⟩
    exact absurd hc (by decide)
  rw [numberOf?, if_neg hsign, ho.value?_eq]
  exact ho rest ignored hends

theorem gives_negative {cs : List Char} (h : IsMagnitude cs) {rest : List Char}
    (hends : Ends rest) (ignored : Nat) :
    Gives rest (numberOf? ('-' :: cs)) (number true ⟨cs ++ rest, ignored⟩) := by
  obtain ⟨o, ho⟩ := exists_means_number true h
  rw [numberOf?, List.head?_cons, if_pos rfl, List.tail_cons, ho.value?_eq]
  exact ho rest ignored hends

/-! ### Lists -/

section Brackets

variable {α β σ : Type}

theorem Gives.closing {r : Reader α} {close : Reader Unit} {s : State} {m rest : List Char}
    {o : Option α} (h : Gives m o (r s))
    (hclose : ∀ ignored, close ⟨m, ignored⟩ = .ok () ⟨rest, ignored⟩) :
    Gives rest o (closing r close s) := by
  rw [Reader.closing]
  generalize r s = result at h
  cases h with
  | ok a ignored =>
    simp only [hclose]
    exact .ok a ignored
  | error f s' =>
    dsimp only
    cases close s' <;> exact .error _ _

theorem Fails.closing {r : Reader α} {s : State} (h : Fails r s) (close : Reader Unit) :
    Fails (closing r close) s := by
  obtain ⟨f, s', hr⟩ := h
  rw [Fails, Reader.closing, hr]
  dsimp only
  cases close s' <;> exact ⟨_, _, rfl⟩

theorem Gives.deeper {rest : List Char} {f : Nat → Option α} {r : Nat → Reader α} {depth : Nat}
    {s : State} (h : 1 < depth → Gives rest (f (depth - 1)) (r (depth - 1) s)) :
    Gives rest (below depth f) (deeper depth r s) := by
  rw [below, Reader.deeper]
  by_cases hd : depth ≤ 1
  · rw [if_pos hd, if_pos hd]
    exact .error _ _
  · rw [if_neg hd, if_neg hd]
    exact h (by omega)

theorem Fails.deeper {r : Nat → Reader α} {depth : Nat} {s : State}
    (h : Fails (r (depth - 1)) s) : Fails (deeper depth r) s := by
  rw [Reader.deeper]
  by_cases hd : depth ≤ 1
  · rw [if_pos hd]
    exact fails_failAhead _ _
  · rw [if_neg hd]
    exact h

/-- What separates items is stepped over. -/
theorem anotherItem_separates {first : Bool} {sep : List Char} (hsep : Separates first sep)
    {c : Char} (hc : startsValue c = true) (cs : List Char) (ignored : Nat) :
    anotherItem first ⟨sep ++ c :: cs, ignored⟩ = .ok true ⟨c :: cs, ignored⟩ := by
  simp only [startsValue, Bool.and_eq_true, Bool.not_eq_true', bne_iff_ne] at hc
  obtain ⟨⟨⟨hblank, hlist⟩, -⟩, -⟩ := hc
  cases hsep with
  | first hb =>
    rw [anotherItem, bind_ok (peekToken?_eq hb hblank ignored)]
    simp [hlist, pure, EStateM.pure]
  | comma hb hb' =>
    rw [anotherItem, List.append_assoc, List.cons_append,
      bind_ok (peekToken?_eq hb (by decide) ignored)]
    simp only [Char.reduceEq, if_false, if_true, Bool.false_eq_true]
    rw [bind_skip, bind_ok (peekToken?_eq hb' hblank ignored)]
    simp [hlist, pure, EStateM.pure]

theorem endList_ok (rest : List Char) (ignored : Nat) :
    endList ⟨']' :: rest, ignored⟩ = .ok () ⟨rest, ignored⟩ := by
  rw [endList, bind_ok (peekToken?_cons (by decide) _ ignored)]
  rfl

theorem length_le_spellsItems {first : Bool} {ts : List Syntax} {inside : List Char}
    (h : SpellsItems first ts inside) : ts.length ≤ inside.length := by
  induction ts generalizing first inside with
  | nil => exact Nat.zero_le _
  | cons t ts ih =>
    obtain ⟨sep, cs, more, rfl, -, ht, hts⟩ := h
    obtain ⟨c, ds, rfl, -⟩ := ht.exists_opens
    have := ih hts
    simp only [List.length_append, List.length_cons]
    omega

/-- The items of a list, each as its reader reads it. -/
theorem gives_items {item : Reader α} {f : Syntax → Option α} {ts : List Syntax}
    (hitem : ∀ t ∈ ts, Denotes item t (f t)) {first : Bool} {inside : List Char}
    (h : SpellsItems first ts inside) {fuel : List Char} (hf : ts.length < fuel.length)
    (rest : List Char) (ignored : Nat) :
    Gives (']' :: rest) (ts.mapM f) (items item fuel first ⟨inside ++ ']' :: rest, ignored⟩) := by
  induction ts generalizing first inside fuel ignored with
  | nil =>
    cases fuel with
    | nil => simp at hf
    | cons g fuel =>
      rw [items, bind_ok (anotherItem_end first h rest ignored)]
      exact .ok [] ignored
  | cons t ts ih =>
    cases fuel with
    | nil => simp at hf
    | cons g fuel =>
      obtain ⟨sep, cs, more, rfl, hsep, ht, hts⟩ := h
      have hread := hitem t List.mem_cons_self ignored blanks_nil ht
        (t.follows_of_ends (ends_spellsItems hts rest))
      obtain ⟨c, ds, rfl, hc⟩ := ht.exists_opens
      rw [items, List.append_assoc, List.append_assoc, List.cons_append,
        bind_ok (anotherItem_separates hsep hc.startsValue _ ignored), if_pos rfl]
      rw [List.mapM_cons]
      refine hread.bind fun a ignored _ => ?_
      have hrest := ih (fun t' ht' => hitem t' (List.mem_cons_of_mem _ ht')) hts
        (by simpa using hf) ignored
      refine hrest.bind fun as ignored _ => ?_
      exact .ok (a :: as) ignored

/-- A list in brackets after its first bracket. -/
theorem gives_list {item : Reader α} {f : Syntax → Option α} {ts : List Syntax}
    (hitem : ∀ t ∈ ts, Denotes item t (f t)) {inside : List Char} (h : SpellsItems true ts inside)
    (rest : List Char) (ignored : Nat) :
    Gives rest (ts.mapM f)
      (closing (do items item (← Reader.rest) true) endList ⟨inside ++ ']' :: rest, ignored⟩) := by
  refine Gives.closing (m := ']' :: rest) ?_ (endList_ok rest)
  rw [bind_rest]
  have := length_le_spellsItems h
  refine gives_items hitem h ?_ rest ignored
  simp only [List.length_append, List.length_cons]
  omega

/-! ### Objects -/

/-- Whether a reader makes of a spelled value after its colon a certain one, or a failure. -/
def DenotesMember (r : Reader α) (t : Syntax) (o : Option α) : Prop :=
  ∀ {bs bs' cs rest : List Char} (ignored : Nat), Blanks bs → Blanks bs' → t.Spells cs →
    t.Follows rest → Gives rest o (r ⟨bs ++ ':' :: (bs' ++ (cs ++ rest)), ignored⟩)

theorem Denotes.member {r : Reader α} {t : Syntax} {o : Option α} (h : Denotes r t o) :
    DenotesMember (do colon; r) t o := by
  intro bs bs' cs rest ignored hb hb' ht hends
  rw [bind_ok (colon_ok hb _ ignored)]
  exact h ignored hb' ht hends

/-- What separates members is stepped over. -/
theorem anotherMember_separates {first : Bool} {sep : List Char} (hsep : Separates first sep)
    (cs : List Char) (ignored : Nat) :
    anotherMember first ⟨sep ++ '"' :: cs, ignored⟩ = .ok true ⟨'"' :: cs, ignored⟩ := by
  cases hsep with
  | first hb =>
    rw [anotherMember, bind_ok (peekToken?_eq hb (by decide) ignored)]
    rfl
  | comma hb hb' =>
    rw [anotherMember, List.append_assoc, List.cons_append,
      bind_ok (peekToken?_eq hb (by decide) ignored)]
    simp only [Char.reduceEq, if_false, if_true, Bool.false_eq_true]
    rw [bind_skip, bind_ok (peekToken?_eq hb' (by decide) ignored)]
    rfl

theorem endObject_ok (rest : List Char) (ignored : Nat) :
    endObject ⟨'\x7d' :: rest, ignored⟩ = .ok () ⟨rest, ignored⟩ := by
  rw [endObject, bind_ok (peekToken?_cons (by decide) _ ignored)]
  rfl

theorem length_le_spellsMembers {first : Bool} {ms : List (List Char × Syntax)}
    {inside : List Char} (h : SpellsMembers first ms inside) : ms.length ≤ inside.length := by
  induction ms generalizing first inside with
  | nil => exact Nat.zero_le _
  | cons m ms ih =>
    obtain ⟨sep, bs, bs', cs, more, rfl, -, -, -, -, -, hms⟩ := h
    have := ih hms
    simp only [List.length_append, List.length_cons]
    omega

/-- The members of an object, each as the step for its key reads it. -/
theorem gives_members {step : σ → String → Reader σ} {put : σ → String → Syntax → Option σ}
    {ms : List (List Char × Syntax)}
    (hstep : ∀ m ∈ ms, ∀ acc key, DenotesMember (step acc key) m.2 (put acc key m.2))
    {first : Bool} {inside : List Char} (h : SpellsMembers first ms inside) {fuel : List Char}
    (hf : ms.length < fuel.length) (acc : σ) (rest : List Char) (ignored : Nat) :
    Gives ('\x7d' :: rest)
      (ms.foldlM (fun acc m => (textOf? m.1).bind fun key => put acc key m.2) acc)
      (members step fuel first acc ⟨inside ++ '\x7d' :: rest, ignored⟩) := by
  induction ms generalizing first inside fuel acc ignored with
  | nil =>
    cases fuel with
    | nil => simp at hf
    | cons g fuel =>
      rw [members, bind_ok (anotherMember_end first h rest ignored)]
      exact .ok acc ignored
  | cons m ms ih =>
    cases fuel with
    | nil => simp at hf
    | cons g fuel =>
      obtain ⟨sep, bs, bs', cs, more, rfl, hsep, hk, hb, hb', ht, hms⟩ := h
      simp only [List.append_assoc, List.cons_append]
      rw [members, bind_ok (anotherMember_separates hsep _ ignored), if_pos rfl,
        List.foldlM_cons]
      -- The key, the value, and the members after it.
      have hkey := gives_string hk (bs ++ ':' :: (bs' ++ (cs ++ (more ++ '\x7d' :: rest)))) ignored
      have hvalue (acc : σ) (key : String) (ignored : Nat) :=
        hstep m List.mem_cons_self acc key ignored hb hb' ht
          (m.2.follows_of_ends (ends_spellsMembers hms rest))
      have hrest (acc : σ) (ignored : Nat) :=
        ih (fun m' hm' => hstep m' (List.mem_cons_of_mem _ hm')) hms (by simpa using hf) acc ignored
      show Gives _ (((textOf? m.1).bind _).bind _) _
      rw [Option.bind_assoc]
      refine hkey.bind fun key ignored _ => ?_
      exact (hvalue acc key ignored).bind fun acc ignored _ => hrest acc ignored

/-- An object in braces after its first brace, and what is made of its members. -/
theorem gives_object {step : σ → String → Reader σ} {put : σ → String → Syntax → Option σ}
    {ms : List (List Char × Syntax)}
    (hstep : ∀ m ∈ ms, ∀ acc key, DenotesMember (step acc key) m.2 (put acc key m.2))
    {inside : List Char} (h : SpellsMembers true ms inside) (acc : σ) {k : σ → Reader α}
    {f : σ → Option α} (hk : ∀ acc rest ignored, Gives rest (f acc) (k acc ⟨rest, ignored⟩))
    (rest : List Char) (ignored : Nat) :
    Gives rest
      ((ms.foldlM (fun acc m => (textOf? m.1).bind fun key => put acc key m.2) acc).bind f)
      (closing (do k (← members step (← Reader.rest) true acc)) endObject
        ⟨inside ++ '\x7d' :: rest, ignored⟩) := by
  refine Gives.closing (m := '\x7d' :: rest) ?_ (endObject_ok rest)
  rw [bind_rest]
  have := length_le_spellsMembers h
  refine (gives_members hstep h ?_ acc rest ignored).bind fun acc ignored _ => hk acc _ ignored
  simp only [List.length_append, List.length_cons]
  omega

end Brackets

/-! ### Values of any kind -/

theorem foldlM_entries (depth : Nat) (ms : List (List Char × Syntax))
    (acc : List (Content × Content)) :
    ms.foldlM (fun acc m => (textOf? m.1).bind fun key =>
      (m.2.content? depth).map fun c => (Content.text key, c) :: acc) acc
      = (entries? ms depth).map (·.reverse ++ acc) := by
  induction ms generalizing acc with
  | nil => rfl
  | cons m ms ih =>
    obtain ⟨key, t⟩ := m
    rw [List.foldlM_cons, entries?]
    cases textOf? key with
    | none => rfl
    | some k =>
      cases t.content? depth with
      | none => rfl
      | some c =>
        show List.foldlM _ ((Content.text k, c) :: acc) ms = _
        rw [ih]
        simp [Function.comp_def]

theorem mapM_content? (depth : Nat) (ts : List Syntax) :
    ts.mapM (·.content? depth) = contents? ts depth := by
  induction ts with
  | nil => rfl
  | cons t ts ih =>
    rw [List.mapM_cons, ih, contents?]
    cases contents? ts depth <;> rfl

/-- A number is read as what its digits give. -/
theorem denotes_number (spelling : List Char) (depth : Nat) :
    Denotes (value depth) (.number spelling) ((Syntax.number spelling).content? depth) := by
  intro bs cs rest ignored hb ht hends
  obtain ⟨rfl, hn⟩ := ht
  cases depth with
  | zero => exact .error _ _
  | succ depth =>
    cases hn with
    | @negative cs hm =>
      rw [value, List.cons_append, bind_ok (peekToken?_eq hb (by decide) ignored)]
      simp only [Char.reduceEq, ↓reduceIte]
      rw [bind_skip]
      exact (gives_negative hm hends ignored).map _
    | positive hm =>
      have hread := gives_positive hm hends ignored
      obtain ⟨c, ds, rfl, hc⟩ := hm.exists_cons
      have hblank : isBlank c = false := by
        have := startsValue_of_isDigit hc
        simp_all [startsValue]
      -- A digit is none of the characters that other values start with.
      have other {d : Char} (hd : d.isDigit = false) : c ≠ d := Text.ne_of_isDigit hc hd
      rw [value, List.cons_append, bind_ok (peekToken?_eq hb hblank ignored)]
      simp only [if_neg (other (d := 'n') rfl), if_neg (other (d := 't') rfl),
        if_neg (other (d := 'f') rfl), if_neg (other (d := '-') rfl), if_pos hc]
      exact hread.map _

/-- The entries of an object, if each of its values is read as its content. -/
theorem gives_entries {depth : Nat} {ms : List (List Char × Syntax)}
    (hvalue : ∀ m ∈ ms, Denotes (value depth) m.2 (m.2.content? depth)) {inside : List Char}
    (h : SpellsMembers true ms inside) (rest : List Char) (ignored : Nat) :
    Gives rest (entries? ms depth)
      (closing (do
        let entries ← members (fun (acc : List (Content × Content)) key => do
          colon
          return (.text key, ← value depth) :: acc) (← Reader.rest) true []
        return entries.reverse) endObject ⟨inside ++ '\x7d' :: rest, ignored⟩) := by
  have hstep : ∀ m ∈ ms, ∀ (acc : List (Content × Content)) key,
      DenotesMember (do
        colon
        return (.text key, ← value depth) :: acc) m.2
        ((m.2.content? depth).map fun c => (.text key, c) :: acc) :=
    fun m hm acc key => Denotes.member fun ignored hb ht hends =>
      (hvalue m hm ignored hb ht hends).map _
  have hgives := @gives_object _ _ _
    (fun acc key t => (t.content? depth).map fun c => (Content.text key, c) :: acc) ms
    hstep inside h [] (fun entries => pure entries.reverse) (fun entries => some entries.reverse)
    (fun _ _ ignored => .ok _ ignored) rest ignored
  -- The entries were put together last one first.
  have hentries : ((entries? ms depth).map (·.reverse ++ [])).bind
      (fun entries => some entries.reverse) = entries? ms depth := by
    cases entries? ms depth <;> simp
  rwa [foldlM_entries, hentries] at hgives

/-- Any value is read as its content. -/
theorem denotes_value (t : Syntax) (depth : Nat) : Denotes (value depth) t (t.content? depth) := by
  induction t using Syntax.induct generalizing depth with
  | null =>
    intro bs cs rest ignored hb ht _
    cases ht
    cases depth with
    | zero => exact .error _ _
    | succ depth =>
      rw [value, List.cons_append, bind_ok (peekToken?_eq hb (by decide) ignored)]
      exact .ok _ ignored
  | bool b =>
    intro bs cs rest ignored hb ht _
    cases depth with
    | zero => exact .error _ _
    | succ depth =>
      cases b <;>
      · cases ht
        rw [value, List.cons_append, bind_ok (peekToken?_eq hb (by decide) ignored)]
        exact .ok _ ignored
  | number spelling => exact denotes_number spelling depth
  | text body =>
    intro bs cs rest ignored hb ht _
    obtain ⟨rfl, hbody⟩ := ht
    cases depth with
    | zero => exact .error _ _
    | succ depth =>
      rw [value, List.cons_append, List.append_assoc,
        bind_ok (peekToken?_eq hb (by decide) ignored)]
      simp only [Char.reduceEq, ↓reduceIte]
      rw [if_neg (by decide)]
      exact (gives_string hbody rest ignored).map _
  | list ts ih =>
    intro bs cs rest ignored hb ht _
    obtain ⟨inside, rfl, hts⟩ := ht
    rw [List.cons_append, List.append_assoc]
    -- a list needs a level for itself and one for its items
    rcases depth with _ | _ | depth
    · exact .error _ _
    · rw [value, bind_ok (peekToken?_eq hb (by decide) ignored)]
      exact .error _ _
    · rw [value, bind_ok (peekToken?_eq hb (by decide) ignored)]
      simp only [Char.reduceEq, Nat.add_one_ne_zero, false_and, ↓reduceIte]
      rw [if_neg (by decide), bind_skip, Syntax.content?, if_neg (by simp), ← mapM_content?]
      exact (gives_list (fun t ht => ih t ht (depth + 1)) hts rest ignored).map _
  | object ms ih =>
    intro bs cs rest ignored hb ht _
    obtain ⟨inside, rfl, hms⟩ := ht
    rw [List.cons_append, List.append_assoc]
    rcases depth with _ | _ | depth
    · exact .error _ _
    · rw [value, bind_ok (peekToken?_eq hb (by decide) ignored)]
      exact .error _ _
    · rw [value, bind_ok (peekToken?_eq hb (by decide) ignored)]
      simp only [Char.reduceEq, Nat.add_one_ne_zero, false_and, ↓reduceIte]
      rw [if_neg (by decide), bind_skip, Syntax.content?, if_neg (by simp)]
      exact (gives_entries (fun m hm => ih m hm (depth + 1)) hms rest ignored).map _

end Reader

end ApiSurface.Json
