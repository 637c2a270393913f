/-
A reader accepts spelled values only.

`Takes r` says that a reader that succeeds has taken a spelled value away, and blanks before it. It
holds of the reader of any value and of the reader of every shape (`takes_read`), so a text that is
decoded spells a value, with nothing but blanks around it (`exists_document`).
-/
import ApiSurface.Proofs.Json.Decoding

namespace ApiSurface.Json

theorem Blanks.append {bs bs' : List Char} (h : Blanks bs) (h' : Blanks bs') :
    Blanks (bs ++ bs') := fun c hc => (List.mem_append.mp hc).elim (h c) (h' c)

theorem Separates.append {first : Bool} {sep bs : List Char} (h : Separates first sep)
    (hb : Blanks bs) : Separates first (sep ++ bs) := by
  cases h with
  | first h => exact .first (Blanks.append h hb)
  | comma h h' =>
    rw [List.append_assoc, List.cons_append]
    exact .comma h (Blanks.append h' hb)

namespace Reader

/-- Whether a reader takes nothing but spelled values away, with blanks before them. -/
def Takes {α : Type} (r : Reader α) : Prop :=
  ∀ {cs : List Char} {ignored : Nat} {a : α} {s' : State}, r ⟨cs, ignored⟩ = .ok a s' →
    ∃ bs ds t, cs = bs ++ (ds ++ s'.rest) ∧ Blanks bs ∧ Syntax.Spells t ds

/-- Whether a reader takes nothing but colons and spelled values away, with blanks before each. -/
def TakesMember {α : Type} (r : Reader α) : Prop :=
  ∀ {cs : List Char} {ignored : Nat} {a : α} {s' : State}, r ⟨cs, ignored⟩ = .ok a s' →
    ∃ bs bs' ds t, cs = bs ++ ':' :: (bs' ++ (ds ++ s'.rest)) ∧ Blanks bs ∧ Blanks bs' ∧
      Syntax.Spells t ds

/-! ### Readers that succeed -/

section Success

variable {α β σ : Type} {r : Reader α} {s s' : State} {a : α} {cs : List Char} {ignored : Nat}

theorem Fails.ne_ok (h : Fails r s) : r s ≠ .ok a s' := by
  obtain ⟨f, t, hr⟩ := h
  rw [hr]
  exact nofun

theorem ok_of_located (h : located r s = .ok a s') : r s = .ok a s' := by
  rw [located] at h
  cases hr : r s with
  | ok b t =>
    rw [hr] at h
    exact h
  | error f t =>
    rw [hr] at h
    cases h

theorem ok_of_closing {close : Reader Unit} (h : closing r close s = .ok a s') :
    ∃ t, r s = .ok a t ∧ close t = .ok () s' := by
  rw [closing] at h
  cases hr : r s with
  | ok b t =>
    simp only [hr] at h
    cases hc : close t with
    | ok u t' =>
      simp only [hc] at h
      cases h
      exact ⟨t, rfl, hc⟩
    | error f t' =>
      simp only [hc] at h
      cases h
  | error f t =>
    simp only [hr] at h
    cases hc : close t <;> simp only [hc] at h <;> cases h

theorem ok_of_deeper {depth : Nat} {k : Nat → Reader α} (h : deeper depth k s = .ok a s') :
    k (depth - 1) s = .ok a s' := by
  rw [deeper] at h
  by_cases hd : depth ≤ 1
  · rw [if_pos hd] at h
    cases h
  · rwa [if_neg hd] at h

/-- A value one level down was read after the character that opens it. -/
theorem ok_of_inside {depth : Nat} {c : Char} {rest : List Char} {k : Nat → Reader α}
    (h : deeper depth (fun depth => do skip; k depth) ⟨c :: rest, ignored⟩ = .ok a s') :
    k (depth - 1) ⟨rest, ignored⟩ = .ok a s' := by
  have hk := ok_of_deeper h
  rwa [bind_skip] at hk

theorem ok_of_onToken {k : Char → Reader α} (h : onToken k ⟨cs, ignored⟩ = .ok a s') :
    ∃ bs c rest, cs = bs ++ c :: rest ∧ Blanks bs ∧ k c ⟨c :: rest, ignored⟩ = .ok a s' := by
  rw [onToken] at h
  exact ok_of_token h (failAhead_ne_ok _ · _ _)

theorem ok_of_map {f : α → β} {b : β} (h : (do return f (← r) : Reader β) s = .ok b s') :
    ∃ a, r s = .ok a s' := by
  obtain ⟨a, t, hr, h⟩ := bind_eq_ok.mp h
  cases h
  exact ⟨a, hr⟩

end Success

/-! ### Lists -/

section Brackets

variable {α β σ : Type} {cs : List Char} {ignored : Nat} {s' : State}

theorem exists_of_anotherItem {first another : Bool}
    (h : anotherItem first ⟨cs, ignored⟩ = .ok another s') :
    ∃ sep, cs = sep ++ s'.rest ∧ if another then Separates first sep
      else Blanks sep ∧ s'.rest.head? = some ']' := by
  rw [anotherItem] at h
  obtain ⟨bs, c, rest, rfl, hb, h⟩ := ok_of_token h (failAhead_ne_ok _ · _ _)
  dsimp only at h
  by_cases hclose : c = ']'
  · rw [if_pos hclose] at h
    cases h
    exact ⟨bs, rfl, hb, by rw [hclose]; rfl⟩
  rw [if_neg hclose] at h
  cases first with
  | true =>
    cases h
    exact ⟨bs, rfl, .first hb⟩
  | false =>
    rw [if_neg (by decide)] at h
    by_cases hcomma : c = ','
    · rw [if_pos hcomma, bind_skip] at h
      obtain ⟨bs', d, rest', rfl, hb', h⟩ := ok_of_token h (failAhead_ne_ok _ · _ _)
      dsimp only at h
      by_cases hd : d = ']'
      · rw [if_pos hd] at h
        cases h
      · rw [if_neg hd] at h
        cases h
        exact ⟨bs ++ ',' :: bs', by simp [hcomma], .comma hb hb'⟩
    · rw [if_neg hcomma] at h
      cases h

theorem exists_of_endList (h : endList ⟨cs, ignored⟩ = .ok () s') :
    ∃ bs, cs = bs ++ ']' :: s'.rest ∧ Blanks bs := by
  rw [endList] at h
  obtain ⟨bs, c, rest, rfl, hb, h⟩ := ok_of_token h (failAhead_ne_ok _ · _ _)
  dsimp only at h
  by_cases hclose : c = ']'
  · rw [if_pos hclose] at h
    cases h
    exact ⟨bs, by rw [hclose]; rfl, hb⟩
  rw [if_neg hclose] at h
  by_cases hcomma : c = ','
  · rw [if_pos hcomma] at h
    refine absurd h (Fails.ne_ok (Fails.bind fun _ s => Fails.bind fun c s => ?_))
    cases c with
    | none => exact fails_failAhead _ _
    | some d =>
      dsimp only
      split <;> exact fails_failAhead _ _
  · rw [if_neg hcomma] at h
    cases h

/-- Items that were read are spelled. -/
theorem spellsItems_of_items {item : Reader α} (hitem : Takes item) {fuel : List Char}
    {first : Bool} {as : List α} (h : items item fuel first ⟨cs, ignored⟩ = .ok as s') :
    ∃ inside ts, cs = inside ++ s'.rest ∧ SpellsItems first ts inside := by
  induction fuel generalizing first cs ignored as with
  | nil => cases h
  | cons f fuel ih =>
    rw [items] at h
    obtain ⟨another, ⟨rest, n⟩, hanother, h⟩ := bind_eq_ok.mp h
    obtain ⟨sep, rfl, hsep⟩ := exists_of_anotherItem hanother
    cases another with
    | false =>
      cases h
      exact ⟨sep, [], rfl, hsep.1⟩
    | true =>
      rw [if_pos rfl] at h hsep
      obtain ⟨a, ⟨rest', n⟩, hread, hmore⟩ := bind_eq_ok.mp h
      obtain ⟨bs, ds, t, rfl, hb, ht⟩ := hitem hread
      obtain ⟨as, hitems⟩ := ok_of_map hmore
      obtain ⟨inside, ts, rfl, hts⟩ := ih hitems
      exact ⟨(sep ++ bs) ++ (ds ++ inside), t :: ts, by simp,
        _, _, _, rfl, hsep.append hb, ht, hts⟩

theorem SpellsItems.append {first : Bool} {ts : List Syntax} {inside bs : List Char}
    (h : SpellsItems first ts inside) (hb : Blanks bs) : SpellsItems first ts (inside ++ bs) := by
  induction ts generalizing first inside with
  | nil => exact Blanks.append h hb
  | cons t ts ih =>
    obtain ⟨sep, cs, more, rfl, hsep, ht, hts⟩ := h
    exact ⟨sep, cs, more ++ bs, by simp, hsep, ht, ih hts⟩

/-- A list is spelled if its items and its end are. -/
theorem spells_of_endList {inside : List Char} {ts : List Syntax} (hts : SpellsItems true ts inside)
    (hend : endList ⟨cs, ignored⟩ = .ok () s') :
    ∃ ds t, '[' :: (inside ++ cs) = ds ++ s'.rest ∧ Syntax.Spells t ds := by
  obtain ⟨bs, rfl, hb⟩ := exists_of_endList hend
  exact ⟨'[' :: (inside ++ bs ++ [']']), .list ts, by simp, inside ++ bs, rfl,
    SpellsItems.append hts hb⟩

/-- A list that was read after its first bracket is spelled. -/
theorem spells_of_list {item : Reader α} (hitem : Takes item) {as : List α}
    (h : closing (do items item (← Reader.rest) true) endList ⟨cs, ignored⟩ = .ok as s') :
    ∃ ds t, '[' :: cs = ds ++ s'.rest ∧ Syntax.Spells t ds := by
  obtain ⟨⟨rest, n⟩, hitems, hend⟩ := ok_of_closing h
  rw [bind_rest] at hitems
  obtain ⟨inside, ts, rfl, hts⟩ := spellsItems_of_items hitem hitems
  exact spells_of_endList hts hend

/-! ### Objects -/

theorem exists_of_anotherMember {first another : Bool}
    (h : anotherMember first ⟨cs, ignored⟩ = .ok another s') :
    ∃ sep, cs = sep ++ s'.rest ∧
      if another then Separates first sep ∧ s'.rest.head? = some '"' else Blanks sep := by
  rw [anotherMember] at h
  obtain ⟨bs, c, rest, rfl, hb, h⟩ := ok_of_token h (failAhead_ne_ok _ · _ _)
  dsimp only at h
  by_cases hclose : c = '\x7d'
  · rw [if_pos hclose] at h
    cases h
    exact ⟨bs, rfl, hb⟩
  rw [if_neg hclose] at h
  cases first with
  | true =>
    rw [if_pos rfl] at h
    by_cases hquote : c = '"'
    · rw [if_pos hquote] at h
      cases h
      exact ⟨bs, rfl, .first hb, by rw [hquote]; rfl⟩
    · rw [if_neg hquote] at h
      cases h
  | false =>
    rw [if_neg (by decide)] at h
    by_cases hcomma : c = ','
    · rw [if_pos hcomma, bind_skip] at h
      obtain ⟨bs', d, rest', rfl, hb', h⟩ := ok_of_token h (failAhead_ne_ok _ · _ _)
      dsimp only at h
      by_cases hquote : d = '"'
      · rw [if_pos hquote] at h
        cases h
        exact ⟨bs ++ ',' :: bs', by simp [hcomma], .comma hb hb', by rw [hquote]; rfl⟩
      rw [if_neg hquote] at h
      by_cases hd : d = '\x7d'
      · rw [if_pos hd] at h
        cases h
      · rw [if_neg hd] at h
        cases h
    · rw [if_neg hcomma] at h
      cases h

theorem exists_of_endObject (h : endObject ⟨cs, ignored⟩ = .ok () s') :
    ∃ bs, cs = bs ++ '\x7d' :: s'.rest ∧ Blanks bs := by
  rw [endObject] at h
  obtain ⟨bs, c, rest, rfl, hb, h⟩ := ok_of_token h (failAhead_ne_ok _ · _ _)
  dsimp only at h
  by_cases hclose : c = '\x7d'
  · rw [if_pos hclose] at h
    cases h
    exact ⟨bs, by rw [hclose]; rfl, hb⟩
  rw [if_neg hclose] at h
  by_cases hcomma : c = ','
  · rw [if_pos hcomma] at h
    cases h
  · rw [if_neg hcomma] at h
    cases h

theorem isBody_of_head? {rest : List Char} {text : String} (hhead : rest.head? = some '"')
    (h : string ⟨rest, ignored⟩ = .ok text s') :
    ∃ body, rest = '"' :: (body ++ '"' :: s'.rest) ∧ IsBody body := by
  cases rest with
  | nil => cases hhead
  | cons c rest =>
    obtain rfl : c = '"' := by simpa using hhead
    obtain ⟨body, rfl, hbody⟩ := isBody_of_string h
    exact ⟨body, rfl, hbody⟩

/-- Members that were read are spelled. -/
theorem spellsMembers_of_members {step : σ → String → Reader σ}
    (hstep : ∀ acc key, TakesMember (step acc key)) {fuel : List Char} {first : Bool} {acc last : σ}
    (h : members step fuel first acc ⟨cs, ignored⟩ = .ok last s') :
    ∃ inside ms, cs = inside ++ s'.rest ∧ SpellsMembers first ms inside := by
  induction fuel generalizing first cs ignored acc with
  | nil => cases h
  | cons f fuel ih =>
    rw [members] at h
    obtain ⟨another, ⟨rest, n⟩, hanother, h⟩ := bind_eq_ok.mp h
    obtain ⟨sep, rfl, hsep⟩ := exists_of_anotherMember hanother
    cases another with
    | false =>
      cases h
      exact ⟨sep, [], rfl, hsep⟩
    | true =>
      rw [if_pos rfl] at h hsep
      obtain ⟨key, ⟨after, n⟩, hkey, hafter⟩ := bind_eq_ok.mp h
      obtain ⟨mid, ⟨more, n⟩, hvalue, hmore⟩ := bind_eq_ok.mp hafter
      obtain ⟨inside, ms, rfl, hms⟩ := ih hmore
      obtain ⟨bs, bs', ds, t, rfl, hb, hb', ht⟩ := hstep acc key hvalue
      obtain ⟨body, rfl, hbody⟩ := isBody_of_head? hsep.2 hkey
      exact ⟨_, (body, t) :: ms, by simp, sep, bs, bs', ds, inside, rfl, hsep.1, hbody, hb, hb',
        ht, hms⟩

theorem SpellsMembers.append {first : Bool} {ms : List (List Char × Syntax)}
    {inside bs : List Char} (h : SpellsMembers first ms inside) (hb : Blanks bs) :
    SpellsMembers first ms (inside ++ bs) := by
  induction ms generalizing first inside with
  | nil => exact Blanks.append h hb
  | cons m ms ih =>
    obtain ⟨sep, bs₁, bs₂, cs, more, rfl, hsep, hk, hb₁, hb₂, ht, hms⟩ := h
    exact ⟨sep, bs₁, bs₂, cs, more ++ bs, by simp, hsep, hk, hb₁, hb₂, ht, ih hms⟩

/-- An object is spelled if its members and its end are. -/
theorem spells_of_endObject {inside : List Char} {ms : List (List Char × Syntax)}
    (hms : SpellsMembers true ms inside) (hend : endObject ⟨cs, ignored⟩ = .ok () s') :
    ∃ ds t, '\x7b' :: (inside ++ cs) = ds ++ s'.rest ∧ Syntax.Spells t ds := by
  obtain ⟨bs, rfl, hb⟩ := exists_of_endObject hend
  exact ⟨'\x7b' :: (inside ++ bs ++ ['\x7d']), .object ms, by simp, inside ++ bs, rfl,
    SpellsMembers.append hms hb⟩

/-- An object that was read after its first brace is spelled. -/
theorem spells_of_object {step : σ → String → Reader σ}
    (hstep : ∀ acc key, TakesMember (step acc key)) {acc : σ} {k : σ → Reader α}
    (hk : ∀ {acc s a s'}, k acc s = .ok a s' → s'.rest = s.rest) {a : α}
    (h : closing (do k (← members step (← Reader.rest) true acc)) endObject ⟨cs, ignored⟩
      = .ok a s') :
    ∃ ds t, '\x7b' :: cs = ds ++ s'.rest ∧ Syntax.Spells t ds := by
  obtain ⟨⟨rest, n⟩, hmembers, hend⟩ := ok_of_closing h
  rw [bind_rest] at hmembers
  obtain ⟨last, ⟨rest', n'⟩, hmembers, hlast⟩ := bind_eq_ok.mp hmembers
  obtain ⟨inside, ms, rfl, hms⟩ := spellsMembers_of_members hstep hmembers
  obtain rfl : rest = rest' := hk hlast
  exact spells_of_endObject hms hend

end Brackets

/-! ### Values of any kind -/

section Scalars

variable {cs : List Char} {ignored : Nat} {s' : State}

/-- A member that is read as an entry is spelled. -/
theorem takesMember_entry {r : Reader Content} (hr : Takes r) (acc : List (Content × Content))
    (key : String) : TakesMember (do
      colon
      return (Content.text key, ← r) :: acc) := by
  intro cs ignored a s' h
  obtain ⟨_, ⟨more, n⟩, hcolon, h⟩ := bind_eq_ok.mp h
  obtain ⟨x, hvalue⟩ := ok_of_map h
  obtain ⟨bs, rfl, hb⟩ := exists_colon hcolon
  obtain ⟨bs', ds, t, rfl, hb', ht⟩ := hr hvalue
  exact ⟨bs, bs', ds, t, rfl, hb, hb', ht⟩

/-- A value of any kind that was read is spelled. -/
theorem takes_value (depth : Nat) : Takes (value depth) := by
  induction depth with
  | zero => exact fun h => nomatch h
  | succ depth ih =>
    intro cs ignored a s' h
    rw [value] at h
    obtain ⟨bs, c, rest, rfl, hb, h⟩ := ok_of_token h (failAhead_ne_ok _ · _ _)
    dsimp only at h
    have taken (h : ∃ ds t, c :: rest = ds ++ s'.rest ∧ Syntax.Spells t ds) :
        ∃ bs' ds t, bs ++ c :: rest = bs' ++ (ds ++ s'.rest) ∧ Blanks bs' ∧
          Syntax.Spells t ds := by
      obtain ⟨ds, t, hrest, ht⟩ := h
      exact ⟨bs, ds, t, by rw [hrest], hb, ht⟩
    refine taken ?_
    by_cases hn : c = 'n'
    · rw [if_pos hn] at h
      obtain ⟨-, rfl⟩ := ok_of_named h
      exact ⟨_, .null, by rw [hn]; rfl, rfl⟩
    rw [if_neg hn] at h
    by_cases ht : c = 't'
    · rw [if_pos ht] at h
      obtain ⟨-, rfl⟩ := ok_of_named h
      exact ⟨_, .bool true, by rw [ht]; rfl, rfl⟩
    rw [if_neg ht] at h
    by_cases hf : c = 'f'
    · rw [if_pos hf] at h
      obtain ⟨-, rfl⟩ := ok_of_named h
      exact ⟨_, .bool false, by rw [hf]; rfl, rfl⟩
    rw [if_neg hf] at h
    by_cases hminus : c = '-'
    · rw [if_pos hminus, bind_skip] at h
      obtain ⟨x, hnumber⟩ := ok_of_map h
      obtain ⟨ds, hrest, hm⟩ := isMagnitude_of_number hnumber
      exact ⟨'-' :: ds, .number ('-' :: ds), by rw [hminus]; exact congrArg ('-' :: ·) hrest,
        rfl, .negative hm⟩
    rw [if_neg hminus] at h
    by_cases hd : c.isDigit = true
    · rw [if_pos hd] at h
      obtain ⟨x, hnumber⟩ := ok_of_map h
      obtain ⟨ds, hrest, hm⟩ := isMagnitude_of_number hnumber
      exact ⟨ds, .number ds, hrest, rfl, .positive hm⟩
    rw [if_neg hd] at h
    by_cases hquote : c = '"'
    · subst hquote
      rw [if_pos rfl] at h
      obtain ⟨x, hstring⟩ := ok_of_map h
      obtain ⟨body, rfl, hbody⟩ := isBody_of_string hstring
      exact ⟨'"' :: (body ++ ['"']), .text body, by simp, rfl, hbody⟩
    rw [if_neg hquote] at h
    by_cases hdeep : depth = 0 ∧ (c = '[' ∨ c = '\x7b')
    · rw [if_pos hdeep] at h
      cases h
    rw [if_neg hdeep] at h
    by_cases hlist : c = '['
    · subst hlist
      rw [if_pos rfl, bind_skip] at h
      obtain ⟨x, hitems⟩ := ok_of_map h
      exact spells_of_list ih hitems
    rw [if_neg hlist] at h
    by_cases hobject : c = '\x7b'
    · subst hobject
      rw [if_pos rfl, bind_skip] at h
      obtain ⟨x, hmembers⟩ := ok_of_map h
      refine spells_of_object (fun acc key => takesMember_entry ih acc key) (fun h => ?_) hmembers
      cases h
      rfl
    · rw [if_neg hobject] at h
      cases h

theorem exists_of_text {expected text : String}
    (h : Reader.text expected ⟨cs, ignored⟩ = .ok text s') :
    ∃ bs body, cs = bs ++ '"' :: (body ++ '"' :: s'.rest) ∧ Blanks bs ∧ IsBody body := by
  obtain ⟨bs, c, rest, rfl, hb, h⟩ := ok_of_onToken h
  by_cases hquote : c = '"'
  · subst hquote
    rw [if_pos rfl] at h
    obtain ⟨body, rfl, hbody⟩ := isBody_of_string h
    exact ⟨bs, body, rfl, hb, hbody⟩
  · rw [if_neg hquote] at h
    exact absurd h (fails_refuseNext _ _).ne_ok

theorem takes_text (expected : String) : Takes (text expected) := by
  intro cs ignored a s' h
  obtain ⟨bs, body, rfl, hb, hbody⟩ := exists_of_text h
  exact ⟨bs, '"' :: (body ++ ['"']), .text body, by simp, hb, rfl, hbody⟩

theorem takes_flag : Takes flag := by
  intro cs ignored a s' h
  obtain ⟨bs, c, rest, rfl, hb, h⟩ := ok_of_onToken h
  by_cases ht : c = 't'
  · rw [if_pos ht, bind_skip] at h
    obtain ⟨_, ⟨more, n⟩, hword, h⟩ := bind_eq_ok.mp h
    cases h
    exact ⟨bs, _, .bool true, by rw [ht, eq_of_word hword]; rfl, hb, rfl⟩
  rw [if_neg ht] at h
  by_cases hf : c = 'f'
  · rw [if_pos hf, bind_skip] at h
    obtain ⟨_, ⟨more, n⟩, hword, h⟩ := bind_eq_ok.mp h
    cases h
    exact ⟨bs, _, .bool false, by rw [hf, eq_of_word hword]; rfl, hb, rfl⟩
  · rw [if_neg hf] at h
    exact absurd h (fails_refuseNext _ _).ne_ok

theorem takes_null : Takes null := by
  intro cs ignored a s' h
  obtain ⟨bs, c, rest, rfl, hb, h⟩ := ok_of_onToken h
  by_cases hn : c = 'n'
  · rw [if_pos hn, bind_skip] at h
    exact ⟨bs, _, .null, by rw [hn, eq_of_word h]; rfl, hb, rfl⟩
  · rw [if_neg hn] at h
    exact absurd h (fails_refuseNext _ _).ne_ok

theorem takes_optional {α : Type} {value : Reader α} (hvalue : Takes value) :
    Takes (optional value) := by
  intro cs ignored a s' h
  obtain ⟨bs, rest, rfl, hb, htoken⟩ := exists_token cs ignored
  rw [optional, bind_ok htoken] at h
  by_cases hn : rest.head? = some 'n'
  · rw [if_pos hn] at h
    cases rest with
    | nil => cases hn
    | cons c rest =>
      obtain rfl : c = 'n' := by simpa using hn
      rw [bind_skip] at h
      obtain ⟨_, ⟨more, n⟩, hword, h⟩ := bind_eq_ok.mp h
      cases h
      exact ⟨bs, _, .null, by rw [eq_of_word hword]; rfl, hb, rfl⟩
  · rw [if_neg hn] at h
    obtain ⟨x, h⟩ := ok_of_map h
    obtain ⟨bs', ds, t, rfl, hb', ht⟩ := hvalue h
    exact ⟨bs ++ bs', ds, t, by simp, Blanks.append hb hb', ht⟩

end Scalars

/-! ### Choices -/

section Choices

variable {α β : Type} {choice : Alternatives α β} {cs : List Char} {ignored : Nat} {s s' : State}

theorem ok_of_accept {r : Except Mismatch α} {a : α} (h : accept r s = .ok a s') : s' = s := by
  cases r with
  | ok b =>
    cases h
    rfl
  | error m => cases h

theorem ok_of_alternative {key : Reader String} {v : Variant α β}
    (h : alternative choice key s = .ok v s') : ∃ name, key s = .ok name s' := by
  obtain ⟨name, t, hkey, h⟩ := bind_eq_ok.mp h
  rw [ok_of_accept h]
  exact ⟨name, hkey⟩

/-- A bare name that was read is spelled. -/
theorem spells_of_alternative {v : Variant α β}
    (h : alternative choice string ⟨'"' :: cs, ignored⟩ = .ok v s') :
    ∃ ds t, '"' :: cs = ds ++ s'.rest ∧ Syntax.Spells t ds := by
  obtain ⟨name, hname⟩ := ok_of_alternative h
  obtain ⟨body, rfl, hbody⟩ := isBody_of_string hname
  exact ⟨'"' :: (body ++ ['"']), .text body, by simp, rfl, hbody⟩

theorem takes_tagged {value : Nat → Reader α} (hvalue : ∀ depth, Takes (value depth))
    (depth : Nat) : Takes (tagged choice depth value) := by
  intro cs ignored a s' h
  obtain ⟨bs, c, rest, rfl, hb, h⟩ := ok_of_onToken h
  by_cases hobject : c = '\x7b'
  · subst hobject
    rw [if_pos rfl] at h
    obtain ⟨b, ⟨after, n⟩, hdeep, hend⟩ := bind_eq_ok.mp h
    obtain ⟨v, ⟨rest₁, n₁⟩, hkey, hinside⟩ := bind_eq_ok.mp (ok_of_inside hdeep)
    obtain ⟨_, ⟨rest₂, n₂⟩, hcolon, hinside⟩ := bind_eq_ok.mp hinside
    obtain ⟨name, hname⟩ := ok_of_alternative (ok_of_located hkey)
    -- The value beside the name.
    have hvalue' : ∃ bs ds t, rest₂ = bs ++ (ds ++ after) ∧ Blanks bs ∧ Syntax.Spells t ds := by
      cases v with
      | bare b =>
        obtain ⟨x, hnull⟩ := ok_of_map hinside
        exact takes_null hnull
      | carrying make =>
        obtain ⟨x, hread⟩ := ok_of_map hinside
        exact hvalue _ hread
    obtain ⟨bs₃, ds, t, rfl, hb₃, ht⟩ := hvalue'
    obtain ⟨bs₂, rfl, hb₂⟩ := exists_colon hcolon
    obtain ⟨bs₁, key, rfl, hb₁, hk⟩ := exists_of_text hname
    obtain ⟨bs₄, rest₄, rfl, hb₄, htoken⟩ := exists_token after n
    rw [bind_ok htoken] at hend
    cases rest₄ with
    | nil => cases hend
    | cons d rest₄ =>
      simp only [List.head?_cons] at hend
      by_cases hclose : d = '\x7d'
      · subst hclose
        rw [if_pos rfl, bind_skip] at hend
        cases hend
        refine ⟨bs, _, .object [(key, t)], ?_, hb, _, rfl, bs₁, bs₂, bs₃, ds, bs₄, rfl, .first hb₁,
          hk, hb₂, hb₃, ht, hb₄⟩
        simp
      · rw [if_neg hclose] at hend
        cases hend
  rw [if_neg hobject] at h
  by_cases hquote : c = '"'
  · subst hquote
    rw [if_pos rfl] at h
    obtain ⟨v, ⟨after, n⟩, hname, h⟩ := bind_eq_ok.mp h
    obtain ⟨ds, t, hrest, ht⟩ := spells_of_alternative (ok_of_located hname)
    cases v with
    | bare b =>
      cases h
      exact ⟨bs, ds, t, by rw [hrest], hb, ht⟩
    | carrying make => cases h
  · rw [if_neg hquote] at h
    cases h

theorem takes_keyed {value : Nat → Reader α} (hvalue : ∀ depth, Takes (value depth))
    (depth : Nat) : Takes (keyed choice depth value) := by
  intro cs ignored a s' h
  obtain ⟨bs, c, rest, rfl, hb, h⟩ := ok_of_onToken h
  by_cases hobject : c = '\x7b'
  · subst hobject
    rw [if_pos rfl] at h
    have hinside := ok_of_inside (ok_of_located h)
    obtain ⟨⟨after, n⟩, hsingle, hend⟩ := ok_of_closing hinside
    rw [singleMember] at hsingle
    obtain ⟨another, ⟨rest₁, n₁⟩, hanother, hsingle⟩ := bind_eq_ok.mp hsingle
    obtain ⟨sep, rfl, hsep⟩ := exists_of_anotherMember hanother
    cases another with
    | false => cases hsingle
    | true =>
      rw [if_pos rfl] at hsingle hsep
      obtain ⟨v, ⟨rest₂, n₂⟩, hkey, hcarried⟩ := bind_eq_ok.mp hsingle
      obtain ⟨name, hname⟩ := ok_of_alternative hkey
      cases v with
      | bare b => cases hcarried
      | carrying make =>
        obtain ⟨_, ⟨rest₃, n₃⟩, hcolon, hcarried⟩ := bind_eq_ok.mp hcarried
        obtain ⟨x, ⟨rest₄, n₄⟩, hread, hcarried⟩ := bind_eq_ok.mp hcarried
        obtain ⟨another, ⟨rest₅, n₅⟩, hanother', hcarried⟩ := bind_eq_ok.mp hcarried
        obtain ⟨sep', rfl, hsep'⟩ := exists_of_anotherMember hanother'
        cases another with
        | true => exact absurd hcarried (Fails.bind fun _ _ => fails_refuse _ _).ne_ok
        | false =>
          cases hcarried
          obtain ⟨bs₂, ds, t, rfl, hb₂, ht⟩ := hvalue _ hread
          obtain ⟨bs₁, rfl, hb₁⟩ := exists_colon hcolon
          obtain ⟨key, rfl, hk⟩ := isBody_of_head? hsep.2 hname
          have hms : SpellsMembers true [(key, t)] _ :=
            ⟨sep, bs₁, bs₂, ds, sep', rfl, hsep.1, hk, hb₁, hb₂, ht, hsep'⟩
          obtain ⟨os, o, hrest, ho⟩ := spells_of_endObject hms hend
          exact ⟨bs, os, o, by simpa using hrest, hb, ho⟩
  rw [if_neg hobject] at h
  by_cases hquote : c = '"'
  · subst hquote
    rw [if_pos rfl] at h
    obtain ⟨v, ⟨after, n⟩, hname, h⟩ := bind_eq_ok.mp (ok_of_located h)
    obtain ⟨ds, t, hrest, ht⟩ := spells_of_alternative hname
    cases v with
    | bare b =>
      cases h
      exact ⟨bs, ds, t, by rw [hrest], hb, ht⟩
    | carrying make => cases h
  rw [if_neg hquote] at h
  by_cases hlist : c = '['
  · rw [if_pos hlist, hlist] at h
    have hinside := ok_of_inside (ok_of_located h)
    obtain ⟨t, hrefuse, -⟩ := ok_of_closing hinside
    cases hrefuse
  · rw [if_neg hlist] at h
    exact absurd h (fails_refuseNext _ _).ne_ok

end Choices

/-! ### Shapes -/

/-- Where a list ends no more items are read. -/
theorem rest_of_readInOrder : {σ α : Type} → (fields : Fields σ α) → (label : String) →
    (depth count : Nat) → {rest : List Char} → {ignored : Nat} → {a : α} → {s' : State} →
    readInOrder fields label depth count ⟨']' :: rest, ignored⟩ = .ok a s' →
    s'.rest = ']' :: rest
  | _, _, .nil, label, depth, count, rest, ignored, a, s', h => by
    cases h
    rfl
  | _, _, .cons field s more, label, depth, count, rest, ignored, a, s', h => by
    have hend : anotherItem (decide (count = 0)) ⟨']' :: rest, ignored⟩ = _ :=
      anotherItem_end _ blanks_nil rest ignored
    rw [readInOrder, bind_ok hend] at h
    cases hd : field.default with
    | none =>
      simp only [hd] at h
      cases h
    | some d =>
      simp only [hd] at h
      obtain ⟨x, hmore⟩ := ok_of_map h
      exact rest_of_readInOrder more label depth (count + 1) hmore

/-- A member of another name leaves the slot as it is. -/
theorem readMember_other {α σ β : Type} {field : Field α} {s : Shape α} {more : Fields σ β}
    {key : String} (h : key ≠ field.name) (depth : Nat) (slot : Option α) (slots : σ) :
    readMember (.cons field s more) depth (slot, slots) key
      = do return (slot, ← readMember more depth slots key) := by
  cases slot <;> rw [readMember, if_neg h]

mutual

/-- A value of a shape that was read is spelled. -/
theorem takes_read : {α : Type} → (s : Shape α) → (depth : Nat) → Takes (read s depth)
  | _, .text, depth => takes_text "a string"
  | _, .flag, depth => takes_flag
  | _, .nothing, depth => fun h => by
    obtain ⟨bs, c, rest, -, -, h⟩ := ok_of_onToken h
    exact absurd h (fails_refuseNext _ _).ne_ok
  | _, .optional s, depth => takes_optional (takes_read s depth)
  | _, .list item, depth => fun h => by
    rw [read] at h
    obtain ⟨bs, c, rest, rfl, hb, h⟩ := ok_of_onToken h
    by_cases hlist : c = '['
    · subst hlist
      rw [if_pos rfl] at h
      have hinside := ok_of_inside (ok_of_located h)
      obtain ⟨ds, t, hrest, ht⟩ := spells_of_list (takes_read item (depth - 1)) hinside
      exact ⟨bs, ds, t, by rw [hrest], hb, ht⟩
    · rw [if_neg hlist] at h
      exact absurd h (fails_refuseNext _ _).ne_ok
  | _, .record label fields, depth => fun h => by
    rw [read] at h
    obtain ⟨bs, c, rest, rfl, hb, h⟩ := ok_of_onToken h
    by_cases hobject : c = '\x7b'
    · subst hobject
      rw [if_pos rfl] at h
      have hinside := ok_of_inside (ok_of_located h)
      obtain ⟨ds, t, hrest, ht⟩ := spells_of_object
        (fun slots key => takes_readMember fields (depth - 1) slots key)
        (fun h => congrArg State.rest (ok_of_accept h)) hinside
      exact ⟨bs, ds, t, by rw [hrest], hb, ht⟩
    rw [if_neg hobject] at h
    by_cases hlist : c = '['
    · subst hlist
      rw [if_pos rfl] at h
      have hinside := ok_of_inside (ok_of_located h)
      obtain ⟨⟨after, n⟩, hread, hend⟩ := ok_of_closing hinside
      obtain ⟨inside, ts, rfl, hts⟩ :=
        spellsItems_of_readInOrder fields (fields.positional label) (depth - 1) 0 hread
      obtain ⟨ds, t, hrest, ht⟩ := spells_of_endList hts hend
      exact ⟨bs, ds, t, by rw [← hrest], hb, ht⟩
    · rw [if_neg hlist] at h
      exact absurd h (fails_refuseNext _ _).ne_ok
  | _, .tagged choice s, depth => takes_tagged (takes_read s) depth
  | _, .keyed choice s, depth => takes_keyed (takes_read s) depth
  | _, .buffered interpret _, depth => fun h => by
    rw [read] at h
    obtain ⟨c, ⟨rest, n⟩, hvalue, h⟩ := bind_eq_ok.mp h
    obtain ⟨u, t, hmodify, haccept⟩ := bind_eq_ok.mp h
    cases hmodify
    obtain ⟨bs, ds, t, hcs, hb, ht⟩ := takes_value depth hvalue
    exact ⟨bs, ds, t, by rw [hcs, ok_of_accept haccept], hb, ht⟩
  | _, .view there _ s, depth => fun h => by
    rw [read] at h
    obtain ⟨x, h⟩ := ok_of_map h
    exact takes_read s depth h

/-- The value of a member that was read is spelled. -/
theorem takes_readMember : {σ α : Type} → (fields : Fields σ α) → (depth : Nat) → (slots : σ) →
    (key : String) → TakesMember (readMember fields depth slots key)
  | _, _, .nil, depth, (), key => fun h => by
    rw [readMember] at h
    exact exists_spells_of_skipMember h
  | _, _, .cons field s more, depth, (slot, slots), key => fun h => by
    by_cases hkey : key = field.name
    · cases slot with
      | some a =>
        rw [readMember, if_pos hkey] at h
        cases h
      | none =>
        rw [readMember, if_pos hkey] at h
        obtain ⟨_, ⟨rest, n⟩, hcolon, h⟩ := bind_eq_ok.mp h
        obtain ⟨x, hread⟩ := ok_of_map h
        obtain ⟨bs, rfl, hb⟩ := exists_colon hcolon
        obtain ⟨bs', ds, t, rfl, hb', ht⟩ := takes_read s depth hread
        exact ⟨bs, bs', ds, t, rfl, hb, hb', ht⟩
    · rw [readMember_other hkey] at h
      obtain ⟨slots', hmore⟩ := ok_of_map h
      exact takes_readMember more depth slots key hmore

/-- The members of a record that were read as items are spelled. -/
theorem spellsItems_of_readInOrder : {σ α : Type} → (fields : Fields σ α) → (label : String) →
    (depth count : Nat) → {cs : List Char} → {ignored : Nat} → {a : α} → {s' : State} →
    readInOrder fields label depth count ⟨cs, ignored⟩ = .ok a s' →
    ∃ inside ts, cs = inside ++ s'.rest ∧ SpellsItems (count = 0) ts inside
  | _, _, .nil, label, depth, count, cs, ignored, a, s', h => by
    cases h
    exact ⟨[], [], rfl, blanks_nil⟩
  | _, _, .cons field s more, label, depth, count, cs, ignored, a, s', h => by
    rw [readInOrder] at h
    obtain ⟨another, ⟨rest, n⟩, hanother, h⟩ := bind_eq_ok.mp h
    obtain ⟨sep, rfl, hsep⟩ := exists_of_anotherItem hanother
    cases another with
    | false =>
      obtain ⟨hsep, hhead⟩ := hsep
      -- the fields that are left have defaults, which take nothing
      have hrest : s'.rest = rest := by
        cases rest with
        | nil => cases hhead
        | cons c rest =>
          obtain rfl : c = ']' := by simpa using hhead
          cases hd : field.default with
          | none =>
            simp only [hd] at h
            cases h
          | some d =>
            simp only [hd] at h
            obtain ⟨x, hmore⟩ := ok_of_map h
            exact rest_of_readInOrder more label depth (count + 1) hmore
      exact ⟨sep, [], by rw [hrest], hsep⟩
    | true =>
      rw [if_pos rfl] at h hsep
      obtain ⟨x, ⟨rest', n'⟩, hread, hmore⟩ := bind_eq_ok.mp h
      obtain ⟨y, hmore⟩ := ok_of_map hmore
      obtain ⟨inside, ts, rfl, hts⟩ :=
        spellsItems_of_readInOrder more label depth (count + 1) hmore
      obtain ⟨bs, ds, t, rfl, hb, ht⟩ := takes_read s depth hread
      exact ⟨(sep ++ bs) ++ (ds ++ inside), t :: ts, by simp, _, _, _, rfl, hsep.append hb, ht, hts⟩

end

end Reader

/-! ### Whole texts -/

/-- A text that is decoded spells a value. -/
theorem exists_document {α : Type} {r : Reader α} (htakes : Reader.Takes r) {text : String} {a : α}
    (h : (run r text).result = .ok a) : ∃ t : Syntax, t.Document text := by
  rw [run] at h
  cases hd : document r ⟨text.toList, 0⟩ with
  | error f s =>
    rw [hd] at h
    cases h
  | ok b s =>
    obtain ⟨c, ⟨after, n⟩, hread, hend⟩ := Reader.bind_eq_ok.mp hd
    obtain ⟨before, ds, t, htext, hb, ht⟩ := htakes hread
    obtain ⟨blanks, left, hafter, ha, htoken⟩ := Reader.exists_token after n
    obtain rfl : after = blanks ++ left := hafter
    rw [Reader.bind_ok htoken] at hend
    cases left with
    | nil => exact ⟨t, before, ds, blanks, by rw [htext, List.append_nil], hb, ht, ha⟩
    | cons c left => cases hend

end ApiSurface.Json

/-- A text that is decoded as a model spells a value. -/
theorem ApiSurface.Model.exists_document {text : String} {m : Model}
    (h : Model.parse .json text = .ok m) : ∃ t : Json.Syntax, t.Document text := by
  rw [Model.parse_json] at h
  cases hd : (Json.decode Model.shape text).result with
  | error e =>
    rw [hd] at h
    cases h
  | ok a => exact Json.exists_document (Json.Reader.takes_read _ _) hd
