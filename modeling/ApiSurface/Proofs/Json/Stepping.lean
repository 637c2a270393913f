/-
Values that are stepped over.

A value that nobody asked for is stepped over by a loop that keeps the brackets that are still open.
`skipInside_spells` says that the loop takes a spelled value away, whatever it is, and goes on with
the brackets around it; `exists_spells_of_skipInside` that it takes away nothing else.
-/
import ApiSurface.Proofs.Json.Body
import ApiSurface.Proofs.Json.Magnitude

namespace ApiSurface.Json

/-! ### Where spelled values begin and end -/

theorem IsMagnitude.exists_cons {cs : List Char} (h : IsMagnitude cs) :
    ∃ c ds, cs = c :: ds ∧ c.isDigit = true := by
  obtain ⟨hw, -, -⟩ := h
  cases hw with
  | zero => exact ⟨'0', _, rfl, rfl⟩
  | digits h => exact ⟨_, _, rfl, h.digits _ List.mem_cons_self⟩

/-- The characters that a value begins with. -/
def Syntax.Opens : Syntax → Char → Prop
  | .null, c => c = 'n'
  | .bool b, c => c = if b then 't' else 'f'
  | .number _, c => c = '-' ∨ c.isDigit = true
  | .text _, c => c = '"'
  | .list _, c => c = '['
  | .object _, c => c = '\x7b'

/-- A spelled value begins with a character of its own. -/
theorem Syntax.Spells.exists_opens {t : Syntax} {cs : List Char} (h : t.Spells cs) :
    ∃ c ds, cs = c :: ds ∧ t.Opens c := by
  cases t with
  | null => exact ⟨_, _, h, rfl⟩
  | bool b => cases b <;> exact ⟨_, _, h, rfl⟩
  | number spelling =>
    obtain ⟨rfl, hn⟩ := h
    cases hn with
    | positive hm =>
      obtain ⟨c, ds, rfl, hc⟩ := hm.exists_cons
      exact ⟨c, ds, rfl, .inr hc⟩
    | negative => exact ⟨_, _, rfl, .inl rfl⟩
  | text body => exact ⟨_, _, h.1, rfl⟩
  | list items =>
    obtain ⟨inside, rfl, -⟩ := h
    exact ⟨_, _, rfl, rfl⟩
  | object members =>
    obtain ⟨inside, rfl, -⟩ := h
    exact ⟨_, _, rfl, rfl⟩

theorem Syntax.Opens.startsValue {t : Syntax} {c : Char} (h : t.Opens c) :
    Reader.startsValue c = true := by
  cases t with
  | number spelling =>
    obtain rfl | hc := h
    · rfl
    · exact Reader.startsValue_of_isDigit hc
  | bool b => cases b <;> cases h <;> rfl
  | _ => cases h; rfl

/-- Whether a text may follow a value: only a number can be gone on with. -/
def Syntax.Follows : Syntax → List Char → Prop
  | .number _, rest => Ends rest
  | _, _ => True

theorem Syntax.follows_of_ends (t : Syntax) {rest : List Char} (h : Ends rest) : t.Follows rest := by
  cases t <;> first | exact h | trivial

theorem ends_spellsItems {ts : List Syntax} {inside : List Char} (h : SpellsItems false ts inside)
    (rest : List Char) : Ends (inside ++ ']' :: rest) := by
  have hclose : Ends (']' :: rest) := by
    rintro _ ⟨⟩
    rfl
  cases ts with
  | nil => exact Reader.ends_of_blank h hclose
  | cons t ts =>
    obtain ⟨sep, cs, more, rfl, hsep, -⟩ := h
    cases hsep with
    | comma hb hb' =>
      rw [List.append_assoc, List.append_assoc]
      refine Reader.ends_of_blank hb ?_
      rintro _ ⟨⟩
      rfl

theorem ends_spellsMembers {ms : List (List Char × Syntax)} {inside : List Char}
    (h : SpellsMembers false ms inside) (rest : List Char) : Ends (inside ++ '\x7d' :: rest) := by
  have hclose : Ends ('\x7d' :: rest) := by
    rintro _ ⟨⟩
    rfl
  cases ms with
  | nil => exact Reader.ends_of_blank h hclose
  | cons m ms =>
    obtain ⟨sep, bs, bs', cs, more, rfl, hsep, -⟩ := h
    cases hsep with
    | comma hb hb' =>
      rw [List.append_assoc, List.append_assoc]
      refine Reader.ends_of_blank hb ?_
      rintro _ ⟨⟩
      rfl

namespace Reader

/-! ### The steps of the loop -/

/-- Goes on with the brackets that are open after a value. -/
def afterValue (fuel : List Char) (brackets : List Bracket) : Reader Unit := do
  match ← skipEnds brackets with
  | [] => return ()
  | brackets => skipInside fuel brackets

section Steps

variable {fuel rest : List Char} {brackets : List Bracket} {s t : State} {f : Char} {ignored : Nat}

theorem skipInside_none (h : skipStart s = .ok none t) :
    skipInside (f :: fuel) brackets s = afterValue fuel brackets t := by
  rw [skipInside, bind_ok h]
  rfl

theorem skipInside_some {b : Bracket} (h : skipStart s = .ok (some b) t) :
    skipInside (f :: fuel) brackets s = skipInside fuel (b :: brackets) t := by
  rw [skipInside, bind_ok h]

theorem afterValue_open {b : Bracket} {outer : List Bracket}
    (h : skipEnds brackets s = .ok (b :: outer) t) :
    afterValue fuel brackets s = skipInside fuel (b :: outer) t := by
  rw [afterValue, bind_ok h]

/-- A key and its colon are stepped over. -/
theorem skipKey_body {bs key bs' : List Char} (hb : Blanks bs) (hk : IsBody key) (hb' : Blanks bs')
    (rest : List Char) (ignored : Nat) :
    skipKey ⟨bs ++ '"' :: (key ++ '"' :: (bs' ++ ':' :: rest)), ignored⟩ = .ok () ⟨rest, ignored⟩ := by
  rw [skipKey, bind_ok (peekToken?_eq hb (by decide) ignored)]
  simp only [if_true]
  rw [bind_ok (skipString_body hk _ ignored)]
  exact colon_ok hb' rest ignored

theorem skipEnds_comma {bs : List Char} (hb : Blanks bs) (rest : List Char) (ignored : Nat) :
    skipEnds (.list :: brackets) ⟨bs ++ ',' :: rest, ignored⟩
      = .ok (.list :: brackets) ⟨rest, ignored⟩ := by
  rw [skipEnds, bind_ok (peekToken?_eq hb (by decide) ignored)]
  rfl

/-- The bracket that closes a list is stepped over, and what closes after it. -/
theorem afterValue_list {bs : List Char} (hb : Blanks bs) (rest : List Char) (ignored : Nat) :
    afterValue fuel (.list :: brackets) ⟨bs ++ ']' :: rest, ignored⟩
      = afterValue fuel brackets ⟨rest, ignored⟩ := by
  have h : skipEnds (.list :: brackets) ⟨bs ++ ']' :: rest, ignored⟩
      = skipEnds brackets ⟨rest, ignored⟩ := by
    rw [skipEnds, bind_ok (peekToken?_eq hb (by decide) ignored)]
    rfl
  rw [afterValue, afterValue]
  cases hends : skipEnds brackets ⟨rest, ignored⟩ with
  | ok outer t => rw [bind_ok (h.trans hends), bind_ok hends]
  | error e t => rw [bind_error (h.trans hends), bind_error hends]

theorem skipEnds_key {bs bs' key bs'' : List Char} (hb : Blanks bs) (hb' : Blanks bs')
    (hk : IsBody key) (hb'' : Blanks bs'') (rest : List Char) (ignored : Nat) :
    skipEnds (.object :: brackets)
        ⟨bs ++ ',' :: (bs' ++ '"' :: (key ++ '"' :: (bs'' ++ ':' :: rest))), ignored⟩
      = .ok (.object :: brackets) ⟨rest, ignored⟩ := by
  rw [skipEnds, bind_ok (peekToken?_eq hb (by decide) ignored)]
  simp only [if_true]
  rw [bind_skip, bind_ok (skipKey_body hb' hk hb'' rest ignored)]
  rfl

theorem afterValue_object {bs : List Char} (hb : Blanks bs) (rest : List Char) (ignored : Nat) :
    afterValue fuel (.object :: brackets) ⟨bs ++ '\x7d' :: rest, ignored⟩
      = afterValue fuel brackets ⟨rest, ignored⟩ := by
  have h : skipEnds (.object :: brackets) ⟨bs ++ '\x7d' :: rest, ignored⟩
      = skipEnds brackets ⟨rest, ignored⟩ := by
    rw [skipEnds, bind_ok (peekToken?_eq hb (by decide) ignored)]
    rfl
  rw [afterValue, afterValue]
  cases hends : skipEnds brackets ⟨rest, ignored⟩ with
  | ok outer t => rw [bind_ok (h.trans hends), bind_ok hends]
  | error e t => rw [bind_error (h.trans hends), bind_error hends]

end Steps

/-! ### Spelled values -/

section Starts

variable {bs rest : List Char} {ignored : Nat}

theorem skipStart_null (hb : Blanks bs) :
    skipStart ⟨bs ++ ('n' :: 'u' :: 'l' :: 'l' :: rest), ignored⟩ = .ok none ⟨rest, ignored⟩ := by
  rw [skipStart, bind_ok (peekToken?_eq hb (by decide) ignored)]
  rfl

theorem skipStart_true (hb : Blanks bs) :
    skipStart ⟨bs ++ ('t' :: 'r' :: 'u' :: 'e' :: rest), ignored⟩ = .ok none ⟨rest, ignored⟩ := by
  rw [skipStart, bind_ok (peekToken?_eq hb (by decide) ignored)]
  rfl

theorem skipStart_false (hb : Blanks bs) :
    skipStart ⟨bs ++ ('f' :: 'a' :: 'l' :: 's' :: 'e' :: rest), ignored⟩
      = .ok none ⟨rest, ignored⟩ := by
  rw [skipStart, bind_ok (peekToken?_eq hb (by decide) ignored)]
  rfl

theorem skipStart_number (hb : Blanks bs) {cs : List Char} (h : IsNumber cs) (hends : Ends rest) :
    skipStart ⟨bs ++ (cs ++ rest), ignored⟩ = .ok none ⟨rest, ignored⟩ := by
  cases h with
  | @negative cs hm =>
    rw [skipStart, List.cons_append, bind_ok (peekToken?_eq hb (by decide) ignored)]
    simp only [Char.reduceEq, ↓reduceIte]
    rw [bind_skip, bind_ok (skipNumber_ok hm hends ignored)]
    rfl
  | positive hm =>
    have hskip := skipNumber_ok hm hends ignored
    obtain ⟨c, ds, rfl, hc⟩ := hm.exists_cons
    have hblank : isBlank c = false := by
      have := startsValue_of_isDigit hc
      simp_all [startsValue]
    have other {d : Char} (hd : d.isDigit = false) : c ≠ d := Text.ne_of_isDigit hc hd
    rw [skipStart, List.cons_append, bind_ok (peekToken?_eq hb hblank ignored)]
    simp only [if_neg (other (d := 'n') rfl), if_neg (other (d := 't') rfl),
      if_neg (other (d := 'f') rfl), if_neg (other (d := '-') rfl), if_pos hc]
    rw [← List.cons_append, bind_ok hskip]
    rfl

theorem skipStart_text (hb : Blanks bs) {body : List Char} (h : IsBody body) :
    skipStart ⟨bs ++ '"' :: (body ++ '"' :: rest), ignored⟩ = .ok none ⟨rest, ignored⟩ := by
  rw [skipStart, bind_ok (peekToken?_eq hb (by decide) ignored)]
  simp only [Char.reduceEq, ↓reduceIte]
  rw [if_neg (by decide), bind_ok (skipString_body h rest ignored)]
  rfl

theorem skipStart_emptyList (hb : Blanks bs) {inside : List Char} (h : Blanks inside) :
    skipStart ⟨bs ++ '[' :: (inside ++ ']' :: rest), ignored⟩ = .ok none ⟨rest, ignored⟩ := by
  rw [skipStart, bind_ok (peekToken?_eq hb (by decide) ignored)]
  simp only [Char.reduceEq, ↓reduceIte]
  rw [if_neg (by decide), bind_skip, bind_ok (peekToken?_eq h (by decide) ignored)]
  rfl

theorem skipStart_list (hb : Blanks bs) {sep : List Char} (h : Blanks sep) {c : Char}
    (hc : startsValue c = true) (cs : List Char) :
    skipStart ⟨bs ++ '[' :: (sep ++ c :: cs), ignored⟩ = .ok (some .list) ⟨c :: cs, ignored⟩ := by
  simp only [startsValue, Bool.and_eq_true, Bool.not_eq_true', bne_iff_ne] at hc
  obtain ⟨⟨⟨hblank, hlist⟩, -⟩, -⟩ := hc
  rw [skipStart, bind_ok (peekToken?_eq hb (by decide) ignored)]
  simp only [Char.reduceEq, ↓reduceIte]
  rw [if_neg (by decide), bind_skip, bind_ok (peekToken?_eq h hblank ignored)]
  simp only [if_neg hlist]
  rfl

theorem skipStart_emptyObject (hb : Blanks bs) {inside : List Char} (h : Blanks inside) :
    skipStart ⟨bs ++ '\x7b' :: (inside ++ '\x7d' :: rest), ignored⟩ = .ok none ⟨rest, ignored⟩ := by
  rw [skipStart, bind_ok (peekToken?_eq hb (by decide) ignored)]
  simp only [Char.reduceEq, ↓reduceIte]
  rw [if_neg (by decide), bind_skip, bind_ok (peekToken?_eq h (by decide) ignored)]
  rfl

theorem skipStart_object (hb : Blanks bs) {sep key bs' : List Char} (h : Blanks sep)
    (hk : IsBody key) (hb' : Blanks bs') :
    skipStart ⟨bs ++ '\x7b' :: (sep ++ '"' :: (key ++ '"' :: (bs' ++ ':' :: rest))), ignored⟩
      = .ok (some .object) ⟨rest, ignored⟩ := by
  have hkey := skipKey_body blanks_nil hk hb' rest ignored
  rw [List.nil_append] at hkey
  rw [skipStart, bind_ok (peekToken?_eq hb (by decide) ignored)]
  simp only [Char.reduceEq, ↓reduceIte]
  rw [if_neg (by decide), bind_skip, bind_ok (peekToken?_eq h (by decide) ignored)]
  simp only [Char.reduceEq, ↓reduceIte]
  rw [bind_ok hkey]
  rfl

end Starts

/-- A value that leaves nothing to do is stepped over in one round. -/
theorem exists_skipInside {bs cs rest : List Char} {ignored : Nat} (brackets : List Bracket)
    {fuel : List Char} (hf : (bs ++ (cs ++ rest)).length ≤ fuel.length) (hne : cs ≠ [])
    (h : skipStart ⟨bs ++ (cs ++ rest), ignored⟩ = .ok none ⟨rest, ignored⟩) :
    ∃ fuel', rest.length ≤ fuel'.length ∧
      skipInside fuel brackets ⟨bs ++ (cs ++ rest), ignored⟩
        = afterValue fuel' brackets ⟨rest, ignored⟩ := by
  have hpos := List.length_pos_iff.mpr hne
  simp only [List.length_append] at hf
  cases fuel with
  | nil => simp only [List.length_nil] at hf; omega
  | cons f fuel => exact ⟨fuel, by simp only [List.length_cons] at hf; omega, skipInside_none h⟩

mutual

/-- A spelled value is stepped over, whatever the brackets around it. -/
theorem skipInside_spells : (t : Syntax) → {cs : List Char} → t.Spells cs → {bs rest : List Char} →
    Blanks bs → t.Follows rest → (brackets : List Bracket) → (fuel : List Char) →
    (bs ++ (cs ++ rest)).length ≤ fuel.length → (ignored : Nat) →
    ∃ fuel', rest.length ≤ fuel'.length ∧
      skipInside fuel brackets ⟨bs ++ (cs ++ rest), ignored⟩
        = afterValue fuel' brackets ⟨rest, ignored⟩
  | .null, cs, h, bs, rest, hb, _, brackets, fuel, hf, ignored => by
    cases h
    exact exists_skipInside brackets hf nofun (skipStart_null hb)
  | .bool true, cs, h, bs, rest, hb, _, brackets, fuel, hf, ignored => by
    cases h
    exact exists_skipInside brackets hf nofun (skipStart_true hb)
  | .bool false, cs, h, bs, rest, hb, _, brackets, fuel, hf, ignored => by
    cases h
    exact exists_skipInside brackets hf nofun (skipStart_false hb)
  | .number spelling, cs, h, bs, rest, hb, hends, brackets, fuel, hf, ignored => by
    obtain ⟨rfl, hn⟩ := h
    refine exists_skipInside brackets hf ?_ (skipStart_number hb hn hends)
    rintro rfl
    obtain ⟨c, ds, hcs, -⟩ := Syntax.Spells.exists_opens (t := .number []) ⟨rfl, hn⟩
    cases hcs
  | .text body, cs, h, bs, rest, hb, _, brackets, fuel, hf, ignored => by
    obtain ⟨rfl, hbody⟩ := h
    refine exists_skipInside brackets hf nofun ?_
    rw [List.cons_append, List.append_assoc, List.singleton_append]
    exact skipStart_text hb hbody
  | .list [], cs, h, bs, rest, hb, _, brackets, fuel, hf, ignored => by
    obtain ⟨inside, rfl, hinside⟩ := h
    refine exists_skipInside brackets hf nofun ?_
    rw [List.cons_append, List.append_assoc, List.singleton_append]
    exact skipStart_emptyList hb hinside
  | .list (t :: ts), cs, h, bs, rest, hb, _, brackets, fuel, hf, ignored => by
    obtain ⟨inside, rfl, sep, ds, more, rfl, hsep, ht, hts⟩ := h
    cases hsep with
    | first hsep =>
      obtain ⟨c, ds', rfl, hc⟩ := ht.exists_opens
      have hstart : skipStart ⟨_, ignored⟩ = _ :=
        skipStart_list hb hsep hc.startsValue (ds' ++ (more ++ ']' :: rest))
      cases fuel with
      | nil => simp at hf
      | cons f fuel =>
        -- The first item, and the items after it up to the bracket.
        obtain ⟨fuel', hf', hfirst⟩ := skipInside_spells t ht blanks_nil
          (t.follows_of_ends (ends_spellsItems hts rest)) (.list :: brackets) fuel
          (by simp only [List.length_append, List.length_cons, List.length_nil] at hf ⊢; omega)
          ignored
        obtain ⟨fuel'', hf'', hrest⟩ := afterValue_items ts hts brackets hf' ignored
        refine ⟨fuel'', hf'', ?_⟩
        simp only [List.append_assoc, List.cons_append, List.nil_append] at hfirst ⊢
        rw [skipInside_some hstart, hfirst, hrest]
  | .object [], cs, h, bs, rest, hb, _, brackets, fuel, hf, ignored => by
    obtain ⟨inside, rfl, hinside⟩ := h
    refine exists_skipInside brackets hf nofun ?_
    rw [List.cons_append, List.append_assoc, List.singleton_append]
    exact skipStart_emptyObject hb hinside
  | .object ((key, t) :: ms), cs, h, bs, rest, hb, _, brackets, fuel, hf, ignored => by
    obtain ⟨inside, rfl, sep, bs', bs'', ds, more, rfl, hsep, hk, hb', hb'', ht, hms⟩ := h
    cases hsep with
    | first hsep =>
      have hstart : skipStart _
          = .ok (some .object) ⟨bs'' ++ (ds ++ (more ++ '\x7d' :: rest)), ignored⟩ :=
        skipStart_object hb hsep hk hb'
      cases fuel with
      | nil => simp at hf
      | cons f fuel =>
        obtain ⟨fuel', hf', hfirst⟩ := skipInside_spells t ht hb''
          (t.follows_of_ends (ends_spellsMembers hms rest)) (.object :: brackets) fuel
          (by simp only [List.length_append, List.length_cons, List.length_nil] at hf ⊢; omega)
          ignored
        obtain ⟨fuel'', hf'', hrest⟩ := afterValue_members ms hms brackets hf' ignored
        refine ⟨fuel'', hf'', ?_⟩
        simp only [List.append_assoc, List.cons_append, List.nil_append] at hstart ⊢
        rw [skipInside_some hstart, hfirst, hrest]

/-- The items that are left of a list are stepped over with its bracket. -/
theorem afterValue_items : (ts : List Syntax) → {inside rest : List Char} →
    SpellsItems false ts inside → (brackets : List Bracket) → {fuel : List Char} →
    (inside ++ ']' :: rest).length ≤ fuel.length → (ignored : Nat) →
    ∃ fuel', rest.length ≤ fuel'.length ∧
      afterValue fuel (.list :: brackets) ⟨inside ++ ']' :: rest, ignored⟩
        = afterValue fuel' brackets ⟨rest, ignored⟩
  | [], inside, rest, h, brackets, fuel, hf, ignored => by
    refine ⟨fuel, ?_, afterValue_list h rest ignored⟩
    simp only [List.length_append, List.length_cons] at hf
    omega
  | t :: ts, inside, rest, h, brackets, fuel, hf, ignored => by
    obtain ⟨sep, cs, more, rfl, hsep, ht, hts⟩ := h
    cases hsep with
    | @comma bs bs' hb hb' =>
      have hcomma : skipEnds (.list :: brackets) _ = _ := skipEnds_comma hb
        (bs' ++ (cs ++ (more ++ ']' :: rest))) ignored
      obtain ⟨fuel', hf', hitem⟩ := skipInside_spells t ht hb'
        (t.follows_of_ends (ends_spellsItems hts rest)) (.list :: brackets) fuel
        (by simp only [List.length_append, List.length_cons] at hf ⊢; omega) ignored
      obtain ⟨fuel'', hf'', hrest⟩ := afterValue_items ts hts brackets hf' ignored
      refine ⟨fuel'', hf'', ?_⟩
      simp only [List.append_assoc, List.cons_append]
      rw [afterValue_open hcomma, hitem, hrest]

/-- The members that are left of an object are stepped over with its brace. -/
theorem afterValue_members : (ms : List (List Char × Syntax)) → {inside rest : List Char} →
    SpellsMembers false ms inside → (brackets : List Bracket) → {fuel : List Char} →
    (inside ++ '\x7d' :: rest).length ≤ fuel.length → (ignored : Nat) →
    ∃ fuel', rest.length ≤ fuel'.length ∧
      afterValue fuel (.object :: brackets) ⟨inside ++ '\x7d' :: rest, ignored⟩
        = afterValue fuel' brackets ⟨rest, ignored⟩
  | [], inside, rest, h, brackets, fuel, hf, ignored => by
    refine ⟨fuel, ?_, afterValue_object h rest ignored⟩
    simp only [List.length_append, List.length_cons] at hf
    omega
  | (key, t) :: ms, inside, rest, h, brackets, fuel, hf, ignored => by
    obtain ⟨sep, bs', bs'', cs, more, rfl, hsep, hk, hb', hb'', ht, hms⟩ := h
    cases hsep with
    | @comma bs ds hb hd =>
      have hkey : skipEnds (.object :: brackets) _ = _ := skipEnds_key hb hd hk hb'
        (bs'' ++ (cs ++ (more ++ '\x7d' :: rest))) ignored
      obtain ⟨fuel', hf', hvalue⟩ := skipInside_spells t ht hb''
        (t.follows_of_ends (ends_spellsMembers hms rest)) (.object :: brackets) fuel
        (by simp only [List.length_append, List.length_cons] at hf ⊢; omega) ignored
      obtain ⟨fuel'', hf'', hrest⟩ := afterValue_members ms hms brackets hf' ignored
      refine ⟨fuel'', hf'', ?_⟩
      simp only [List.append_assoc, List.cons_append]
      rw [afterValue_open hkey, hvalue, hrest]

end

/-- The value of a member that nobody asked for is stepped over. -/
theorem skipMember_ok {t : Syntax} {cs : List Char} (h : t.Spells cs) {bs bs' rest : List Char}
    (hb : Blanks bs) (hb' : Blanks bs') (hends : t.Follows rest) (ignored : Nat) :
    skipMember ⟨bs ++ ':' :: (bs' ++ (cs ++ rest)), ignored⟩ = .ok () ⟨rest, ignored⟩ := by
  obtain ⟨fuel, -, hskip⟩ := skipInside_spells t h hb' hends [] _ (Nat.le_refl _) ignored
  rw [skipMember, bind_ok (colon_ok hb _ ignored), bind_rest, hskip]
  rfl

/-! ### What was stepped over -/

/-- The next token of a text, after its blanks. -/
theorem exists_token (cs : List Char) (ignored : Nat) :
    ∃ bs rest, cs = bs ++ rest ∧ Blanks bs ∧
      peekToken? ⟨cs, ignored⟩ = .ok rest.head? ⟨rest, ignored⟩ := by
  obtain ⟨bs, rest, rfl, hb, hstop⟩ := Text.exists_run isBlank cs
  refine ⟨bs, rest, rfl, hb, ?_⟩
  rw [peekToken?, Text.dropWhile_append hb hstop]

section Stepped

variable {s s' : State} {cs : List Char} {ignored : Nat}

theorem eq_of_word {w : List Char} (h : word w ⟨cs, ignored⟩ = .ok () s') : cs = w ++ s'.rest := by
  induction w generalizing cs with
  | nil =>
    cases h
    rfl
  | cons c w ih =>
    rw [word, bind_peek?] at h
    cases cs with
    | nil => cases h
    | cons d cs =>
      simp only [List.head?_cons] at h
      by_cases hd : d = c
      · rw [if_pos hd, bind_skip] at h
        rw [hd, ih h, List.cons_append]
      · rw [if_neg hd] at h
        cases h

theorem failAhead_ne_ok {α : Type} (fault : Fault) (s s' : State) (a : α) :
    (failAhead fault : Reader α) s ≠ .ok a s' := by
  intro h
  cases h

/-- What refuses the end of the text was given the token that comes after the blanks. -/
theorem ok_of_token {α : Type} {k : Option Char → Reader α} {a : α}
    (h : (peekToken? >>= k) ⟨cs, ignored⟩ = .ok a s') (hend : ∀ s, k none s ≠ .ok a s') :
    ∃ bs c rest, cs = bs ++ c :: rest ∧ Blanks bs ∧ k (some c) ⟨c :: rest, ignored⟩ = .ok a s' := by
  obtain ⟨bs, rest, rfl, hb, htoken⟩ := exists_token cs ignored
  rw [bind_ok htoken] at h
  cases rest with
  | nil => exact absurd h (hend _)
  | cons c rest => exact ⟨bs, c, rest, rfl, hb, h⟩

theorem ok_of_then {α : Type} {r : Reader Unit} {x a : α}
    (h : (do r; return x : Reader α) s = .ok a s') : a = x ∧ r s = .ok () s' := by
  obtain ⟨_, t, hr, h⟩ := bind_eq_ok.mp h
  cases h
  exact ⟨rfl, hr⟩

/-- A name whose letters were stepped over stands in the text. -/
theorem ok_of_named {α : Type} {w rest : List Char} {c : Char} {x a : α}
    (h : (do skip; word w; return x : Reader α) ⟨c :: rest, ignored⟩ = .ok a s') :
    a = x ∧ rest = w ++ s'.rest := by
  rw [bind_skip] at h
  exact (ok_of_then h).imp_right eq_of_word

theorem exists_colon (h : colon ⟨cs, ignored⟩ = .ok () s') :
    ∃ bs, cs = bs ++ ':' :: s'.rest ∧ Blanks bs := by
  rw [colon] at h
  obtain ⟨bs, c, rest, rfl, hb, h⟩ := ok_of_token h (failAhead_ne_ok _ · _ _)
  dsimp only at h
  by_cases hc : c = ':'
  · rw [if_pos hc] at h
    cases h
    exact ⟨bs, by rw [hc]; rfl, hb⟩
  · rw [if_neg hc] at h
    cases h

theorem exists_skipKey (h : skipKey ⟨cs, ignored⟩ = .ok () s') :
    ∃ bs key bs', cs = bs ++ '"' :: (key ++ '"' :: (bs' ++ ':' :: s'.rest)) ∧ Blanks bs ∧
      IsBody key ∧ Blanks bs' := by
  rw [skipKey] at h
  obtain ⟨bs, c, rest, rfl, hb, h⟩ := ok_of_token h (failAhead_ne_ok _ · _ _)
  dsimp only at h
  by_cases hc : c = '"'
  · subst hc
    rw [if_pos rfl] at h
    obtain ⟨u, ⟨after, n⟩, hkey, hcolon⟩ := bind_eq_ok.mp h
    obtain ⟨key, rfl, hk⟩ := isBody_of_skipString hkey
    obtain ⟨bs', rfl, hb'⟩ := exists_colon hcolon
    exact ⟨bs, key, bs', rfl, hb, hk, hb'⟩
  · rw [if_neg hc] at h
    cases h

/-- What a value takes away that leaves nothing to do or the inside of a bracket. -/
inductive Starts : Option Bracket → List Char → Prop
  | value {bs cs : List Char} {t : Syntax} (hb : Blanks bs) (h : t.Spells cs) :
      Starts none (bs ++ cs)
  | list {bs sep : List Char} (hb : Blanks bs) (h : Blanks sep) :
      Starts (some .list) (bs ++ '[' :: sep)
  | object {bs sep key bs' : List Char} (hb : Blanks bs) (h : Blanks sep) (hk : IsBody key)
      (hb' : Blanks bs') :
      Starts (some .object) (bs ++ '\x7b' :: (sep ++ '"' :: (key ++ '"' :: (bs' ++ [':']))))

section Starting

variable {bs : List Char} {o : Option Bracket}

/-- The inside of a list, or a list without items. -/
theorem starts_of_skipStart_list (hb : Blanks bs)
    (h : skipStart ⟨bs ++ '[' :: cs, ignored⟩ = .ok o s') :
    ∃ taken, bs ++ '[' :: cs = taken ++ s'.rest ∧ Starts o taken := by
  rw [skipStart, bind_ok (peekToken?_eq hb (by decide) ignored)] at h
  simp only [Char.reduceEq, ↓reduceIte] at h
  rw [if_neg (by decide), bind_skip] at h
  obtain ⟨sep, c, rest, rfl, hsep, h⟩ := ok_of_token h (failAhead_ne_ok _ · _ _)
  dsimp only at h
  by_cases hclose : c = ']'
  · subst hclose
    rw [if_pos rfl, bind_skip] at h
    cases h
    have hempty : (Syntax.list []).Spells ('[' :: (sep ++ [']'])) := ⟨sep, rfl, hsep⟩
    exact ⟨bs ++ '[' :: (sep ++ [']']), by simp, .value hb hempty⟩
  · rw [if_neg hclose] at h
    cases h
    exact ⟨bs ++ '[' :: sep, by simp, .list hb hsep⟩

/-- The inside of an object up to its first value, or an object without members. -/
theorem starts_of_skipStart_object (hb : Blanks bs)
    (h : skipStart ⟨bs ++ '\x7b' :: cs, ignored⟩ = .ok o s') :
    ∃ taken, bs ++ '\x7b' :: cs = taken ++ s'.rest ∧ Starts o taken := by
  rw [skipStart, bind_ok (peekToken?_eq hb (by decide) ignored)] at h
  simp only [Char.reduceEq, ↓reduceIte] at h
  rw [if_neg (by decide), bind_skip] at h
  obtain ⟨sep, c, rest, rfl, hsep, h⟩ := ok_of_token h (failAhead_ne_ok _ · _ _)
  dsimp only at h
  by_cases hclose : c = '\x7d'
  · subst hclose
    rw [if_pos rfl, bind_skip] at h
    cases h
    have hempty : (Syntax.object []).Spells ('\x7b' :: (sep ++ ['\x7d'])) := ⟨sep, rfl, hsep⟩
    exact ⟨bs ++ '\x7b' :: (sep ++ ['\x7d']), by simp, .value hb hempty⟩
  · rw [if_neg hclose] at h
    obtain ⟨rfl, hkey⟩ := ok_of_then h
    obtain ⟨bs₁, key, bs₂, hkeyText, hb₁, hk, hb₂⟩ := exists_skipKey hkey
    refine ⟨_, ?_, @Starts.object bs (sep ++ bs₁) key bs₂ hb ?_ hk hb₂⟩
    · simp [hkeyText]
    · intro c hc
      exact (List.mem_append.mp hc).elim (hsep c) (hb₁ c)

/-- What was stepped over at the start of a value. -/
theorem starts_of_skipStart (h : skipStart ⟨cs, ignored⟩ = .ok o s') :
    ∃ taken, cs = taken ++ s'.rest ∧ Starts o taken := by
  obtain ⟨bs, rest, rfl, hb, htoken⟩ := exists_token cs ignored
  cases rest with
  | nil =>
    rw [skipStart, bind_ok htoken] at h
    cases h
  | cons c rest =>
    by_cases hlist : c = '['
    · subst hlist
      exact starts_of_skipStart_list hb h
    by_cases hobject : c = '\x7b'
    · subst hobject
      exact starts_of_skipStart_object hb h
    -- Only scalars are left, which are stepped over whole.
    have value {t : Syntax} {taken : List Char} (hnone : o = none)
        (hrest : c :: rest = taken ++ s'.rest) (ht : t.Spells taken) :
        ∃ taken, bs ++ c :: rest = taken ++ s'.rest ∧ Starts o taken := by
      subst hnone
      exact ⟨bs ++ taken, by rw [hrest, List.append_assoc], .value hb ht⟩
    rw [skipStart, bind_ok htoken] at h
    simp only [List.head?_cons, if_neg hlist, if_neg hobject] at h
    by_cases hn : c = 'n'
    · rw [if_pos hn] at h
      obtain ⟨hnone, rfl⟩ := ok_of_named h
      exact value hnone (by rw [hn]; rfl) (t := .null) rfl
    rw [if_neg hn] at h
    by_cases ht : c = 't'
    · rw [if_pos ht] at h
      obtain ⟨hnone, rfl⟩ := ok_of_named h
      exact value hnone (by rw [ht]; rfl) (t := .bool true) rfl
    rw [if_neg ht] at h
    by_cases hf : c = 'f'
    · rw [if_pos hf] at h
      obtain ⟨hnone, rfl⟩ := ok_of_named h
      exact value hnone (by rw [hf]; rfl) (t := .bool false) rfl
    rw [if_neg hf] at h
    by_cases hminus : c = '-'
    · rw [if_pos hminus, bind_skip] at h
      obtain ⟨hnone, hnumber⟩ := ok_of_then h
      obtain ⟨taken, rfl, hm⟩ := isMagnitude_of_skipNumber hnumber
      have hspells : (Syntax.number ('-' :: taken)).Spells ('-' :: taken) := ⟨rfl, .negative hm⟩
      exact value hnone (by rw [hminus]; rfl) hspells
    rw [if_neg hminus] at h
    by_cases hd : c.isDigit = true
    · rw [if_pos hd] at h
      obtain ⟨hnone, hnumber⟩ := ok_of_then h
      obtain ⟨taken, hrest, hm⟩ := isMagnitude_of_skipNumber hnumber
      exact value hnone hrest (t := .number taken) ⟨rfl, .positive hm⟩
    rw [if_neg hd] at h
    by_cases hquote : c = '"'
    · subst hquote
      rw [if_pos rfl] at h
      obtain ⟨hnone, hstring⟩ := ok_of_then h
      obtain ⟨body, rfl, hbody⟩ := isBody_of_skipString hstring
      exact value hnone (by simp) (t := .text body) ⟨rfl, hbody⟩
    · rw [if_neg hquote] at h
      cases h

end Starting

/-- What closes the brackets that are open after a value, with the values before each end. -/
inductive Closes : List Bracket → List Char → Prop
  | nil : Closes [] []
  | list {outer : List Bracket} {ts : List Syntax} {inside more : List Char}
      (h : SpellsItems false ts inside) (h' : Closes outer more) :
      Closes (.list :: outer) (inside ++ ']' :: more)
  | object {outer : List Bracket} {ms : List (List Char × Syntax)} {inside more : List Char}
      (h : SpellsMembers false ms inside) (h' : Closes outer more) :
      Closes (.object :: outer) (inside ++ '\x7d' :: more)

section Ending

variable {outer left : List Bracket}

/-- After a value in a list comes a comma or the end of the list. -/
theorem exists_of_skipEnds_list (h : skipEnds (.list :: outer) ⟨cs, ignored⟩ = .ok left s') :
    ∃ bs, Blanks bs ∧ (cs = bs ++ ',' :: s'.rest ∧ left = .list :: outer ∨
      ∃ rest, cs = bs ++ ']' :: rest ∧ skipEnds outer ⟨rest, ignored⟩ = .ok left s') := by
  rw [skipEnds] at h
  obtain ⟨bs, c, rest, rfl, hb, h⟩ := ok_of_token h (failAhead_ne_ok _ · _ _)
  dsimp only at h
  by_cases hcomma : c = ','
  · rw [if_pos hcomma, bind_skip] at h
    cases h
    exact ⟨bs, hb, .inl ⟨by rw [hcomma], rfl⟩⟩
  rw [if_neg hcomma] at h
  by_cases hclose : c = ']'
  · rw [if_pos hclose, bind_skip] at h
    exact ⟨bs, hb, .inr ⟨rest, by rw [hclose], h⟩⟩
  · rw [if_neg hclose] at h
    cases h

/-- After a value in an object comes a comma with the key of another member, or the end of the
object. -/
theorem exists_of_skipEnds_object
    (h : skipEnds (.object :: outer) ⟨cs, ignored⟩ = .ok left s') :
    ∃ bs, Blanks bs ∧ ((∃ bs₁ key bs₂,
        cs = bs ++ ',' :: (bs₁ ++ '"' :: (key ++ '"' :: (bs₂ ++ ':' :: s'.rest))) ∧ Blanks bs₁ ∧
          IsBody key ∧ Blanks bs₂ ∧ left = .object :: outer) ∨
      ∃ rest, cs = bs ++ '\x7d' :: rest ∧ skipEnds outer ⟨rest, ignored⟩ = .ok left s') := by
  rw [skipEnds] at h
  obtain ⟨bs, c, rest, rfl, hb, h⟩ := ok_of_token h (failAhead_ne_ok _ · _ _)
  dsimp only at h
  by_cases hcomma : c = ','
  · rw [if_pos hcomma, bind_skip] at h
    obtain ⟨hleft, hkey⟩ := ok_of_then h
    obtain ⟨bs₁, key, bs₂, rfl, hb₁, hk, hb₂⟩ := exists_skipKey hkey
    exact ⟨bs, hb, .inl ⟨bs₁, key, bs₂, by rw [hcomma], hb₁, hk, hb₂, hleft⟩⟩
  rw [if_neg hcomma] at h
  by_cases hclose : c = '\x7d'
  · rw [if_pos hclose, bind_skip] at h
    exact ⟨bs, hb, .inr ⟨rest, by rw [hclose], h⟩⟩
  · rw [if_neg hclose] at h
    cases h

/-- Brackets that are closed without another value, or up to a comma and the next value. -/
theorem closes_of_skipEnds {brackets : List Bracket}
    (h : skipEnds brackets ⟨cs, ignored⟩ = .ok left s') :
    ∃ taken, cs = taken ++ s'.rest ∧
      (left = [] ∧ Closes brackets taken ∨ left ≠ [] ∧ ∀ {bs ds more : List Char} {t : Syntax},
        Blanks bs → t.Spells ds → Closes left more →
          Closes brackets (taken ++ (bs ++ (ds ++ more)))) := by
  induction brackets generalizing cs ignored with
  | nil =>
    cases h
    exact ⟨[], rfl, .inl ⟨rfl, .nil⟩⟩
  | cons b outer ih =>
    cases b with
    | list =>
      obtain ⟨bs, hb, ⟨rfl, rfl⟩ | ⟨rest, rfl, houter⟩⟩ := exists_of_skipEnds_list h
      · -- after a comma the list stays open, and the next value is its next item
        refine ⟨bs ++ [','], by simp, .inr ⟨nofun, fun hb' ht hmore => ?_⟩⟩
        cases hmore with
        | list hts hmore =>
          have hitems : SpellsItems false (_ :: _) _ := ⟨_, _, _, rfl, .comma hb hb', ht, hts⟩
          simpa using Closes.list hitems hmore
      · obtain ⟨taken, rfl, htaken⟩ := ih houter
        -- the list ends here, and the brackets around it go on
        have hitems : SpellsItems false [] bs := hb
        refine ⟨bs ++ ']' :: taken, by simp, htaken.imp ?_ ?_⟩
        · exact fun ⟨hleft, hcloses⟩ => ⟨hleft, .list hitems hcloses⟩
        · refine fun ⟨hleft, hcloses⟩ => ⟨hleft, fun hb' ht hmore => ?_⟩
          simpa using Closes.list hitems (hcloses hb' ht hmore)
    | object =>
      obtain ⟨bs, hb, ⟨bs₁, key, bs₂, rfl, hb₁, hk, hb₂, rfl⟩ | ⟨rest, rfl, houter⟩⟩ :=
        exists_of_skipEnds_object h
      · refine ⟨bs ++ ',' :: (bs₁ ++ '"' :: (key ++ '"' :: (bs₂ ++ [':']))), by simp,
          .inr ⟨nofun, fun hb' ht hmore => ?_⟩⟩
        cases hmore with
        | object hms hmore =>
          have hmembers : SpellsMembers false ((key, _) :: _) _ :=
            ⟨_, bs₂, _, _, _, rfl, .comma hb hb₁, hk, hb₂, hb', ht, hms⟩
          simpa using Closes.object hmembers hmore
      · obtain ⟨taken, rfl, htaken⟩ := ih houter
        have hmembers : SpellsMembers false [] bs := hb
        refine ⟨bs ++ '\x7d' :: taken, by simp, htaken.imp ?_ ?_⟩
        · exact fun ⟨hleft, hcloses⟩ => ⟨hleft, .object hmembers hcloses⟩
        · refine fun ⟨hleft, hcloses⟩ => ⟨hleft, fun hb' ht hmore => ?_⟩
          simpa using Closes.object hmembers (hcloses hb' ht hmore)

end Ending

/-- A value that was stepped over is spelled, and the brackets around it are closed. -/
theorem exists_spells_of_skipInside {fuel : List Char} {brackets : List Bracket}
    (h : skipInside fuel brackets ⟨cs, ignored⟩ = .ok () s') :
    ∃ bs ds more t, cs = bs ++ (ds ++ (more ++ s'.rest)) ∧ Blanks bs ∧ Syntax.Spells t ds ∧
      Closes brackets more := by
  induction fuel generalizing brackets cs ignored with
  | nil => cases h
  | cons f fuel ih =>
    rw [skipInside] at h
    obtain ⟨o, ⟨rest, n⟩, hstart, hinside⟩ := bind_eq_ok.mp h
    obtain ⟨taken, rfl, hstarts⟩ := starts_of_skipStart hstart
    cases hstarts with
    | value hb ht =>
      obtain ⟨left, ⟨after, k⟩, hends, hleft⟩ := bind_eq_ok.mp hinside
      obtain ⟨ends, rfl, ⟨rfl, hcloses⟩ | ⟨hne, hcloses⟩⟩ := closes_of_skipEnds hends
      · cases hleft
        exact ⟨_, _, ends, _, by simp, hb, ht, hcloses⟩
      · -- a bracket stays open, so another value is stepped over
        obtain ⟨b, outer, rfl⟩ := List.exists_cons_of_ne_nil hne
        obtain ⟨bs', ds', more', t', rfl, hb', ht', hmore⟩ := ih hleft
        exact ⟨_, _, _, _, by simp, hb, ht, hcloses hb' ht' hmore⟩
    | @list bs sep hb hsep =>
      obtain ⟨bs', ds', more', t', rfl, hb', ht', hmore⟩ := ih hinside
      -- the inner value is the first item, and what closes the list has the others
      cases hmore with
      | @list _ ts inside more hts hmore =>
        have hsep' : Blanks (sep ++ bs') := fun c hc =>
          (List.mem_append.mp hc).elim (hsep c) (hb' c)
        have hlist : (Syntax.list (t' :: ts)).Spells _ :=
          ⟨_, rfl, sep ++ bs', ds', inside, rfl, .first hsep', ht', hts⟩
        exact ⟨bs, _, more, _, by simp, hb, hlist, hmore⟩
    | @object bs sep key bs₁ hb hsep hk hb₁ =>
      obtain ⟨bs', ds', more', t', rfl, hb', ht', hmore⟩ := ih hinside
      cases hmore with
      | @object _ ms inside more hms hmore =>
        have hobject : (Syntax.object ((key, t') :: ms)).Spells _ :=
          ⟨_, rfl, sep, bs₁, bs', ds', inside, rfl, .first hsep, hk, hb₁, hb', ht', hms⟩
        exact ⟨bs, _, more, _, by simp, hb, hobject, hmore⟩

/-- A member that was stepped over has a spelled value. -/
theorem exists_spells_of_skipMember (h : skipMember ⟨cs, ignored⟩ = .ok () s') :
    ∃ bs bs' ds t, cs = bs ++ ':' :: (bs' ++ (ds ++ s'.rest)) ∧ Blanks bs ∧ Blanks bs' ∧
      Syntax.Spells t ds := by
  rw [skipMember] at h
  obtain ⟨_, ⟨rest, n⟩, hcolon, hskip⟩ := bind_eq_ok.mp h
  obtain ⟨bs, rfl, hb⟩ := exists_colon hcolon
  rw [bind_rest] at hskip
  obtain ⟨bs', ds, more, t, hrest, hb', ht, hmore⟩ := exists_spells_of_skipInside hskip
  cases hmore
  exact ⟨bs, bs', ds, t, by simpa using hrest, hb, hb', ht⟩

end Stepped

end Reader

end ApiSurface.Json
