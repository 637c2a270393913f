/-
The details of a marker in the contents of its slot.

Each detail is read from its own entry and always gives something, be it nothing (`detailOf_sinceOf`,
`detailOf_forRemovalOf`), so another content in the place of an entry changes the detail of that entry
only (`ofEntries?_replace`).
-/
import ApiSurface.Wire.Schema

namespace ApiSurface

/-! ### Lists made one by one -/

section Lists

variable {ι α : Type} {f : ι → Option α} {as : List ι} {bs : List α}

theorem length_mapM (h : as.mapM f = some bs) : bs.length = as.length := by
  induction as generalizing bs with
  | nil =>
    cases h
    rfl
  | cons a as ih =>
    rw [List.mapM_cons] at h
    obtain ⟨b, -, h⟩ := Option.bind_eq_some_iff.mp h
    obtain ⟨bs', hbs, h⟩ := Option.bind_eq_some_iff.mp h
    cases h
    rw [List.length_cons, List.length_cons, ih hbs]

theorem getElem?_mapM (h : as.mapM f = some bs) (i : Nat) : bs[i]? = as[i]?.bind f := by
  induction as generalizing bs i with
  | nil =>
    cases h
    rfl
  | cons a as ih =>
    rw [List.mapM_cons] at h
    obtain ⟨b, hb, h⟩ := Option.bind_eq_some_iff.mp h
    obtain ⟨bs', hbs, h⟩ := Option.bind_eq_some_iff.mp h
    cases h
    cases i with
    | zero => exact hb.symm
    | succ i => exact ih hbs i

end Lists

namespace Marker

/-- The version that a content gives. -/
def sinceIn : Content → Option String
  | .text s => some s
  | .number n => some n.toText
  | _ => none

/-- The removal flag that a content gives. -/
def forRemovalIn : Content → Option Bool
  | .bool b => some b
  | _ => none

theorem detailOf_sinceOf (c : Content) : (detailOf sinceOf c).result = .ok (sinceIn c) := by
  cases c <;> rfl

theorem detailOf_forRemovalOf (c : Content) :
    (detailOf forRemovalOf c).result = .ok (forRemovalIn c) := by
  cases c <;> rfl

/-- A marker with the detail under a key taken from a content. -/
def replace (key : Key) (c : Content) (m : Marker) : Marker :=
  match key with
  | .since => { m with since := sinceIn c }
  | .forRemoval => { m with forRemoval := forRemovalIn c }
  | .other => m

theorem next_result {α β : Type} (i : Interpreted α) (k : α → Interpreted β) :
    (ofEntries.next i k).result.toOption
      = i.result.toOption.bind fun a => (k a).result.toOption := by
  rw [ofEntries.next]
  cases i.result <;> rfl

/-- Two items at most give the details in order. -/
theorem ofItems_result (cs : List Content) : (ofItems cs).result.toOption
    = if cs.length ≤ 2 then some ⟨cs[0]?.bind sinceIn, cs[1]?.bind forRemovalIn⟩ else none := by
  rcases cs with _ | ⟨c, _ | ⟨d, _ | ⟨e, rest⟩⟩⟩
  · rfl
  · show ((detailOf sinceOf c).result.map _).toOption = _
    rw [detailOf_sinceOf]
    rfl
  · show (do return ⟨← (detailOf sinceOf c).result, ← (detailOf forRemovalOf d).result⟩ :
      Except Mismatch Marker).toOption = _
    rw [detailOf_sinceOf, detailOf_forRemovalOf]
    rfl
  · rw [if_neg (by simp)]
    rfl

/-- Items give the details in order, two of them at most. -/
theorem ofItems_mapM {ι : Type} {f : ι → Option Content} {version : ι → Option String}
    {removal : ι → Option Bool} {ts : List ι} {cs : List Content} (h : ts.mapM f = some cs)
    (details : ∀ t ∈ ts, ∀ c, f t = some c → sinceIn c = version t ∧ forRemovalIn c = removal t) :
    (ofItems cs).result.toOption
      = if ts.length ≤ 2 then some ⟨ts[0]?.bind version, ts[1]?.bind removal⟩ else none := by
  have hdetail {α : Type} {inContent : Content → Option α} {inItem : ι → Option α}
      (hitem : ∀ t ∈ ts, ∀ c, f t = some c → inContent c = inItem t) (i : Nat) :
      cs[i]?.bind inContent = ts[i]?.bind inItem := by
    rw [getElem?_mapM h]
    cases ht : ts[i]? with
    | none => rfl
    | some t =>
      have hlast := getElem?_mapM h i
      rw [ht, Option.bind_some] at hlast
      rw [Option.bind_some, Option.bind_some]
      cases hc : f t with
      | none =>
        obtain ⟨hi, -⟩ := List.getElem?_eq_some_iff.mp ht
        rw [hc, List.getElem?_eq_none_iff, length_mapM h] at hlast
        omega
      | some c => exact hitem t (List.mem_of_getElem? ht) c hc
  rw [ofItems_result, length_mapM h, hdetail (fun t ht c hc => (details t ht c hc).1) 0,
    hdetail (fun t ht c hc => (details t ht c hc).2) 1]

/-! ### Entries -/

/-- The marker that entries give, once some details are known. -/
def ofEntries? (since : Option (Option String)) (forRemoval : Option (Option Bool))
    (es : List (Content × Content)) : Option Marker :=
  (ofEntries since forRemoval es).result.toOption

section Entries

variable {since : Option (Option String)} {forRemoval : Option (Option Bool)} {k : Content}

/-- What an entry gives, each detail at most once. -/
theorem ofEntries?_cons (k c : Content) (es : List (Content × Content)) :
    ofEntries? since forRemoval ((k, c) :: es) = match keyOf k with
      | some .since =>
        if since.isSome then none else ofEntries? (some (sinceIn c)) forRemoval es
      | some .forRemoval =>
        if forRemoval.isSome then none else ofEntries? since (some (forRemovalIn c)) es
      | some .other => ofEntries? since forRemoval es
      | none => none := by
  rw [ofEntries?]
  cases hk : keyOf k with
  | none => cases since <;> cases forRemoval <;> simp [ofEntries, hk, Except.toOption]
  | some key =>
    cases key with
    | since =>
      cases since with
      | some a => cases forRemoval <;> simp [ofEntries, hk, Except.toOption]
      | none =>
        -- the detail is not known yet, so this entry gives it and the others go on
        have hentries : ofEntries none forRemoval ((k, c) :: es)
            = ofEntries.next (detailOf sinceOf c) fun a => ofEntries (some a) forRemoval es := by
          simp [ofEntries, hk]
        rw [hentries, next_result, detailOf_sinceOf]
        rfl
    | forRemoval =>
      cases forRemoval with
      | some a => cases since <;> simp [ofEntries, hk, Except.toOption]
      | none =>
        have hentries : ofEntries since none ((k, c) :: es)
            = ofEntries.next (detailOf forRemovalOf c) fun a => ofEntries since (some a) es := by
          cases since <;> simp [ofEntries, hk]
        rw [hentries, next_result, detailOf_forRemovalOf]
        rfl
    | other =>
      have hentries : ofEntries since forRemoval ((k, c) :: es) = ofEntries since forRemoval es := by
        cases since <;> cases forRemoval <;> simp [ofEntries, hk]
      rw [hentries]
      rfl

/-- A version that is known is the version of the marker. -/
theorem ofEntries?_since (a a' : Option String) (es : List (Content × Content)) :
    ofEntries? (some a') forRemoval es
      = (ofEntries? (some a) forRemoval es).map fun m => { m with since := a' } := by
  induction es generalizing forRemoval with
  | nil => rfl
  | cons e es ih =>
    rw [ofEntries?_cons, ofEntries?_cons]
    split
    · rfl
    · split
      · rfl
      · exact ih
    · exact ih
    · rfl

theorem ofEntries?_forRemoval (a a' : Option Bool) (es : List (Content × Content)) :
    ofEntries? since (some a') es
      = (ofEntries? since (some a) es).map fun m => { m with forRemoval := a' } := by
  induction es generalizing since with
  | nil => rfl
  | cons e es ih =>
    rw [ofEntries?_cons, ofEntries?_cons]
    split
    · split
      · rfl
      · exact ih
    · rfl
    · exact ih
    · rfl

/-- Another content under a key changes the detail of that key. -/
theorem ofEntries?_replace {key : Key} (hk : keyOf k = some key) (c c' : Content)
    (before after : List (Content × Content)) :
    ofEntries? since forRemoval (before ++ (k, c') :: after)
      = (ofEntries? since forRemoval (before ++ (k, c) :: after)).map (replace key c') := by
  induction before generalizing since forRemoval with
  | nil =>
    rw [List.nil_append, List.nil_append, ofEntries?_cons, ofEntries?_cons, hk]
    cases key with
    | since =>
      dsimp only
      split
      · rfl
      · exact ofEntries?_since _ _ _
    | forRemoval =>
      dsimp only
      split
      · rfl
      · exact ofEntries?_forRemoval _ _ _
    | other =>
      show _ = Option.map id _
      rw [Option.map_id_fun, id]
  | cons e before ih =>
    rw [List.cons_append, List.cons_append, ofEntries?_cons, ofEntries?_cons]
    split
    · split
      · rfl
      · exact ih
    · split
      · rfl
      · exact ih
    · exact ih
    · rfl

end Entries

/-! ### Whole maps -/

/-- The content under a key among entries. -/
def contentOf? (key : Key) (es : List (Content × Content)) : Option Content :=
  (es.find? fun e => keyOf e.1 = some key).map (·.2)

/-- Whether all entries are members of a marker, each detail at most once. -/
structure Named (es : List (Content × Content)) : Prop where
  keys : ∀ e ∈ es, (keyOf e.1).isSome
  once : es.Pairwise fun e e' => ∀ key, keyOf e.1 = some key → keyOf e'.1 = some key → key = .other

section Maps

variable {since : Option (Option String)} {forRemoval : Option (Option Bool)} {key key' : Key}
  {k c : Content} {es : List (Content × Content)} {m : Marker}

theorem contentOf?_eq_none : contentOf? key es = none ↔ ∀ e ∈ es, keyOf e.1 ≠ some key := by
  simp [contentOf?, List.find?_eq_none]

theorem contentOf?_cons_self (hk : keyOf k = some key) : contentOf? key ((k, c) :: es) = some c := by
  simp [contentOf?, hk]

theorem contentOf?_cons_other (hk : keyOf k = some key') (h : key' ≠ key) :
    contentOf? key ((k, c) :: es) = contentOf? key es := by
  simp [contentOf?, hk, h]

/-- A detail may be added to the entries that do not have it yet. -/
theorem named_cons (hk : keyOf k = some key) :
    Named ((k, c) :: es) ↔ Named es ∧ (key ≠ .other → contentOf? key es = none) := by
  rw [contentOf?_eq_none]
  constructor
  · rintro ⟨keys, once⟩
    obtain ⟨hfirst, hothers⟩ := List.pairwise_cons.mp once
    refine ⟨⟨fun e he => keys e (List.mem_cons_of_mem _ he), hothers⟩, fun hkey e he heq => ?_⟩
    exact hkey (hfirst e he key hk heq)
  · rintro ⟨⟨keys, once⟩, hnew⟩
    refine ⟨fun e he => ?_, List.pairwise_cons.mpr ⟨fun e he key' hkey hkey' => ?_, once⟩⟩
    · obtain rfl | he := List.mem_cons.mp he
      · rw [hk]
        rfl
      · exact keys e he
    · obtain rfl : key = key' := by simpa [hk] using hkey
      exact Decidable.byContradiction fun hother => hnew hother e he hkey'

theorem not_named_cons (hk : keyOf k = none) : ¬ Named ((k, c) :: es) := by
  intro h
  have := h.keys (k, c) List.mem_cons_self
  rw [hk] at this
  cases this

/-- Entries give a marker if they are members of one that is not yet known of, and then each detail
comes from its own entry. -/
theorem ofEntries?_eq_some : ofEntries? since forRemoval es = some m ↔
    Named es ∧ (since.isSome → contentOf? .since es = none) ∧
      (forRemoval.isSome → contentOf? .forRemoval es = none) ∧
      m = ⟨(since <|> (contentOf? .since es).map sinceIn).join,
        (forRemoval <|> (contentOf? .forRemoval es).map forRemovalIn).join⟩ := by
  induction es generalizing since forRemoval with
  | nil =>
    have hnil : Named [] := ⟨by simp, .nil⟩
    show some (⟨since.join, forRemoval.join⟩ : Marker) = some m ↔ _
    cases since <;> cases forRemoval <;> simp [hnil, contentOf?, eq_comm]
  | cons e es ih =>
    obtain ⟨k, c⟩ := e
    rw [ofEntries?_cons]
    cases hk : keyOf k with
    | none => simp [not_named_cons hk]
    | some key =>
      rw [named_cons hk]
      cases key with
      | since =>
        rw [contentOf?_cons_self hk, contentOf?_cons_other hk (by decide)]
        cases since with
        | some a => simp
        | none =>
          dsimp only
          rw [if_neg (by simp), ih]
          simp [and_assoc]
      | forRemoval =>
        rw [contentOf?_cons_self hk, contentOf?_cons_other hk (by decide)]
        cases forRemoval with
        | some a => simp
        | none =>
          dsimp only
          rw [if_neg (by simp), ih]
          simp [and_assoc, and_left_comm]
      | other =>
        rw [contentOf?_cons_other hk (by decide), contentOf?_cons_other hk (by decide)]
        dsimp only
        rw [ih]
        simp

end Maps

/-! ### Slots -/

theorem toOption_map {α β : Type} (f : α → β) (r : Except Mismatch α) :
    (r.map f).toOption = r.toOption.map f := by
  cases r <;> rfl

theorem slotOf_list (cs : List Content) :
    (slotOf (.list cs)).result.toOption = (ofItems cs).result.toOption.map some :=
  toOption_map some _

theorem slotOf_map (es : List (Content × Content)) :
    (slotOf (.map es)).result.toOption = (ofEntries? none none es).map some :=
  toOption_map some _

end Marker

end ApiSurface
