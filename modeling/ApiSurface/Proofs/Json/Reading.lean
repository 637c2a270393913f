/-
What it means that a JSON reader reads a written value, and how written lists and objects are read.

`Reads r cs a` says that the reader `r` reads the text `cs` as the value `a`: blanks may stand
before the text, and anything that cannot belong to the value may follow. It is stated for every
rest, so that it composes.

* `items_itemsText` — the items of a list, if each item is read from its own text;
* `members_membersText` — the members of an object, if they build up a value one by one;
* `reads_value` — a value of any kind.
-/
import ApiSurface.Json.Decode
import ApiSurface.Proofs.Json.Number
import ApiSurface.Proofs.Json.Text
import ApiSurface.Proofs.Wire.Kept

namespace ApiSurface.Json

/-- Whether a layout puts nothing but blanks around the parts of lists and objects. -/
structure Layout.IsBlank (l : Layout) : Prop where
  newLine : ∀ level, ∀ c ∈ l.newLine level, Reader.isBlank c = true
  colon : ∃ bs, l.colon = ':' :: bs ∧ ∀ c ∈ bs, Reader.isBlank c = true

theorem Layout.isBlank_compact : Layout.compact.IsBlank where
  newLine _ _ h := nomatch h
  colon := ⟨[], rfl, nofun⟩

theorem Layout.isBlank_pretty : Layout.pretty.IsBlank where
  newLine level c h := by
    simp only [pretty, List.mem_cons, List.mem_replicate] at h
    obtain rfl | ⟨-, rfl⟩ := h <;> rfl
  colon := ⟨[' '], rfl, List.all_eq_true.mp rfl⟩

namespace Reader

/-! ### Running readers -/

section Running

variable {α β : Type} {a : α} {s s' t : State}

theorem bind_ok {r : Reader α} (h : r s = .ok a t) (f : α → Reader β) : (r >>= f) s = f a t := by
  show EStateM.bind r f s = _
  rw [EStateM.bind, h]

theorem bind_skip (c : Char) (cs : List Char) (ignored : Nat) (f : Unit → Reader β) :
    (skip >>= f) ⟨c :: cs, ignored⟩ = f () ⟨cs, ignored⟩ := rfl

theorem bind_rest (cs : List Char) (ignored : Nat) (f : List Char → Reader β) :
    (Reader.rest >>= f) ⟨cs, ignored⟩ = f cs ⟨cs, ignored⟩ := rfl

theorem located_ok {r : Reader α} (h : r s = .ok a s') : located r s = .ok a s' := by
  rw [located, h]

theorem closing_ok {r : Reader α} {close : Reader Unit} (h : r s = .ok a t)
    (hc : close t = .ok () s') : closing r close s = .ok a s' := by
  simp only [closing, h, hc]

theorem deeper_ok {depth : Nat} (h : 1 < depth) (r : Nat → Reader α) :
    deeper depth r = r (depth - 1) := by
  rw [deeper, if_neg (by omega)]

/-- The blanks before a token are skipped. -/
theorem peekToken?_eq {bs cs : List Char} {c : Char} (hb : ∀ b ∈ bs, isBlank b = true)
    (hc : isBlank c = false) (ignored : Nat) :
    peekToken? ⟨bs ++ c :: cs, ignored⟩ = .ok (some c) ⟨c :: cs, ignored⟩ := by
  have hs : Text.Stops isBlank (c :: cs) := by
    rintro _ ⟨⟩
    exact hc
  rw [peekToken?, Text.dropWhile_append hb hs]
  rfl

theorem peekToken?_cons {c : Char} (hc : isBlank c = false) (cs : List Char) (ignored : Nat) :
    peekToken? ⟨c :: cs, ignored⟩ = .ok (some c) ⟨c :: cs, ignored⟩ := by
  have h : ∀ b ∈ ([] : List Char), isBlank b = true := nofun
  exact peekToken?_eq h hc ignored

theorem onToken_eq {bs cs : List Char} {c : Char} (hb : ∀ b ∈ bs, isBlank b = true)
    (hc : isBlank c = false) (r : Char → Reader α) (ignored : Nat) :
    onToken r ⟨bs ++ c :: cs, ignored⟩ = r c ⟨c :: cs, ignored⟩ := by
  rw [onToken, bind_ok (peekToken?_eq hb hc ignored)]

end Running

/-- Whether a reader reads a text as a value, whatever stands around it. -/
def Reads {α : Type} (r : Reader α) (cs : List Char) (a : α) : Prop :=
  ∀ bs rest ignored, (∀ b ∈ bs, isBlank b = true) → Ends rest →
    r ⟨bs ++ (cs ++ rest), ignored⟩ = .ok a ⟨rest, ignored⟩

/-- Whether a character can start a value. -/
def startsValue (c : Char) : Bool :=
  !isBlank c && c != ']' && c != '}' && c != ','

theorem startsValue_of_isDigit {c : Char} (h : c.isDigit = true) : startsValue c = true := by
  simp only [startsValue, isBlank, Bool.and_eq_true, Bool.not_eq_true', Bool.or_eq_false_iff,
    bne_iff_ne, decide_eq_false_iff_not]
  refine ⟨⟨⟨⟨⟨⟨?_, ?_⟩, ?_⟩, ?_⟩, ?_⟩, ?_⟩, ?_⟩ <;>
  · rintro rfl
    exact absurd h (by decide)

/-- Whether the text of a number is read as the number. The minus of a number is taken away before
its digits are. -/
inductive Survives (x : Number) : Prop
  | negative {cs : List Char} (text : x.write Notation.json = '-' :: cs)
      (read : ∀ {rest : List Char}, Ends rest → ∀ ignored,
        number true ⟨cs ++ rest, ignored⟩ = .ok x ⟨rest, ignored⟩) : Survives x
  | positive {c : Char} {cs : List Char} (text : x.write Notation.json = c :: cs)
      (digit : c.isDigit = true) (read : ∀ {rest : List Char}, Ends rest → ∀ ignored,
        number false ⟨c :: cs ++ rest, ignored⟩ = .ok x ⟨rest, ignored⟩) : Survives x

theorem survives_integer (i : WordInt) : Survives (.integer i) := by
  have hlow := i.lower
  have hup := i.upper
  have hlimit : i.val.natAbs < wordLimit := by
    rw [wordLimit]
    omega
  have hwrite : (Number.integer i).write Notation.json = i.write := rfl
  rw [WordInt.write] at hwrite
  by_cases hneg : i.val < 0
  · rw [if_pos hneg] at hwrite
    refine .negative hwrite fun h ignored => number_toDigits ?_ (by omega) hlimit h ignored
    rw [if_pos rfl, show -(i.val.natAbs : Int) = i.val by omega, WordInt.ofInt?_val]
  · obtain ⟨c, cs, hcs, hc, -⟩ := Text.exists_toDigits i.val.natAbs
    rw [if_neg hneg, hcs] at hwrite
    refine .positive hwrite hc fun h ignored => ?_
    rw [← hcs]
    refine number_toDigits ?_ (by simp) hlimit h ignored
    rw [if_neg (by simp), show (i.val.natAbs : Int) = i.val by omega, WordInt.ofInt?_val]

/-- A written value starts with a character of its own; only the absent value starts with an `n`. -/
theorem exists_write_cons (l : Layout) (level : Nat) {t : Tree} (h : t.Holds Survives) :
    ∃ c cs, write l level t = c :: cs ∧ startsValue c = true ∧ (c = 'n' → t = .null) := by
  cases t with
  | null => exact ⟨'n', _, rfl, by decide, fun _ => rfl⟩
  | bool b => cases b <;> exact ⟨_, _, rfl, by decide, by simp⟩
  | number x =>
    cases h x rfl with
    | negative text _ => exact ⟨'-', _, text, by decide, by simp⟩
    | positive text digit _ =>
      refine ⟨_, _, text, startsValue_of_isDigit digit, ?_⟩
      rintro rfl
      exact absurd digit (by decide)
  | text s => exact ⟨'"', _, rfl, by decide, by simp⟩
  | list items =>
    rw [write]
    split <;> exact ⟨'[', _, rfl, by decide, by simp⟩
  | record members =>
    rw [write]
    split <;> exact ⟨'\x7b', _, rfl, by decide, by simp⟩
  | tagged tag value => exact ⟨'\x7b', _, rfl, by decide, by simp⟩

/-! ### Lists -/

/-- A list in brackets, empty or not. -/
theorem write_list {l : Layout} (hl : l.IsBlank) (level : Nat) (ts : List Tree) :
    ∃ bs, write l level (.list ts) = '[' :: (writeItems l (level + 1) ts ++ bs ++ [']']) ∧
      ∀ b ∈ bs, isBlank b = true := by
  cases ts with
  | nil => exact ⟨[], rfl, nofun⟩
  | cons t ts => exact ⟨l.newLine level, rfl, hl.newLine level⟩

/-- The text of items; a comma stands before each one that is not the first of its list. -/
def itemsText (l : Layout) (level : Nat) : Bool → List Tree → List Char
  | _, [] => []
  | first, t :: ts =>
    (if first then [] else [',']) ++ (l.newLine level ++ (write l level t ++
      itemsText l level false ts))

theorem writeItems_eq (l : Layout) (level : Nat) (ts : List Tree) :
    writeItems l level ts = itemsText l level true ts := by
  induction ts with
  | nil => rfl
  | cons t ts ih =>
    rw [writeItems, ih]
    cases ts <;> simp [itemsText]

/-- Blanks and the comma are stepped over before an item. -/
theorem anotherItem_item {l : Layout} (hl : l.IsBlank) (level : Nat) (first : Bool) {c : Char}
    (hc : startsValue c = true) (cs : List Char) (ignored : Nat) :
    anotherItem first ⟨(if first then [] else [',']) ++ (l.newLine level ++ c :: cs), ignored⟩
      = .ok true ⟨c :: cs, ignored⟩ := by
  simp only [startsValue, Bool.and_eq_true, Bool.not_eq_true', bne_iff_ne] at hc
  obtain ⟨⟨⟨hblank, hlist⟩, -⟩, -⟩ := hc
  have hpeek : peekToken? ⟨l.newLine level ++ c :: cs, ignored⟩ = _ :=
    peekToken?_eq (hl.newLine level) hblank ignored
  cases first with
  | true =>
    rw [anotherItem, if_pos rfl, List.nil_append, bind_ok hpeek]
    simp [hlist, pure, EStateM.pure]
  | false =>
    rw [anotherItem, if_neg nofun, List.singleton_append,
      bind_ok (peekToken?_cons (by decide) _ ignored)]
    simp [bind, EStateM.bind, skip, hpeek, hlist, pure, EStateM.pure]

/-- The bracket ends a list. -/
theorem anotherItem_end (first : Bool) {bs : List Char} (hb : ∀ b ∈ bs, isBlank b = true)
    (rest : List Char) (ignored : Nat) :
    anotherItem first ⟨bs ++ ']' :: rest, ignored⟩ = .ok false ⟨']' :: rest, ignored⟩ := by
  rw [anotherItem, bind_ok (peekToken?_eq hb (by decide) ignored)]
  rfl

theorem ends_of_blank {bs rest : List Char} (hb : ∀ b ∈ bs, isBlank b = true) (h : Ends rest) :
    Ends (bs ++ rest) := by
  cases bs with
  | nil => exact h
  | cons b bs =>
    rintro _ ⟨⟩
    have := hb b List.mem_cons_self
    simp only [isBlank, Bool.or_eq_true, decide_eq_true_eq] at this
    obtain ((rfl | rfl) | rfl) | rfl := this <;> rfl

theorem ends_itemsText (l : Layout) (level : Nat) (ts : List Tree) {rest : List Char}
    (h : Ends rest) : Ends (itemsText l level false ts ++ rest) := by
  cases ts with
  | nil => exact h
  | cons t ts =>
    rintro _ ⟨⟩
    rfl

/-- The items of a list are read up to its bracket, if each item is read from its own text. -/
theorem items_itemsText {ι α : Type} {item : Reader α} {l : Layout} (hl : l.IsBlank) (level : Nat)
    {tree : ι → Tree} {value : ι → α} {xs : List ι} (holds : ∀ x ∈ xs, (tree x).Holds Survives)
    (h : ∀ x ∈ xs, Reads item (write l level (tree x)) (value x))
    {bs : List Char} (hb : ∀ b ∈ bs, isBlank b = true) (first : Bool) {fuel : List Char}
    (hf : xs.length < fuel.length) (rest : List Char) (ignored : Nat) :
    items item fuel first
      ⟨itemsText l level first (xs.map tree) ++ (bs ++ ']' :: rest), ignored⟩
      = .ok (xs.map value) ⟨']' :: rest, ignored⟩ := by
  induction xs generalizing first fuel with
  | nil =>
    -- the fuel outlasts the items, so there is some left for the bracket
    match fuel, hf with
    | _ :: fuel, _ =>
      rw [items, List.map_nil, itemsText, List.nil_append,
        bind_ok (anotherItem_end first hb rest ignored)]
      rfl
  | cons x xs ih =>
    match fuel, hf with
    | _ :: fuel, hf =>
      obtain ⟨c, cs, hcs, hc, -⟩ := exists_write_cons l level (holds x List.mem_cons_self)
      have hends : Ends (bs ++ ']' :: rest) := ends_of_blank hb (by rintro _ ⟨⟩; rfl)
      have hread := h x List.mem_cons_self [] _ ignored nofun
        (ends_itemsText l level (xs.map tree) hends)
      have hrest := ih (fun y hy => holds y (List.mem_cons_of_mem _ hy))
        (fun y hy => h y (List.mem_cons_of_mem _ hy)) false (by simpa using hf)
      rw [hcs, List.nil_append, List.cons_append] at hread
      rw [items, List.map_cons, itemsText, hcs]
      simp only [List.append_assoc, List.cons_append]
      rw [bind_ok (anotherItem_item hl level first hc _ ignored), if_pos rfl, bind_ok hread,
        bind_ok hrest]
      rfl

theorem length_le_itemsText (l : Layout) (level : Nat) (first : Bool) {ts : List Tree}
    (holds : ∀ t ∈ ts, t.Holds Survives) : ts.length ≤ (itemsText l level first ts).length := by
  induction ts generalizing first with
  | nil => exact Nat.zero_le _
  | cons t ts ih =>
    obtain ⟨c, cs, hcs, -⟩ := exists_write_cons l level (holds t List.mem_cons_self)
    have := ih false fun u hu => holds u (List.mem_cons_of_mem _ hu)
    simp only [itemsText, hcs, List.length_append, List.length_cons]
    omega

/-- After its bracket a list is read item by item. -/
theorem closing_items {ι α : Type} {item : Reader α} {l : Layout} (hl : l.IsBlank) (level : Nat)
    {tree : ι → Tree} {value : ι → α} {xs : List ι} (holds : ∀ x ∈ xs, (tree x).Holds Survives)
    (h : ∀ x ∈ xs, Reads item (write l (level + 1) (tree x)) (value x)) :
    ∃ cs, write l level (.list (xs.map tree)) = '[' :: cs ∧ ∀ rest ignored,
      closing (do items item (← Reader.rest) true) endList ⟨cs ++ rest, ignored⟩
        = .ok (xs.map value) ⟨rest, ignored⟩ := by
  obtain ⟨bs, htext, hb⟩ := write_list hl level (xs.map tree)
  refine ⟨_, htext, fun rest ignored => ?_⟩
  have hholds : ∀ t ∈ xs.map tree, t.Holds Survives := by simpa using holds
  have hlen := length_le_itemsText l (level + 1) true hholds
  have hfuel : xs.length <
      (itemsText l (level + 1) true (xs.map tree) ++ (bs ++ ']' :: rest)).length := by
    simp only [List.length_append, List.length_cons, List.length_map] at hlen ⊢
    omega
  have hitems := items_itemsText hl (level + 1) holds h hb true hfuel rest ignored
  rw [writeItems_eq]
  simp only [List.cons_append, List.append_assoc, List.nil_append]
  refine closing_ok ((bind_rest _ _ _).trans hitems) ?_
  rw [endList, bind_ok (peekToken?_cons (by decide) _ ignored)]
  rfl

/-! ### Objects -/

/-- An object in braces, empty or not. -/
theorem write_record {l : Layout} (hl : l.IsBlank) (level : Nat) (ms : List (String × Tree)) :
    ∃ bs, write l level (.record ms) = '\x7b' :: (writeMembers l (level + 1) ms ++ bs ++ ['\x7d']) ∧
      ∀ b ∈ bs, isBlank b = true := by
  cases ms with
  | nil => exact ⟨[], rfl, nofun⟩
  | cons m ms => exact ⟨l.newLine level, rfl, hl.newLine level⟩

/-- The text of a member after its key. -/
def valueText (l : Layout) (level : Nat) (t : Tree) : List Char := l.colon ++ write l level t

/-- The text of members; a comma stands before each one that is not the first of its object. -/
def membersText (l : Layout) (level : Nat) : Bool → List (String × Tree) → List Char
  | _, [] => []
  | first, (key, t) :: ms =>
    (if first then [] else [',']) ++ (l.newLine level ++ (quoted key ++ (valueText l level t ++
      membersText l level false ms)))

theorem writeMembers_eq (l : Layout) (level : Nat) (ms : List (String × Tree)) :
    writeMembers l level ms = membersText l level true ms := by
  induction ms with
  | nil => rfl
  | cons m ms ih =>
    rw [writeMembers, ih]
    cases ms <;> simp [membersText, valueText]

theorem ends_membersText (l : Layout) (level : Nat) (ms : List (String × Tree)) {rest : List Char}
    (h : Ends rest) : Ends (membersText l level false ms ++ rest) := by
  cases ms with
  | nil => exact h
  | cons m ms =>
    rintro _ ⟨⟩
    rfl

/-- Blanks and the comma are stepped over before the key of a member. -/
theorem anotherMember_key {l : Layout} (hl : l.IsBlank) (level : Nat) (first : Bool)
    (cs : List Char) (ignored : Nat) :
    anotherMember first ⟨(if first then [] else [',']) ++ (l.newLine level ++ '"' :: cs), ignored⟩
      = .ok true ⟨'"' :: cs, ignored⟩ := by
  have hpeek : peekToken? ⟨l.newLine level ++ '"' :: cs, ignored⟩ = _ :=
    peekToken?_eq (hl.newLine level) (by decide) ignored
  cases first with
  | true =>
    rw [anotherMember, if_pos rfl, List.nil_append, bind_ok hpeek]
    rfl
  | false =>
    rw [anotherMember, if_neg nofun, List.singleton_append,
      bind_ok (peekToken?_cons (by decide) _ ignored)]
    simp [bind, EStateM.bind, skip, hpeek, pure, EStateM.pure]

/-- The brace ends an object. -/
theorem anotherMember_end (first : Bool) {bs : List Char} (hb : ∀ b ∈ bs, isBlank b = true)
    (rest : List Char) (ignored : Nat) :
    anotherMember first ⟨bs ++ '\x7d' :: rest, ignored⟩ = .ok false ⟨'\x7d' :: rest, ignored⟩ := by
  rw [anotherMember, bind_ok (peekToken?_eq hb (by decide) ignored)]
  rfl

/-- Whether written members build up a value, each one read by a step from its own text. -/
inductive Builds {σ : Type} (l : Layout) (level : Nat) (step : σ → String → Reader σ) :
    σ → List (String × Tree) → σ → Prop where
  | nil (acc : σ) : Builds l level step acc [] acc
  | cons {acc mid last : σ} {key : String} {t : Tree} {ms : List (String × Tree)}
      (head : Reads (step acc key) (valueText l level t) mid)
      (tail : Builds l level step mid ms last) : Builds l level step acc ((key, t) :: ms) last

/-- The members of an object are read up to its brace. -/
theorem members_membersText {σ : Type} {step : σ → String → Reader σ} {l : Layout}
    (hl : l.IsBlank) {level : Nat} {acc last : σ} {ms : List (String × Tree)}
    (h : Builds l level step acc ms last) {bs : List Char} (hb : ∀ b ∈ bs, isBlank b = true)
    (first : Bool) {fuel : List Char} (hf : ms.length < fuel.length) (rest : List Char)
    (ignored : Nat) :
    members step fuel first acc ⟨membersText l level first ms ++ (bs ++ '\x7d' :: rest), ignored⟩
      = .ok last ⟨'\x7d' :: rest, ignored⟩ := by
  induction h generalizing first fuel with
  | nil acc =>
    -- the fuel outlasts the members, so there is some left for the brace
    match fuel, hf with
    | _ :: fuel, _ =>
      rw [members, membersText, List.nil_append, bind_ok (anotherMember_end first hb rest ignored)]
      rfl
  | @cons acc mid last key t ms head tail ih =>
    match fuel, hf with
    | _ :: fuel, hf =>
      have hends : Ends (bs ++ '\x7d' :: rest) := ends_of_blank hb (by rintro _ ⟨⟩; rfl)
      have hread := head [] _ ignored nofun (ends_membersText l level ms hends)
      have hrest := ih false (by simpa using hf)
      have hkey := string_quoted key
        (valueText l level t ++ (membersText l level false ms ++ (bs ++ '\x7d' :: rest))) ignored
      obtain ⟨qs, hq⟩ : ∃ qs, quoted key = '"' :: qs := ⟨_, rfl⟩
      rw [hq, List.cons_append] at hkey
      rw [List.nil_append] at hread
      rw [members, membersText, hq]
      simp only [List.append_assoc, List.cons_append]
      rw [bind_ok (anotherMember_key hl level first _ ignored), if_pos rfl, bind_ok hkey,
        bind_ok hread, hrest]

theorem colon_ok {bs : List Char} (hb : ∀ b ∈ bs, isBlank b = true) (rest : List Char)
    (ignored : Nat) : colon ⟨bs ++ ':' :: rest, ignored⟩ = .ok () ⟨rest, ignored⟩ := by
  rw [colon, bind_ok (peekToken?_eq hb (by decide) ignored)]
  rfl

theorem colon_cons (rest : List Char) (ignored : Nat) :
    colon ⟨':' :: rest, ignored⟩ = .ok () ⟨rest, ignored⟩ := by
  have h : ∀ b ∈ ([] : List Char), isBlank b = true := nofun
  exact colon_ok h rest ignored

/-- A step that reads the colon first reads a member's value from its text. -/
theorem reads_valueText {α : Type} {r : Reader α} {l : Layout} (hl : l.IsBlank) {level : Nat}
    {t : Tree} {a : α} (h : Reads r (write l level t) a) :
    Reads (do colon; r) (valueText l level t) a := by
  intro bs rest ignored hb hends
  obtain ⟨cs, hcs, hblank⟩ := hl.colon
  have hread := h cs rest ignored hblank hends
  rw [valueText, hcs]
  simp only [List.append_assoc, List.cons_append]
  rw [bind_ok (colon_ok hb _ ignored), hread]

theorem length_le_membersText (l : Layout) (level : Nat) (first : Bool)
    (ms : List (String × Tree)) : ms.length ≤ (membersText l level first ms).length := by
  induction ms generalizing first with
  | nil => exact Nat.zero_le _
  | cons m ms ih =>
    have := ih false
    simp only [membersText, quoted, List.length_append, List.length_cons]
    omega

/-- After its brace an object is read member by member. -/
theorem closing_members {σ α : Type} {step : σ → String → Reader σ} {l : Layout} (hl : l.IsBlank)
    (level : Nat) {acc last : σ} {ms : List (String × Tree)}
    (h : Builds l (level + 1) step acc ms last) {k : σ → Reader α} {a : α}
    (hk : ∀ s, k last s = .ok a s) :
    ∃ cs, write l level (.record ms) = '\x7b' :: cs ∧ ∀ rest ignored,
      closing (do k (← members step (← Reader.rest) true acc)) endObject ⟨cs ++ rest, ignored⟩
        = .ok a ⟨rest, ignored⟩ := by
  obtain ⟨bs, htext, hb⟩ := write_record hl level ms
  refine ⟨_, htext, fun rest ignored => ?_⟩
  have hlen := length_le_membersText l (level + 1) true ms
  have hfuel : ms.length <
      (membersText l (level + 1) true ms ++ (bs ++ '\x7d' :: rest)).length := by
    simp only [List.length_append, List.length_cons]
    omega
  have hmembers := members_membersText hl h hb true hfuel rest ignored
  rw [writeMembers_eq]
  simp only [List.cons_append, List.append_assoc, List.nil_append]
  refine closing_ok (t := ⟨'\x7d' :: rest, ignored⟩) ?_ ?_
  · rw [bind_rest, bind_ok hmembers, hk]
  · rw [endObject, bind_ok (peekToken?_cons (by decide) _ ignored)]
    rfl

/-! ### Values of any kind -/

theorem builds_entries {l : Layout} (hl : l.IsBlank) {level depth : Nat}
    {ms : List (String × Tree)}
    (h : ∀ m ∈ ms, Reads (value depth) (write l level m.2) m.2.content)
    (acc : List (Content × Content)) :
    Builds l level (fun entries key => do
      colon
      return (.text key, ← value depth) :: entries) acc ms ((Tree.entries ms).reverse ++ acc) := by
  induction ms generalizing acc with
  | nil => exact .nil acc
  | cons m ms ih =>
    obtain ⟨key, t⟩ := m
    have hread := h (key, t) List.mem_cons_self
    have htail := ih (fun m hm => h m (List.mem_cons_of_mem _ hm)) ((.text key, t.content) :: acc)
    rw [Tree.entries, List.reverse_cons, List.append_assoc, List.singleton_append]
    refine .cons (reads_valueText hl fun bs rest ignored hb hends => ?_) htail
    rw [bind_ok (hread bs rest ignored hb hends)]
    rfl

/-- A value of any kind is read as the content of its tree. -/
theorem reads_value {l : Layout} (hl : l.IsBlank) {n : Nat} {t : Tree}
    (h : t.Simple Survives n) (level : Nat) {depth : Nat} (hd : n < depth) :
    Reads (value depth) (write l level t) t.content := by
  intro bs rest ignored hb hends
  obtain ⟨d, rfl⟩ : ∃ d, depth = d + 1 := ⟨depth - 1, by omega⟩
  induction h generalizing level d bs rest ignored with
  | null =>
    rw [value, write, List.cons_append, bind_ok (peekToken?_eq hb (by decide) ignored)]
    rfl
  | bool b =>
    cases b <;>
    · rw [value, write, List.cons_append, bind_ok (peekToken?_eq hb (by decide) ignored)]
      rfl
  | @number n x survives =>
    rw [value, write]
    cases survives with
    | negative text read =>
      rw [text, List.cons_append, bind_ok (peekToken?_eq hb (by decide) ignored)]
      simp only [Char.reduceEq, ↓reduceIte]
      rw [bind_skip, bind_ok (read hends ignored)]
      rfl
    | @positive c cs text digit read =>
      have hread := read hends ignored
      have hblank : isBlank c = false := by
        have := startsValue_of_isDigit digit
        simp_all [startsValue]
      rw [List.cons_append] at hread
      rw [text, List.cons_append]
      -- a digit is none of the characters that other values start with
      have other {d : Char} (hd : d.isDigit = false) : c ≠ d := Text.ne_of_isDigit digit hd
      rw [bind_ok (peekToken?_eq hb hblank ignored)]
      simp only [if_neg (other (d := 'n') rfl), if_neg (other (d := 't') rfl),
        if_neg (other (d := 'f') rfl), if_neg (other (d := '-') rfl), if_pos digit]
      rw [bind_ok hread]
      rfl
  | text s =>
    have hread := string_quoted s rest ignored
    rw [quoted, List.cons_append] at hread
    rw [value, write, quoted, List.cons_append, bind_ok (peekToken?_eq hb (by decide) ignored)]
    simp only [Char.reduceEq, ↓reduceIte]
    rw [if_neg (by decide), bind_ok hread]
    rfl
  | @list n items hs ih =>
    obtain ⟨e, rfl⟩ : ∃ e, d = e + 1 := ⟨d - 1, by omega⟩
    have holds : ∀ t ∈ items, t.Holds Survives := fun t ht => (hs t ht).holds
    have hitems : ∀ t ∈ items, Reads (value (e + 1)) (write l (level + 1) t) t.content :=
      fun t ht bs rest ignored hb hends => ih t ht (level + 1) bs rest ignored hb hends e (by omega)
    obtain ⟨cs, hcs, hread⟩ := closing_items hl level holds hitems
    rw [List.map_id'] at hcs
    rw [value, hcs, List.cons_append, bind_ok (peekToken?_eq hb (by decide) ignored)]
    simp only [Char.reduceEq, Nat.add_one_ne_zero, false_and, ↓reduceIte]
    rw [if_neg (by decide), bind_skip, bind_ok (hread rest ignored), Tree.content,
      Tree.contents_eq_map]
    rfl
  | @record n ms hs ih =>
    obtain ⟨e, rfl⟩ : ∃ e, d = e + 1 := ⟨d - 1, by omega⟩
    have hvalues : ∀ m ∈ ms, Reads (value (e + 1)) (write l (level + 1) m.2) m.2.content :=
      fun m hm bs rest ignored hb hends => ih m hm (level + 1) bs rest ignored hb hends e (by omega)
    have hbuilds := builds_entries hl hvalues []
    obtain ⟨cs, hcs, hread⟩ := closing_members hl level hbuilds
      (k := fun entries => pure entries.reverse) (fun _ => rfl)
    rw [value, hcs, List.cons_append, bind_ok (peekToken?_eq hb (by decide) ignored)]
    simp only [Char.reduceEq, Nat.add_one_ne_zero, false_and, ↓reduceIte]
    rw [if_neg (by decide), bind_skip, bind_ok (hread rest ignored), Tree.content,
      List.append_nil, List.reverse_reverse]
    rfl

end Reader

end ApiSurface.Json
