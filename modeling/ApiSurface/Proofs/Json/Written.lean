/-
What is written is spelled.

The text of every tree spells a value (`spells_write`), with doubles among its numbers too:
each way in which a decimal is laid out is a number of the grammar (`isMagnitude_of_lays`).
-/
import ApiSurface.Proofs.Decimal.Layout
import ApiSurface.Proofs.Json.Stepping

namespace ApiSurface.Json

/-! ### Numbers -/

theorem isDigits_toDigits (n : Nat) : IsDigits (Nat.toDigits 10 n) := by
  obtain ⟨c, cs, hcs, -⟩ := Text.exists_toDigits n
  exact ⟨by simp [hcs], fun d => Text.isDigit_of_mem_toDigits⟩

theorem isWhole_toDigits (n : Nat) : IsWhole (Nat.toDigits 10 n) := by
  obtain ⟨c, cs, hcs, -, hzero⟩ := Text.exists_toDigits n
  have hdigits := isDigits_toDigits n
  by_cases hc : c = '0'
  · obtain ⟨-, rfl⟩ := hzero hc
    rw [hcs, hc]
    exact .zero
  · rw [hcs] at hdigits ⊢
    exact .digits hdigits hc

theorem isNumber_writeInt (i : WordInt) : IsNumber i.write := by
  have hmagnitude := IsMagnitude.parts (isWhole_toDigits i.val.natAbs) .none .none
  rw [List.append_nil, List.append_nil] at hmagnitude
  rw [WordInt.write]
  split
  · exact .negative hmagnitude
  · exact .positive hmagnitude

theorem isExponent_exponentText (e : Int) : IsExponent (Notation.json.exponentText e) := by
  rw [Notation.exponentText]
  split
  · exact @IsExponent.digits 'e' ['-'] _ (.inl rfl) (.inr (.inr rfl)) (isDigits_toDigits _)
  · exact @IsExponent.digits 'e' ['+'] _ (.inl rfl) (.inr (.inl rfl)) (isDigits_toDigits _)

/-- A decimal as it is laid out is a number. -/
theorem isMagnitude_of_lays {d : Digits} {text : List Char} (h : Notation.json.Lays d text) :
    IsMagnitude text := by
  cases h with
  | @point w fraction nonempty isDigit trimmed written =>
    have h := IsMagnitude.parts (isWhole_toDigits w) (.digits ⟨nonempty, isDigit⟩) .none
    rwa [List.append_nil] at h
  | @exponent c cs first isDigit place written =>
    obtain ⟨hc, hcs⟩ := List.forall_mem_cons.mp isDigit
    have hwhole : IsWhole [c] := .digits ⟨by simp, by simpa using hc⟩ first
    have he := isExponent_exponentText (d.point - 1)
    cases cs with
    | nil => exact .parts hwhole .none he
    | cons => exact .parts hwhole (.digits ⟨by simp, hcs⟩) he

theorem isNumber_write (n : Number) : IsNumber (n.write Notation.json) := by
  cases n with
  | integer i => exact isNumber_writeInt i
  | double x =>
    have hbody := isMagnitude_of_lays (@Notation.lays_magnitude .json rfl x.rank)
    show IsNumber (Notation.json.write x)
    rw [Notation.write_eq]
    split
    · exact .negative hbody
    · exact .positive hbody

/-! ### Strings -/

theorem IsBody.append {ds es : List Char} (h : IsBody ds) (h' : IsBody es) : IsBody (ds ++ es) := by
  induction h with
  | nil => exact h'
  | char quote backslash control h ih => exact .char quote backslash control ih
  | short hc h ih => exact .short hc ih
  | unit hex h ih => exact .unit hex ih

/-- An escape by code point has four digits. -/
theorem isBody_hexDigits {n : Nat} (h : n < 65536) {cs : List Char} (hcs : IsBody cs) :
    IsBody ('\\' :: 'u' :: (Text.hexDigits 4 n ++ cs)) := by
  have hn := Text.number?_hexDigits 4 n
  have hl : (Text.hexDigits 4 n).length = 4 :=
    Text.length_hexDigits ((Nat.length_toDigits_le_iff (by decide) (by decide)).mpr h)
  obtain ⟨a, b, c, d, hd⟩ := List.length_eq_four.mp hl
  rw [hd] at hn ⊢
  exact .unit (by rw [hn]; rfl) hcs

theorem isBody_escaped (c : Char) : IsBody (escaped c) := by
  unfold escaped
  repeat' split
  · exact .short rfl .nil
  · exact .short rfl .nil
  · exact .short rfl .nil
  · exact .short rfl .nil
  · exact .short rfl .nil
  · exact .short rfl .nil
  · exact .short rfl .nil
  · have h := isBody_hexDigits (n := c.toNat) (by omega) .nil
    rwa [List.append_nil] at h
  · exact .char ‹_› ‹_› ‹_› .nil

theorem isBody_flatMap_escaped (cs : List Char) : IsBody (cs.flatMap escaped) := by
  induction cs with
  | nil => exact .nil
  | cons c cs ih => exact (isBody_escaped c).append ih

/-! ### Trees -/

theorem spells_quoted (s : String) : (Syntax.text (s.toList.flatMap escaped)).Spells (quoted s) :=
  ⟨rfl, isBody_flatMap_escaped _⟩

/-- The inside of a quoted text stands for the text. -/
theorem textOf?_escaped (s : String) : textOf? (s.toList.flatMap escaped) = some s := by
  have hgives := Reader.gives_string (isBody_flatMap_escaped s.toList) [] 0
  have hread := Reader.string_quoted s [] 0
  have hquoted : quoted s ++ [] = '"' :: (s.toList.flatMap escaped ++ '"' :: []) := by simp [quoted]
  rw [← hquoted, hread] at hgives
  exact hgives.eq (.ok s 0)

end ApiSurface.Json

/-! ### Trees -/

namespace ApiSurface

open Json

mutual

/-- The value that is written for a tree. -/
def Tree.spelled : Tree → Syntax
  | .null => .null
  | .bool b => .bool b
  | .number n => .number (n.write Notation.json)
  | .text s => .text (s.toList.flatMap escaped)
  | .list items => .list (Tree.spelledItems items)
  | .record members => .object (Tree.spelledMembers members)
  | .tagged tag value => .object [(tag.toList.flatMap escaped, value.spelled)]

/-- The values that are written for the items of a list. -/
def Tree.spelledItems : List Tree → List Syntax
  | [] => []
  | t :: ts => t.spelled :: Tree.spelledItems ts

/-- The members that are written for those of a record. -/
def Tree.spelledMembers : List (String × Tree) → List (List Char × Syntax)
  | [] => []
  | (key, t) :: ms => (key.toList.flatMap escaped, t.spelled) :: Tree.spelledMembers ms

end

theorem Tree.spelledItems_eq_map (ts : List Tree) : spelledItems ts = ts.map spelled := by
  induction ts with
  | nil => rfl
  | cons t ts ih => rw [spelledItems, ih, List.map_cons]

theorem Tree.spelledMembers_eq_map (ms : List (String × Tree)) :
    spelledMembers ms = ms.map fun m => (m.1.toList.flatMap escaped, m.2.spelled) := by
  induction ms with
  | nil => rfl
  | cons m ms ih => rw [spelledMembers, ih, List.map_cons]

end ApiSurface

namespace ApiSurface.Json

section Trees

open Reader

variable {l : Layout} (hl : l.IsBlank)

include hl

theorem separates_newLine (level : Nat) (first : Bool) :
    Separates first ((if first then [] else [',']) ++ l.newLine level) := by
  cases first with
  | true => exact .first (hl.newLine level)
  | false => exact .comma blanks_nil (hl.newLine level)

/-- A list is spelled if its items are. -/
theorem spellsItems_itemsText {level : Nat} {trees : List Tree}
    (h : ∀ t ∈ trees, t.spelled.Spells (write l level t)) {bs : List Char} (hb : Blanks bs)
    (first : Bool) :
    SpellsItems first (Tree.spelledItems trees) (itemsText l level first trees ++ bs) := by
  induction trees generalizing first with
  | nil => exact hb
  | cons t trees ih =>
    have hts := ih (fun u hu => h u (List.mem_cons_of_mem _ hu)) false
    exact ⟨_, _, _, by simp [itemsText], separates_newLine hl level first, h t List.mem_cons_self,
      hts⟩

/-- An object is spelled if the values of its members are. -/
theorem spellsMembers_membersText {level : Nat} {members : List (String × Tree)}
    (h : ∀ m ∈ members, m.2.spelled.Spells (write l level m.2)) {bs : List Char}
    (hb : Blanks bs) (first : Bool) :
    SpellsMembers first (Tree.spelledMembers members)
      (membersText l level first members ++ bs) := by
  induction members generalizing first with
  | nil => exact hb
  | cons m members ih =>
    obtain ⟨key, t⟩ := m
    have hms := ih (fun u hu => h u (List.mem_cons_of_mem _ hu)) false
    obtain ⟨colon, hcolon, hblank⟩ := hl.colon
    exact ⟨_, [], colon, _, _, by simp [membersText, valueText, quoted, hcolon],
      separates_newLine hl level first, isBody_flatMap_escaped _, blanks_nil, hblank,
      h (key, t) List.mem_cons_self, hms⟩

end Trees

mutual

/-- The text of a tree spells its value. -/
theorem spells_write {l : Layout} (hl : l.IsBlank) (level : Nat) :
    (t : Tree) → t.spelled.Spells (write l level t)
  | .null => rfl
  | .bool true => rfl
  | .bool false => rfl
  | .number n => ⟨rfl, isNumber_write n⟩
  | .text s => spells_quoted s
  | .list items => by
    obtain ⟨bs, htext, hb⟩ := Reader.write_list hl level items
    have hts := spellsItems_itemsText hl (spells_items hl (level + 1) items) hb true
    rw [htext, Reader.writeItems_eq]
    exact ⟨_, rfl, hts⟩
  | .record members => by
    obtain ⟨bs, htext, hb⟩ := Reader.write_record hl level members
    have hms := spellsMembers_membersText hl (spells_members hl (level + 1) members) hb true
    rw [htext, Reader.writeMembers_eq]
    exact ⟨_, rfl, hms⟩
  | .tagged tag value => by
    have hvalue : ∀ m ∈ [(tag, value)], m.2.spelled.Spells (write l (level + 1) m.2) :=
      List.forall_mem_singleton.mpr (spells_write hl (level + 1) value)
    have hms := spellsMembers_membersText hl hvalue (hl.newLine level) true
    refine ⟨_, ?_, hms⟩
    simp [write, Reader.membersText, Reader.valueText]

theorem spells_items {l : Layout} (hl : l.IsBlank) (level : Nat) :
    (ts : List Tree) → ∀ t ∈ ts, t.spelled.Spells (write l level t)
  | [] => by simp
  | t :: ts => List.forall_mem_cons.mpr ⟨spells_write hl level t, spells_items hl level ts⟩

theorem spells_members {l : Layout} (hl : l.IsBlank) (level : Nat) :
    (ms : List (String × Tree)) → ∀ m ∈ ms, m.2.spelled.Spells (write l level m.2)
  | [] => by simp
  | (key, t) :: ms => List.forall_mem_cons.mpr
    ⟨spells_write hl level t, spells_members hl level ms⟩

end

/-- What is written for a tree is a document of its value. -/
theorem document_write {l : Layout} (hl : l.IsBlank) (t : Tree) :
    t.spelled.Document (String.ofList (write l 0 t)) :=
  ⟨[], write l 0 t, [], by simp, blanks_nil, spells_write hl 0 t, blanks_nil⟩

end ApiSurface.Json
