/-
The languages that names and paths stand for.

A path is its parts between slashes, and a name its parts between dots: `segments` is the library's
`List.splitOn`. So the last component of a path is the last part that is neither empty nor `.`
(`FilePath.fileName?_eq_some_iff`), and its extension the part after its last dot
(`FilePath.extensionOf_eq_some_iff`). Names are brought into lower case and extensions compared
letter by letter, which comes to the same (`Format.ofExtension?_eq`): the names of a language are its
words, each letter in either case.

* `Format.ofPath_reads_extension` — the language of a path is the one that its extension names.
-/
import Mathlib
import ApiSurface.Error

namespace ApiSurface

/-! ### Parts of a text -/

theorem segments_eq_splitOn (c : Char) (cs : List Char) : segments c cs = cs.splitOn c := by
  induction cs with
  | nil => rfl
  | cons d cs ih =>
    rw [segments, ih, List.splitOn_cons_eq_if_modifyHead]
    cases h : cs.splitOn c with
    | nil => exact absurd h (List.splitOn_ne_nil c cs)
    | cons s rest => by_cases hd : d = c <;> simp [hd]

theorem segments_cons (c d : Char) (cs : List Char) : segments c (d :: cs) =
    if d = c then [] :: segments c cs else (segments c cs).modifyHead (d :: ·) := by
  rw [segments_eq_splitOn, segments_eq_splitOn, List.splitOn_cons_eq_if_modifyHead]
  simp

/-- No part of a text holds the separator. -/
theorem not_mem_of_mem_segments {c : Char} {cs s : List Char} (h : s ∈ segments c cs) : c ∉ s := by
  induction cs generalizing s with
  | nil =>
    obtain rfl := List.mem_singleton.mp h
    simp
  | cons d cs ih =>
    rw [segments_cons] at h
    -- The separator opens a part of its own, any other character joins the first part after it.
    split at h
    · obtain rfl | h := List.mem_cons.mp h
      · simp
      · exact ih h
    · rename_i hd
      obtain ⟨t, rest, hrest⟩ : ∃ t rest, segments c cs = t :: rest :=
        List.exists_cons_of_ne_nil (segments_eq_splitOn c cs ▸ List.splitOn_ne_nil c cs)
      rw [hrest] at h ih
      obtain rfl | h := List.mem_cons.mp h
      · simpa [Ne.symm hd] using ih List.mem_cons_self
      · exact ih (List.mem_cons_of_mem _ h)

/-- A text is divided into those parts without the separator that make it up. -/
theorem segments_eq_iff {c : Char} {text : String} {parts : List String} (nonempty : parts ≠ []) :
    segments c text.toList = parts.map String.toList ↔
      text = (String.singleton c).intercalate parts ∧ ∀ part ∈ parts, c ∉ part.toList := by
  rw [← String.toList_inj, String.toList_intercalate, String.toList_singleton]
  constructor
  · intro h
    refine ⟨?_, fun part hpart => not_mem_of_mem_segments (h ▸ List.mem_map_of_mem hpart)⟩
    rw [← h, segments_eq_splitOn, List.intercalate_splitOn]
  · rintro ⟨htext, hparts⟩
    rw [htext, segments_eq_splitOn, List.splitOn_intercalate c (by simpa using hparts)
      (by simpa using nonempty)]

/-- The last member of a list that a function has a value for, and the members after it. -/
theorem getLast?_filterMap_eq_some_iff {α β : Type} {f : α → Option β} {xs : List α} {b : β} :
    (xs.filterMap f).getLast? = some b ↔
      ∃ before a after, xs = before ++ a :: after ∧ f a = some b ∧ ∀ x ∈ after, f x = none := by
  rw [List.getLast?_filterMap, List.findSome?_eq_some_iff]
  constructor
  · rintro ⟨after, a, before, h, ha, hafter⟩
    refine ⟨before.reverse, a, after.reverse, ?_, ha, by simpa using hafter⟩
    simpa using congrArg List.reverse h
  · rintro ⟨before, a, after, rfl, ha, hafter⟩
    exact ⟨after.reverse, a, before.reverse, by simp, ha, by simpa using hafter⟩

/-! ### The last component of a path -/

namespace FilePath

/-- The last component of a path text, when slashes and `.` components at its end are dropped. -/
def LastComponent (path name : String) : Prop :=
  ∃ before after : List String, path = "/".intercalate (before ++ name :: after) ∧
    (∀ part ∈ before ++ name :: after, '/' ∉ part.toList) ∧
    (∀ part ∈ after, part = "" ∨ part = ".") ∧ name ≠ "" ∧ name ≠ "."

/-- The step that a part of a path describes, unless it is one to the directory itself. -/
def countedStep (part : List Char) : Option PathStep := (stepOf part).filter (· ≠ .here)

theorem countedStep_eq_none_iff {part : List Char} :
    countedStep part = none ↔ part = [] ∨ part = ['.'] := by
  rw [countedStep, stepOf]
  split_ifs <;> simp_all

theorem countedStep_eq_name_iff {part : List Char} {name : String} :
    countedStep part = some (.name name) ↔
      part = name.toList ∧ name ≠ "" ∧ name ≠ "." ∧ name ≠ ".." := by
  constructor
  · intro h
    obtain ⟨h, -⟩ := Option.filter_eq_some_iff.mp h
    rw [stepOf] at h
    split_ifs at h with hempty hhere hup <;> cases h
    simp [← String.toList_inj, hempty, hhere, hup]
  · rintro ⟨rfl, hempty, hhere, hup⟩
    have hhere : name.toList ≠ ['.'] := fun h => hhere (String.toList_inj.mp h)
    have hup : name.toList ≠ ['.', '.'] := fun h => hup (String.toList_inj.mp h)
    simp [countedStep, stepOf, hempty, hhere, hup]

/-- A name at the end counts, whatever steps to the directory itself stand around it. -/
theorem getLast?_components {p : FilePath} {name : String} :
    p.components.getLast? = some (.name name) ↔
      (p.steps.filter (· ≠ .here)).getLast? = some (.name name) := by
  rw [components]
  split
  · rename_i rest relative hsteps
    rw [hsteps, List.filter_cons_of_neg (by simp), List.getLast?_cons]
    cases (rest.filter (· ≠ .here)).getLast? <;> simp
  · rfl

theorem fileName?_eq_some_iff {path name : String} :
    (ofText path).fileName? = some name ↔ LastComponent path name ∧ name ≠ ".." := by
  have hname : (ofText path).fileName? = some name ↔
      (ofText path).components.getLast? = some (.name name) := by
    rw [fileName?]
    split <;> simp_all
  have hcounted : (ofText path).steps.filter (· ≠ .here) =
      (segments '/' path.toList).filterMap countedStep := List.filter_filterMap
  -- The name is the last part that counts, so those after it are empty or `.`.
  rw [hname, getLast?_components, hcounted, getLast?_filterMap_eq_some_iff]
  constructor
  · rintro ⟨before, part, after, h, hpart, hafter⟩
    obtain ⟨rfl, hempty, hhere, hup⟩ := countedStep_eq_name_iff.mp hpart
    have hparts : segments '/' path.toList =
        (before.map String.ofList ++ name :: after.map String.ofList).map String.toList := by
      simp [h, Function.comp_def]
    obtain ⟨hpath, hslash⟩ := (segments_eq_iff (by simp)).mp hparts
    refine ⟨⟨_, _, hpath, hslash, fun part hpart => ?_, hempty, hhere⟩, hup⟩
    obtain ⟨cs, hcs, rfl⟩ := List.mem_map.mp hpart
    obtain rfl | rfl := countedStep_eq_none_iff.mp (hafter cs hcs)
    · exact .inl rfl
    · exact .inr rfl
  · rintro ⟨⟨before, after, hpath, hslash, hafter, hempty, hhere⟩, hup⟩
    refine ⟨before.map String.toList, name.toList, after.map String.toList, ?_,
      countedStep_eq_name_iff.mpr ⟨rfl, hempty, hhere, hup⟩, fun cs hcs => ?_⟩
    · simpa using (segments_eq_iff (by simp)).mpr ⟨hpath, hslash⟩
    · obtain ⟨part, hpart, rfl⟩ := List.mem_map.mp hcs
      obtain rfl | rfl := hafter part hpart <;> exact countedStep_eq_none_iff.mpr (by decide)

theorem extensionOf_of_no_dot {name : List Char} (h : '.' ∉ name) : extensionOf name = none := by
  rw [extensionOf, segments_eq_splitOn, List.splitOn_eq_singleton h]
  rfl

theorem extensionOf_append {stem extension : List Char} (h : '.' ∉ extension) :
    extensionOf (stem ++ '.' :: extension) = if stem = [] then none else some extension := by
  have hstem : stem = [] ↔ stem.splitOn '.' = [[]] := by
    constructor
    · rintro rfl
      exact List.splitOn_nil _
    · intro h
      rw [← @List.intercalate_splitOn _ stem _ _ '.', h]
      rfl
  rw [extensionOf, segments_eq_splitOn, List.splitOn_append_cons_self, List.splitOn_eq_singleton h,
    List.reverse_append, List.reverse_singleton, List.singleton_append]
  cases hparts : (stem.splitOn '.').reverse with
  | nil => exact absurd (List.reverse_eq_nil_iff.mp hparts) (List.splitOn_ne_nil _ _)
  | cons part rest =>
    have hiff : stem = [] ↔ rest = [] ∧ part = [] := by
      rw [hstem, List.reverse_eq_cons_iff.mp hparts, List.append_eq_singleton_iff]
      simp
    by_cases hempty : rest = [] ∧ part = [] <;> simp_all

/-- The extension of a name is what follows its last dot, if something stands before that dot. -/
theorem extensionOf_eq_some_iff {name extension : List Char} :
    extensionOf name = some extension ↔
      ∃ stem, name = stem ++ '.' :: extension ∧ stem ≠ [] ∧ '.' ∉ extension := by
  constructor
  · intro h
    by_cases hdot : '.' ∈ name
    · -- The last dot is the first one of the reversed name.
      obtain ⟨after, before, hname, hafter⟩ :=
        List.eq_append_cons_of_mem (List.mem_reverse.mpr hdot)
      obtain rfl : name = before.reverse ++ '.' :: after.reverse := by
        simpa using congrArg List.reverse hname
      rw [← List.mem_reverse] at hafter
      rw [extensionOf_append hafter] at h
      split at h
      · cases h
      · rename_i hstem
        obtain rfl := Option.some.inj h
        exact ⟨_, rfl, hstem, hafter⟩
    · rw [extensionOf_of_no_dot hdot] at h
      cases h
  · rintro ⟨stem, rfl, hstem, hdot⟩
    rw [extensionOf_append hdot, if_neg hstem]

/-- Whether the last component of a path text has an extension: it ends with a dot and the
extension, and something stands before that dot. -/
def HasExtension (path extension : String) : Prop :=
  ∃ stem, LastComponent path (stem ++ "." ++ extension) ∧ stem ++ "." ++ extension ≠ ".." ∧
    stem ≠ "" ∧ '.' ∉ extension.toList

theorem extension?_eq_some_iff {path extension : String} :
    (ofText path).extension? = some extension ↔ HasExtension path extension := by
  rw [extension?, Option.bind_eq_some_iff]
  constructor
  · rintro ⟨name, hfile, hextension⟩
    obtain ⟨cs, hcs, rfl⟩ := Option.map_eq_some_iff.mp hextension
    obtain ⟨stem, hname, hstem, hdot⟩ := extensionOf_eq_some_iff.mp hcs
    obtain rfl : name = String.ofList stem ++ "." ++ String.ofList cs := by
      simp [← String.toList_inj, hname]
    obtain ⟨hlast, hup⟩ := fileName?_eq_some_iff.mp hfile
    exact ⟨_, hlast, hup, by simpa using hstem, by simpa using hdot⟩
  · rintro ⟨stem, hlast, hup, hstem, hdot⟩
    refine ⟨_, fileName?_eq_some_iff.mpr ⟨hlast, hup⟩, ?_⟩
    have hextension : extensionOf (stem ++ "." ++ extension).toList = some extension.toList :=
      extensionOf_eq_some_iff.mpr ⟨stem.toList, by simp, by simpa using hstem, hdot⟩
    rw [hextension, Option.map_some, String.ofList_toList]

end FilePath

/-! ### Words in either case -/

/-- Whether a text is a word some of whose letters may be in upper case. -/
def CaseVariant (word text : String) : Prop :=
  List.Forall₂ (fun d c => c = d ∨ c = d.toUpper) word.toList text.toList

theorem toLower_eq_iff {c d : Char} (h : d.toLower = d) :
    c.toLower = d ↔ c = d ∨ c = d.toUpper := by
  constructor
  · rintro rfl
    by_cases hc : c.isUpper
    · rw [Char.toUpper_toLower_eq_toUpper, Char.toUpper_eq_of_not_isLower]
      · exact .inr rfl
      · exact Char.not_isLower_of_isUpper hc
    · exact .inl (Char.toLower_eq_of_not_isUpper hc).symm
  · rintro (rfl | rfl)
    · exact h
    · rw [Char.toLower_toUpper_eq_toLower, h]

theorem map_toLower_eq_iff {word text : List Char} (h : word.map Char.toLower = word) :
    text.map Char.toLower = word ↔
      List.Forall₂ (fun d c => c = d ∨ c = d.toUpper) word text := by
  induction word generalizing text with
  | nil => simp
  | cons d ds ih =>
    obtain ⟨hd, hds⟩ := List.cons.inj h
    cases text with
    | nil => simp
    | cons c cs => simp [toLower_eq_iff hd, ih hds]

theorem Text.equalIgnoringCase_iff (cs ds : List Char) :
    Text.equalIgnoringCase cs ds = true ↔ cs.map Char.toLower = ds.map Char.toLower := by
  induction cs generalizing ds with
  | nil => cases ds <;> simp [equalIgnoringCase]
  | cons c cs ih => cases ds <;> simp [equalIgnoringCase, ih]

section Word

variable {word : String} (lower : word.toList.map Char.toLower = word.toList)

include lower

/-- What becomes a word in lower case is the word in either case. -/
theorem toLower_eq_word_iff (text : String) : text.toLower = word ↔ CaseVariant word text := by
  rw [← String.toList_inj, String.toLower, String.toList_map, map_toLower_eq_iff lower, CaseVariant]

theorem Text.equalIgnoringCase_word_iff (text : String) :
    Text.equalIgnoringCase text.toList word.toList = true ↔ text.toLower = word := by
  rw [equalIgnoringCase_iff, lower, ← String.toList_inj, String.toLower, String.toList_map]

end Word

/-! ### Names and extensions -/

namespace Format

/-- The names of a language. -/
def words : Format → List String
  | .json => ["json"]
  | .yaml => ["yaml", "yml"]

theorem words_lower (f : Format) :
    ∀ word ∈ f.words, word.toList.map Char.toLower = word.toList := by
  cases f <;> simp [words]

theorem ofName?_eq_some_iff {name : String} {f : Format} :
    ofName? name = some f ↔ ∃ word ∈ f.words, CaseVariant word name := by
  have hwords : name.toLower ∈ f.words ↔ ∃ word ∈ f.words, CaseVariant word name := by
    constructor
    · exact fun h => ⟨_, h, (toLower_eq_word_iff (f.words_lower _ h) name).mp rfl⟩
    · rintro ⟨word, hword, hvariant⟩
      rwa [(toLower_eq_word_iff (f.words_lower word hword) name).mpr hvariant]
  rw [← hwords, ofName?]
  cases f <;> split_ifs <;> simp_all [words]

/-- A language has the same names as extensions. -/
theorem ofExtension?_eq (extension : String) : ofExtension? extension = ofName? extension := by
  have hjson := @Text.equalIgnoringCase_word_iff "json" (by decide) extension
  have hyaml := @Text.equalIgnoringCase_word_iff "yaml" (by decide) extension
  have hyml := @Text.equalIgnoringCase_word_iff "yml" (by decide) extension
  simp only [ofExtension?, ofName?, Bool.or_eq_true, hjson, hyaml, hyml]

theorem ofName_eq_ok_iff {name : String} {f : Format} :
    ofName name = .ok f ↔ ofName? name = some f := by
  rw [ofName]
  cases ofName? name <;> simp

theorem ofPath?_eq_some_iff {path : String} {f : Format} : ofPath? path = some f ↔
    ∃ extension, FilePath.HasExtension path extension ∧ ofName extension = .ok f := by
  simp only [ofPath?, Option.bind_eq_some_iff, FilePath.extension?_eq_some_iff, ofExtension?_eq,
    ofName_eq_ok_iff]

/-- A path has the language that its extension names, and is refused as it is if that is none. The
names of a language are its words with each letter in either case, and they are all the extensions
of its files. -/
theorem ofPath_reads_extension (path : String) :
    (∀ f, ofPath path = .ok f ↔
      ∃ extension, FilePath.HasExtension path extension ∧ ofName extension = .ok f) ∧
    ((¬ ∃ extension f, FilePath.HasExtension path extension ∧ ofName extension = .ok f) →
      ofPath path = .error (.unsupportedFormat path)) ∧
    (∀ name f, ofName name = .ok f ↔ ∃ word ∈ f.words, CaseVariant word name) ∧
    ∀ extension f, ofExtension? extension = some f ↔ ofName extension = .ok f := by
  refine ⟨fun f => ?_, fun unknown => ?_, fun name f => ?_, fun extension f => ?_⟩
  · rw [← ofPath?_eq_some_iff, ofPath]
    cases ofPath? path <;> simp
  · rw [exists_comm] at unknown
    have hnone : ofPath? path = none :=
      Option.eq_none_iff_forall_ne_some.mpr fun f h => unknown ⟨f, ofPath?_eq_some_iff.mp h⟩
    rw [ofPath, hnone]
  · rw [ofName_eq_ok_iff, ofName?_eq_some_iff]
  · rw [ofExtension?_eq, ofName_eq_ok_iff]

example : ofPath "models/v1.0.YML/." = .ok .yaml := rfl

example : ofPath "models/.json" = .error (.unsupportedFormat "models/.json") := rfl

end Format

end ApiSurface
