/-
What a notice tells of its marker.

A notice is the tag, the version and the removal note, and the last two may be missing. The texts
between them cannot be told from the text of a version, so a version that ends like a removal note
has the notice of a shorter version with the note (`Marker.Mimics`); no other two notices are the
same (`Marker.notice_eq_iff`).

Nor is there anything that keeps a line end in a version out of the notice.

* `Marker.notice_determines` — what a marker says can be read off its notice, up to one ambiguity;
* `Model.isLined_enrich` — when enrichment keeps every entry of the documentation on one line.
-/
import ApiSurface.Proofs.CommandLine.Printed
import ApiSurface.Proofs.Json.Written
import ApiSurface.Proofs.Model.Enrichment
import ApiSurface.Proofs.Wire.Marker

namespace ApiSurface

namespace Marker

/-- What follows the version in the notice of a planned removal. -/
def removalNote : String := "; forRemoval: true"

/-! ### The text of a notice -/

section Notice

variable {m : Marker} {s : String}

theorem ne_of_version? (h : m.version? = some s) : s ≠ "" := by
  simpa using (Option.filter_eq_some_iff.mp h).2

theorem notice_of_version? (h : m.version? = some s) :
    m.notice = "@deprecated since: " ++ s ++ if m.removal then removalNote else "" := by
  have hopening (rest : String) :
      deprecatedTag ++ " " ++ ("since: " ++ rest) = "@deprecated since: " ++ rest := by
    have hword : deprecatedTag ++ " " ++ "since: " = "@deprecated since: " := by decide
    rw [← String.append_assoc, hword]
  have hnote : "; " ++ "forRemoval: true" = removalNote := by decide
  cases hremoval : m.removal with
  | true =>
    have hdetails : m.details = ["since: " ++ s, "forRemoval: true"] := by
      rw [details, h, hremoval]
      rfl
    have hjoin : String.intercalate "; " m.details
        = "since: " ++ (s ++ ("; " ++ "forRemoval: true")) := by
      simp [hdetails, String.append_assoc]
    rw [if_pos rfl, String.append_assoc, ← hopening, ← hnote, ← hjoin, notice, hdetails]
  | false =>
    have hdetails : m.details = ["since: " ++ s] := by
      rw [details, h, hremoval]
      rfl
    have hjoin : String.intercalate "; " m.details = "since: " ++ s := by simp [hdetails]
    rw [if_neg Bool.false_ne_true, String.append_empty, ← hopening, ← hjoin, notice, hdetails]

theorem notice_of_no_version (h : m.version? = none) :
    m.notice = if m.removal then "@deprecated forRemoval: true" else "@deprecated" := by
  rw [notice, details, h]
  cases m.removal with
  | true => decide
  | false => decide

end Notice

/-! ### Markers with one notice -/

/-- Whether the version of a marker ends with the removal note that another one has by its flag. -/
def Mimics (a b : Marker) : Prop :=
  ∃ s ≠ "", a.version? = some (s ++ removalNote) ∧ a.removal = false ∧
    b.version? = some s ∧ b.removal = true

theorem Mimics.notice_eq {a b : Marker} (h : a.Mimics b) : a.notice = b.notice := by
  obtain ⟨s, -, hversion, hremoval, hversion', hremoval'⟩ := h
  rw [notice_of_version? hversion, notice_of_version? hversion', hremoval, hremoval',
    if_neg Bool.false_ne_true, if_pos rfl, String.append_empty, String.append_assoc]

theorem notice_congr {a b : Marker} (hversion : a.version? = b.version?)
    (hremoval : a.removal = b.removal) : a.notice = b.notice := by
  rw [notice, notice, details, details, hversion, hremoval]

/-- A notice with a version starts unlike one without. -/
theorem notice_ne_of_version? {a b : Marker} {s : String} (ha : a.version? = none)
    (hb : b.version? = some s) : a.notice ≠ b.notice := by
  have hopening : "@deprecated since: ".toList <+: b.notice.toList := by
    rw [notice_of_version? hb, String.append_assoc, String.toList_append]
    exact List.prefix_append _ _
  intro h
  rw [← h, notice_of_no_version ha] at hopening
  cases hr : a.removal <;>
  · rw [hr] at hopening
    exact absurd hopening (by decide)

/-- Markers have one notice if they say the same, and otherwise only if the version of one ends with
the removal note of the other. -/
theorem notice_eq_iff (a b : Marker) :
    a.notice = b.notice ↔
      a.version? = b.version? ∧ a.removal = b.removal ∨ a.Mimics b ∨ b.Mimics a := by
  refine ⟨fun h => ?_, ?_⟩
  · cases ha : a.version? with
    | none =>
      cases hb : b.version? with
      | none =>
        rw [notice_of_no_version ha, notice_of_no_version hb] at h
        refine .inl ⟨rfl, ?_⟩
        cases hr : a.removal <;> cases hr' : b.removal <;> rw [hr, hr'] at h <;>
          first | rfl | exact absurd h (by decide)
      | some t => exact absurd h (notice_ne_of_version? ha hb)
    | some s =>
      cases hb : b.version? with
      | none => exact absurd h.symm (notice_ne_of_version? hb ha)
      | some t =>
        rw [notice_of_version? ha, notice_of_version? hb, String.append_assoc, String.append_assoc,
          String.append_right_inj] at h
        cases hr : a.removal <;> cases hr' : b.removal <;> rw [hr, hr'] at h
        · exact .inl ⟨by simpa using h, rfl⟩
        · -- The version of the first marker goes on with the note of the second.
          have hs : s = t ++ removalNote := by simpa using h
          exact .inr (.inl ⟨t, ne_of_version? hb, by rw [ha, hs], hr, hb, hr'⟩)
        · have ht : t = s ++ removalNote := by simpa using h.symm
          exact .inr (.inr ⟨s, ne_of_version? ha, by rw [hb, ht], hr', ha, hr⟩)
        · exact .inl ⟨by simpa using h, rfl⟩
  · rintro (⟨hversion, hremoval⟩ | h | h)
    · exact notice_congr hversion hremoval
    · exact h.notice_eq
    · exact h.notice_eq.symm

theorem version?_eq_iff (a b : Marker) :
    a.version? = b.version? ↔ a.since.getD "" = b.since.getD "" := by
  have hversion (m : Marker) :
      m.version? = if m.since.getD "" = "" then none else some (m.since.getD "") := by
    rw [version?]
    cases m.since with
    | none => rfl
    | some s => by_cases hs : s = "" <;> simp [hs]
  rw [hversion, hversion]
  by_cases ha : a.since.getD "" = "" <;> by_cases hb : b.since.getD "" = "" <;>
    simp [ha, hb, eq_comm]

/-- The notice of a marker determines what the marker says, unless a version ends with the removal
note. A missing version is as good as an empty one, and a missing flag as good as a lowered one. -/
theorem notice_determines (a b : Marker) :
    (a.notice = b.notice ↔
      a.version? = b.version? ∧ a.removal = b.removal ∨ a.Mimics b ∨ b.Mimics a) ∧
    (a.version? = b.version? ∧ a.removal = b.removal ↔
      a.since.getD "" = b.since.getD "" ∧ a.forRemoval.getD false = b.forRemoval.getD false) :=
  ⟨notice_eq_iff a b, and_congr_left fun _ => version?_eq_iff a b⟩

example : (⟨some "1; forRemoval: true", none⟩ : Marker).notice
    = (⟨some "1", some true⟩ : Marker).notice := by decide

end Marker

/-! ### Documentation on single lines -/

/-- Whether a text has no line end in it. -/
def IsLine (s : String) : Prop := '\n' ∉ s.toList ∧ '\r' ∉ s.toList

instance (s : String) : Decidable (IsLine s) :=
  inferInstanceAs (Decidable ('\n' ∉ s.toList ∧ '\r' ∉ s.toList))

theorem isLine_append (s t : String) : IsLine (s ++ t) ↔ IsLine s ∧ IsLine t := by
  simp only [IsLine, String.toList_append, List.mem_append, not_or]
  exact and_and_and_comm

namespace Json

theorem IsDigits.isLine {cs : List Char} (h : IsDigits cs) : '\n' ∉ cs ∧ '\r' ∉ cs :=
  ⟨fun hc => absurd (h.digits _ hc) (by decide), fun hc => absurd (h.digits _ hc) (by decide)⟩

theorem IsMagnitude.isLine {cs : List Char} (h : IsMagnitude cs) : '\n' ∉ cs ∧ '\r' ∉ cs := by
  cases h with
  | @parts whole fraction exponent hw hf he =>
    have hwhole : '\n' ∉ whole ∧ '\r' ∉ whole := by
      cases hw with
      | zero => decide
      | digits h => exact h.isLine
    have hfraction : '\n' ∉ fraction ∧ '\r' ∉ fraction := by
      cases hf with
      | none => decide
      | digits h => simpa using h.isLine
    have hexponent : '\n' ∉ exponent ∧ '\r' ∉ exponent := by
      cases he with
      | none => decide
      | digits letter sign h =>
        obtain rfl | rfl := letter <;> obtain rfl | rfl | rfl := sign <;> simpa using h.isLine
    simp [hwhole, hfraction, hexponent]

theorem IsNumber.isLine {cs : List Char} (h : IsNumber cs) : '\n' ∉ cs ∧ '\r' ∉ cs := by
  cases h with
  | positive h => exact h.isLine
  | negative h => simpa using h.isLine

end Json

theorem Number.isLine_toText (n : Number) : IsLine n.toText := by
  rw [IsLine, toText, String.toList_ofList]
  exact (Json.isNumber_write n).isLine

namespace Marker

/-- A notice is one line if the version is. -/
theorem isLine_notice_iff (m : Marker) :
    IsLine m.notice ↔ ∀ s, m.version? = some s → IsLine s := by
  cases h : m.version? with
  | none =>
    rw [notice_of_no_version h]
    cases m.removal <;>
    · simp only [reduceCtorEq, false_implies, implies_true, iff_true]
      decide
  | some s =>
    have hopening : IsLine "@deprecated since: " := by decide
    have hnote : IsLine (if m.removal then removalNote else "") := by
      cases m.removal <;> decide
    rw [notice_of_version? h, isLine_append, isLine_append]
    simp [hopening, hnote]

/-- Only a version that was written as a text can have a line end in it. -/
theorem isLine_sinceIn {c : Content} {s : String} (h : sinceIn c = some s) :
    c = .text s ∨ IsLine s := by
  cases c with
  | text t => exact .inl (congrArg Content.text (Option.some.inj h))
  | number n => exact .inr (Option.some.inj h ▸ n.isLine_toText)
  | _ => cases h

end Marker

/-- Whether every entry of the documentation of a node is one line. -/
def Documented.IsLined (n : Documented) : Prop := ∀ c ∈ n.comments, IsLine c

/-- A node that is due a notice stays on single lines if the version of its marker is one line. -/
theorem Documented.isLined_enriched_iff (n : Documented) : n.enriched.IsLined ↔
    n.IsLined ∧ ∀ k, n.Due k → ∀ s, k.version? = some s → IsLine s := by
  by_cases hdue : ∃ k, n.Due k
  · obtain ⟨k, hk⟩ := hdue
    have hunique : (∀ j, n.Due j → ∀ s, j.version? = some s → IsLine s) ↔ IsLine k.notice := by
      rw [k.isLine_notice_iff]
      refine ⟨fun h => h k hk, fun h j hj => ?_⟩
      obtain rfl : j = k := Option.some.inj (hj.1.symm.trans hk.1)
      exact h
    rw [hunique, IsLined, comments_enriched_of_due hk, List.forall_mem_append,
      List.forall_mem_singleton, IsLined]
  · have hnone : ∀ k, ¬ n.Due k := fun k hk => hdue ⟨k, hk⟩
    rw [IsLined, comments_enriched_of_not_due hnone, IsLined]
    exact ⟨fun h => ⟨h, fun k hk => absurd hk (hnone k)⟩, fun h => h.1⟩

namespace Model

/-- Whether every entry of the documentation of a model is one line. -/
def IsLined (m : Model) : Prop := ∀ a n, m.node? a = some n → n.IsLined

/-- Enrichment keeps every entry on one line if and only if each node that is due a notice has a
version that is one line, or none. A version that was written as a number is one line. -/
theorem isLined_enrich (m : Model) :
    (m.enrich.IsLined ↔ m.IsLined ∧ ∀ a n k, m.node? a = some n → n.Due k →
      ∀ s, k.version? = some s → IsLine s) ∧
    ∀ c s, Marker.sinceIn c = some s → c = .text s ∨ IsLine s := by
  refine ⟨?_, fun c s => Marker.isLine_sinceIn⟩
  have hnodes : m.enrich.IsLined ↔ ∀ a n, m.node? a = some n → n.enriched.IsLined := by
    simp only [IsLined, node?_enrich, Option.map_eq_some_iff]
    refine ⟨fun h a n hn => h a _ ⟨n, hn, rfl⟩, fun h a => ?_⟩
    rintro _ ⟨n, hn, rfl⟩
    exact h a n hn
  rw [hnodes]
  simp only [Documented.isLined_enriched_iff]
  exact ⟨fun h => ⟨fun a n hn => (h a n hn).1, fun a n k hn => (h a n hn).2 k⟩,
    fun h a n hn => ⟨h.1 a n hn, fun k => h.2 a n k hn⟩⟩

/-- A model of one data class, which is deprecated since a version of two lines. -/
def twoLines : Model where
  beans := [{ name := "B", origin := some ⟨"b", some ⟨some "1\n2", none⟩⟩ }]

/-- Such a model is read from documents of both languages, and its notice has two lines. -/
theorem isLined_enrich_twoLines :
    (∀ f, ∃ text, Model.parse f text = .ok twoLines) ∧ twoLines.IsLined ∧
      ¬ twoLines.enrich.IsLined := by
  refine ⟨fun f => ⟨_, parse_document (by simp [IsWhole, twoLines]) f⟩, fun a n hn => ?_, fun h => ?_⟩
  · -- No node of the model has any documentation.
    have hcomments : n.comments = [] := by
      cases a with
      | bean i =>
        cases i <;> simp [twoLines, node?] at hn
        rw [← hn]
      | property i j => cases i <;> simp [twoLines, node?] at hn
      | _ => simp [twoLines, node?] at hn
    rw [Documented.IsLined, hcomments]
    exact List.forall_mem_nil _
  · have hversion := ((isLined_enrich twoLines).1.mp h).2 (.bean 0) _ ⟨some "1\n2", none⟩ rfl
      ⟨rfl, by simp⟩ "1\n2" (by decide)
    exact absurd hversion (by decide)

end Model

end ApiSurface
