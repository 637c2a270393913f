/-
The passes that enrich a model and that strip its data classes of their notices.

Stripping undoes what enrichment adds to the documentation of a data class, and more: a notice that
was there before goes too, wherever it stands. So enrichment after stripping finds no notice in a
data class and gives each deprecated one the notice of its marker (`Bean.renewed`), whatever either
pass did before. The notices of the properties and of every other node are out of the reach of
stripping.

* `Pass.run_strip_deprecation` — stripping and enriching renews the notices of the data classes.
-/
import ApiSurface.Proofs.Model.Confluence

namespace ApiSurface

/-! ### Notices among documentation lines -/

/-- The documentation lines without the notices among them. -/
def withoutNotices (comments : List String) : List String := comments.filter (!isNotice ·)

/-- The notice that an origin calls for, if it has a marker. -/
def noticeOf (origin : Option SourceElement) : List String :=
  ((origin.bind (·.deprecated)).map Marker.notice).toList

section Lines

variable (comments : List String) (origin : Option SourceElement)

theorem withoutNotices_append (more : List String) :
    withoutNotices (comments ++ more) = withoutNotices comments ++ withoutNotices more :=
  List.filter_append ..

@[simp] theorem withoutNotices_withoutNotices :
    withoutNotices (withoutNotices comments) = withoutNotices comments := by
  simp [withoutNotices]

@[simp] theorem filter_isNotice_withoutNotices :
    (withoutNotices comments).filter isNotice = [] := by
  simp [withoutNotices]

@[simp] theorem isDocumented_withoutNotices : isDocumented (withoutNotices comments) = false := by
  simp [isDocumented, withoutNotices]

/-- What an origin calls for is a notice. -/
theorem isNotice_of_mem_noticeOf : ∀ s ∈ noticeOf origin, isNotice s = true := by
  intro s hs
  obtain ⟨k, -, rfl⟩ := Option.map_eq_some_iff.mp (Option.mem_toList.mp hs)
  exact k.isNotice_notice

theorem filter_isNotice_noticeOf : (noticeOf origin).filter isNotice = noticeOf origin :=
  List.filter_eq_self.mpr (isNotice_of_mem_noticeOf origin)

@[simp] theorem withoutNotices_noticeOf : withoutNotices (noticeOf origin) = [] := by
  rw [withoutNotices, List.filter_eq_nil_iff]
  intro s hs
  simp [isNotice_of_mem_noticeOf origin s hs]

/-- Enrichment adds the notice that the origin calls for, unless there is one among the lines. -/
theorem addNotice_eq : addNotice comments origin =
    comments ++ if isDocumented comments then [] else noticeOf origin := by
  cases origin with
  | none => simp [addNotice, traceNotice, noticeOf]
  | some e =>
    cases hk : e.deprecated with
    | none => simp [addNotice, traceNotice, noticeOf, hk]
    | some k => cases hd : isDocumented comments <;> simp [addNotice, traceNotice, noticeOf, hk, hd]

/-- Stripping takes away what enrichment added. -/
@[simp] theorem withoutNotices_addNotice :
    withoutNotices (addNotice comments origin) = withoutNotices comments := by
  rw [addNotice_eq, withoutNotices_append]
  cases isDocumented comments with
  | true => exact List.append_nil _
  | false => simp

@[simp] theorem addNotice_addNotice :
    addNotice (addNotice comments origin) origin = addNotice comments origin :=
  congrArg Documented.comments (Documented.enriched_enriched ⟨comments, origin⟩)

/-- Lines without a notice get the one that is called for. -/
@[simp] theorem addNotice_withoutNotices :
    addNotice (withoutNotices comments) origin = withoutNotices comments ++ noticeOf origin := by
  simp [addNotice_eq]

end Lines

/-! ### Data classes -/

@[simp] theorem Property.enrich_enrich (p : Property) : p.enrich.enrich = p.enrich := by
  simp [enrich_eq, withComments]

namespace Bean

/-- The data class without the notices in its own documentation. -/
def stripped (b : Bean) : Bean := b.withComments (withoutNotices b.comments)

/-- The enriched data class whose own notices were replaced by the one that its origin calls for. -/
def renewed (b : Bean) : Bean :=
  b.enrich.withComments (withoutNotices b.comments ++ noticeOf b.origin)

theorem stripped_enrich (b : Bean) : b.stripped.enrich = b.renewed := by
  simp [stripped, renewed, enrich_eq, withComments]

theorem enrich_renewed (b : Bean) : b.enrich.renewed = b.renewed := by
  simp [renewed, enrich_eq, withComments]

theorem renewed_stripped (b : Bean) : b.stripped.renewed = b.renewed := by
  simp [stripped, renewed, enrich_eq, withComments]

end Bean

/-! ### Runs of the two passes -/

namespace Pass

variable {p : Pass} {passes : List Pass}

/-- The enriched model whose data classes have renewed notices. -/
def renew (m : Model) : Model := { m.enrich with beans := m.beans.map Bean.renewed }

theorem change_strip (m : Model) : strip.change m = { m with beans := m.beans.map Bean.stripped } :=
  rfl

theorem enrich_strip (m : Model) : (strip.change m).enrich = renew m := by
  simp [change_strip, renew, Model.enrich_eq, Function.comp_def, Bean.stripped_enrich]

/-- Neither pass makes a difference to what the two of them give afterwards. -/
theorem renew_change (h : p = deprecation ∨ p = strip) (m : Model) :
    renew (p.change m) = renew m := by
  obtain rfl | rfl := h
  · -- Enrichment of what stripping does not reach is idempotent.
    have henrich : (deprecation.change m).enrich = m.enrich := m.enrich_enrich
    rw [renew, henrich]
    simp [renew, deprecation, Model.enrich_eq, Function.comp_def, Bean.enrich_renewed]
  · simp [change_strip, renew, Model.enrich_eq, Function.comp_def, Bean.renewed_stripped]

theorem run_cons (p : Pass) (passes : List Pass) (m : Model) :
    run (p :: passes) m = run passes (p.change m) := rfl

/-- Stripping and then enriching gives one model, whichever of the two ran before and how often. -/
theorem run_append_strip_deprecation (h : ∀ p ∈ passes, p = deprecation ∨ p = strip) (m : Model) :
    run (passes ++ [strip, deprecation]) m = renew m := by
  induction passes generalizing m with
  | nil => exact enrich_strip m
  | cons p rest ih =>
    have hrest := ih fun q hq => h q (List.mem_cons_of_mem p hq)
    rw [List.cons_append, run_cons, hrest, renew_change (h p List.mem_cons_self)]

/-- Enriching before stripping and enriching makes no difference. The result is the enriched model,
but that each data class with a marker has the notice of the marker as its last line and no other,
and one without a marker has none; the lines that are no notices stay in their order. -/
theorem run_strip_deprecation (m : Model) :
    run [deprecation, strip, deprecation] m = run [strip, deprecation] m ∧
    run [strip, deprecation] m = { m.enrich with beans := m.beans.map Bean.renewed } ∧
    ∀ b : Bean, ∃ comments, b.renewed = { b.enrich with comments } ∧
      (∀ k, b.origin.bind (·.deprecated) = some k →
        comments.filter isNotice = [k.notice] ∧ comments.getLast? = some k.notice) ∧
      (b.origin.bind (·.deprecated) = none → comments.filter isNotice = []) ∧
      comments.filter (!isNotice ·) = b.comments.filter (!isNotice ·) := by
  have hstrip : run [strip, deprecation] m = renew m :=
    @run_append_strip_deprecation [] (by simp) m
  refine ⟨?_, hstrip, fun b => ⟨withoutNotices b.comments ++ noticeOf b.origin, rfl, ?_⟩⟩
  · rw [hstrip]
    exact @run_append_strip_deprecation [deprecation] (by simp) m
  · have hnotices : (withoutNotices b.comments ++ noticeOf b.origin).filter isNotice
        = noticeOf b.origin := by
      rw [List.filter_append, filter_isNotice_withoutNotices, filter_isNotice_noticeOf,
        List.nil_append]
    have hothers : withoutNotices (withoutNotices b.comments ++ noticeOf b.origin)
        = withoutNotices b.comments := by
      rw [withoutNotices_append, withoutNotices_withoutNotices, withoutNotices_noticeOf,
        List.append_nil]
    refine ⟨fun k hk => ?_, fun hnone => ?_, hothers⟩
    · have hnotice : noticeOf b.origin = [k.notice] := by simp [noticeOf, hk]
      rw [hnotices, hnotice]
      exact ⟨rfl, List.getLast?_concat⟩
    · rw [hnotices]
      simp [noticeOf, hnone]

end Pass

end ApiSurface
