/-
What a run prints and what it saves.

The saved document is the document itself. The printed one has a line break after it, which JSON
steps over, and YAML too unless the last scalar of the document is a literal block that keeps the
line ends after it (`Model.parse_render_break`): then a model with a longer text is printed.

* `execute_prints_model` — when the printed and the saved document describe the enriched model.
-/
import ApiSurface.Proofs.CommandLine.Outcome
import ApiSurface.Proofs.Json.RoundTrip
import ApiSurface.Proofs.Yaml.Ending

namespace ApiSurface

/-- A model is read back from its document in either language. -/
theorem Model.parse_document {m : Model} (whole : m.IsWhole) (f : Format) :
    Model.parse f (m.render f) = .ok m := by
  cases f with
  | json =>
    have h := @Model.parse_blank_json m whole [] [] (by simp) (by simp)
    rwa [List.nil_append, List.append_nil, String.ofList_toList] at h
  | yaml =>
    have h := Yaml.decode_document Model.isUntagged_shape
      (Model.keeps_shape (n := 9) (by decide) m whole) (by decide)
    rw [Model.parse, Shape.parse, Model.render]
    simp only [h]
    rfl

/-- A line break after a document changes its model only in YAML, where the last text may keep
it. -/
theorem Model.parse_document_break {m : Model} (whole : m.IsWhole) (f : Format) :
    Model.parse f (m.render f ++ "\n") = .ok m ↔
      (f = .yaml → ∀ s, m.lastText? = some s → ¬ Yaml.KeepsBreaks s) := by
  cases f with
  | json =>
    have hblank : ∀ b ∈ ['\n'], Json.Reader.isBlank b = true := List.all_eq_true.mp (by decide)
    have h := @Model.parse_blank_json m whole [] ['\n'] (by simp) hblank
    rw [List.nil_append, String.ofList_append, String.ofList_toList] at h
    exact iff_of_true h (by simp)
  | yaml => simp [Model.parse_render_break whole]

namespace CommandLine

open FileTree

/-- What a run prints is read as the enriched model, unless that is YAML whose last text keeps the
line break after it. What a run saves is always read as the enriched model. -/
theorem execute_prints_model {t : FileTree} {a : EnrichArguments} {f : Format} {s : String}
    {m : Model} (h : Obtains t a f s m) (whole : m.IsWhole) :
    (a.output = none → (Model.parse f (execute treeSystem a t).1.output = .ok m.enrich ↔
      (f = .yaml → ∀ last, m.enrich.lastText? = some last → ¬ Yaml.KeepsBreaks last))) ∧
    ∀ path, a.output = some path → (execute treeSystem a t).1.result = .ok () →
      ∃ document, (execute treeSystem a t).2.readText path = .ok document ∧
        Model.parse f document = .ok m.enrich := by
  refine ⟨fun output => ?_, fun path output => ?_⟩
  · rw [execute_prints h output]
    exact Model.parse_document_break whole.enrich f
  · obtain ⟨u, hsave, hrun⟩ | ⟨e, u, -, hrun⟩ := execute_of_output h output
    · rw [hrun]
      exact fun _ => ⟨_, (save_eq_ok hsave).read, Model.parse_document whole.enrich f⟩
    · simp [hrun]

/-- A model whose last documentation line ends with two line ends. -/
def trailing : Model where
  applications := [{
    endpoints := [{
      originClass := "C", name := "m", returnType := "void", httpMethod := "GET", path := "/p",
      comments := ["a\n\n"] }] }]

theorem execute_prints_model_trailing :
    let t := fresh.put ["work", "m.yaml"] (.text (trailing.render .yaml))
    let a : EnrichArguments := { input := "m.yaml", format := some .yaml }
    trailing.IsWhole ∧ trailing.enrich = trailing ∧
      Obtains t a .yaml (trailing.render .yaml) trailing ∧
      Model.parse .yaml (execute treeSystem a t).1.output ≠ .ok trailing := by
  intro t a
  have whole : trailing.IsWhole := by simp [trailing, Model.IsWhole]
  have keeps : Yaml.KeepsBreaks "a\n\n" := by constructor <;> decide
  have read : ∀ text, (fresh.put ["work", "m.yaml"] (.text text)).readText "m.yaml" = .ok text :=
    fun _ => by rfl
  have obtained : Obtains t a .yaml (trailing.render .yaml) trailing :=
    ⟨isPresent_of_readText (read _), rfl, read _, Model.parse_document whole .yaml⟩
  exact ⟨whole, rfl, obtained, fun h =>
    ((execute_prints_model obtained whole).1 rfl).mp h rfl "a\n\n" rfl keeps⟩

end CommandLine

end ApiSurface
