/-
The outcomes of a run.

What a run does is decided by four checks of its input, in order: that something is there, that its
language is known, that it can be read as text, and that the text describes a model. `Refuses` says
which check fails first and with which error, `Obtains` that all succeed; one of them holds of every
run (`refuses_or_obtains`). Nothing is written before the last check, so a refusal leaves the files
as they are (`execute_of_refuses`). After it only the save can fail (`execute_of_obtains`).

* `execute_refuses_or_writes` — the error, the output and the files after any run.
-/
import ApiSurface.CommandLine.Run
import ApiSurface.Proofs.FileTree.Save

namespace ApiSurface.CommandLine

open FileTree

/-- How a run ends before it writes anything: the first of the checks that fails, with its error. -/
inductive Refuses (t : FileTree) (a : EnrichArguments) : Error → Prop
  | absent (absent : t.isPresent a.input = false) :
      Refuses t a (.general ("Model file not found: " ++ Text.quoted a.input))
  | unsupported (present : t.isPresent a.input = true) (implicit : a.format = none)
      (unsupported : Format.ofPath? a.input = none) : Refuses t a (.unsupportedFormat a.input)
  | unreadable {f : Format} {e : IoError} (present : t.isPresent a.input = true)
      (format : a.chosenFormat = .ok f) (read : t.readText a.input = .error e) :
      Refuses t a (.io e)
  | malformedJson {s : String} {e : Json.Error} (present : t.isPresent a.input = true)
      (format : a.chosenFormat = .ok .json) (read : t.readText a.input = .ok s)
      (parse : Model.parse .json s = .error (.json e)) : Refuses t a (.json e)
  | malformedYaml {s : String} {e : Yaml.Error} (present : t.isPresent a.input = true)
      (format : a.chosenFormat = .ok .yaml) (read : t.readText a.input = .ok s)
      (parse : Model.parse .yaml s = .error (.yaml e)) : Refuses t a (.yaml e)

/-- Whether a run obtains a model from its input, a text in a certain language. -/
structure Obtains (t : FileTree) (a : EnrichArguments) (f : Format) (s : String) (m : Model) :
    Prop where
  present : t.isPresent a.input = true
  format : a.chosenFormat = .ok f
  read : t.readText a.input = .ok s
  parse : Model.parse f s = .ok m

/-! ### The checks -/

theorem chosenFormat_eq_error {a : EnrichArguments} {e : Error} :
    a.chosenFormat = .error e ↔
      e = .unsupportedFormat a.input ∧ a.format = none ∧ Format.ofPath? a.input = none := by
  rw [EnrichArguments.chosenFormat]
  cases a.format with
  | some g => simp
  | none => cases h : Format.ofPath? a.input <;> simp [Format.ofPath, h, eq_comm]

/-- A text is rejected with an error of its language. -/
theorem exists_of_parse_eq_error {f : Format} {s : String} {e : Error}
    (h : Model.parse f s = .error e) :
    (∃ j, f = .json ∧ e = .json j) ∨ ∃ y, f = .yaml ∧ e = .yaml y := by
  cases f with
  | json =>
    rw [Model.parse, Shape.parse] at h
    cases hd : (Json.decode Model.shape s).result with
    | error j =>
      rw [hd] at h
      exact .inl ⟨j, rfl, (Except.error.inj h).symm⟩
    | ok m =>
      rw [hd] at h
      cases h
  | yaml =>
    rw [Model.parse, Shape.parse] at h
    cases hd : (Yaml.decode Model.shape s).result with
    | error y =>
      rw [hd] at h
      exact .inr ⟨y, rfl, (Except.error.inj h).symm⟩
    | ok m =>
      rw [hd] at h
      cases h

/-- Some check fails, or a model is obtained. -/
theorem refuses_or_obtains (t : FileTree) (a : EnrichArguments) :
    (∃ e, Refuses t a e) ∨ ∃ f s m, Obtains t a f s m := by
  cases present : t.isPresent a.input with
  | false => exact .inl ⟨_, .absent present⟩
  | true =>
    cases format : a.chosenFormat with
    | error e =>
      obtain ⟨-, implicit, unsupported⟩ := chosenFormat_eq_error.mp format
      exact .inl ⟨_, .unsupported present implicit unsupported⟩
    | ok f =>
      cases read : t.readText a.input with
      | error e => exact .inl ⟨_, .unreadable present format read⟩
      | ok s =>
        cases parse : Model.parse f s with
        | ok m => exact .inr ⟨f, s, m, present, format, read, parse⟩
        | error e =>
          obtain ⟨j, rfl, rfl⟩ | ⟨y, rfl, rfl⟩ := exists_of_parse_eq_error parse
          · exact .inl ⟨_, .malformedJson present format read parse⟩
          · exact .inl ⟨_, .malformedYaml present format read parse⟩

/-! ### The run -/

theorem bind_apply {α β : Type} (x : StateM FileTree α) (f : α → StateM FileTree β) (t : FileTree) :
    (x >>= f) t = f (x t).1 (x t).2 := rfl

theorem pure_apply {α : Type} (x : α) (t : FileTree) : (pure x : StateM FileTree α) t = (x, t) :=
  rfl

section Refused

variable {d : Device} {t : FileTree} {a : EnrichArguments}

theorem execute_of_absent (h : t.isPresent a.input = false) :
    execute (deviceSystem d) a t =
      ({ result := .error (.general ("Model file not found: " ++ Text.quoted a.input)) }, t) := by
  simp [execute, deviceSystem, bind_apply, pure_apply, h]

theorem execute_of_unknown {e : Error} (present : t.isPresent a.input = true)
    (format : a.chosenFormat = .error e) :
    execute (deviceSystem d) a t = ({ result := .error e }, t) := by
  simp [execute, deviceSystem, bind_apply, pure_apply, present, format]

theorem execute_of_unreadable {f : Format} {e : IoError} (present : t.isPresent a.input = true)
    (format : a.chosenFormat = .ok f) (read : t.readText a.input = .error e) :
    execute (deviceSystem d) a t = ({ result := .error (.io e) }, t) := by
  simp [execute, deviceSystem, bind_apply, pure_apply, present, format, read]

theorem execute_of_malformed {f : Format} {s : String} {e : Error}
    (present : t.isPresent a.input = true) (format : a.chosenFormat = .ok f)
    (read : t.readText a.input = .ok s) (parse : Model.parse f s = .error e) :
    ∃ log, execute (deviceSystem d) a t = ({ log, result := .error e }, t) := by
  rw [Model.parse] at parse
  refine ⟨List.replicate (Model.shape.parse f s).ignored .ignoredDetail, ?_⟩
  simp [execute, deviceSystem, bind_apply, pure_apply, present, format, read, parse]

/-- A run that is refused prints nothing and leaves the files as they are. -/
theorem execute_of_refuses {e : Error} (h : Refuses t a e) :
    ∃ log, execute (deviceSystem d) a t = ({ log, result := .error e }, t) := by
  cases h with
  | absent absent => exact ⟨[], execute_of_absent absent⟩
  | unsupported present implicit unsupported =>
    exact ⟨[], execute_of_unknown present
      (chosenFormat_eq_error.mpr ⟨rfl, implicit, unsupported⟩)⟩
  | unreadable present format read => exact ⟨[], execute_of_unreadable present format read⟩
  | malformedJson present format read parse => exact execute_of_malformed present format read parse
  | malformedYaml present format read parse => exact execute_of_malformed present format read parse

end Refused

/-- The log of a run that reads a text as a model, up to the write. -/
def readingLog (f : Format) (s : String) (m : Model) : List LogEntry :=
  List.replicate (Model.shape.parse f s).ignored .ignoredDetail ++ enrichmentLog m m.traceEnrich

section Obtained

variable {d : Device} {t u : FileTree} {a : EnrichArguments} {f : Format} {s : String} {m : Model}

/-- With a model in hand, only the output is left to choose, and whether the save succeeds. -/
theorem execute_of_obtains (h : Obtains t a f s m) :
    execute (deviceSystem d) a t =
      match a.output with
      | none => ({ log := readingLog f s m, output := m.enrich.render f ++ "\n" }, t)
      | some path =>
        match t.save d path (m.enrich.render f) with
        | (.ok (), u) => ({ log := readingLog f s m ++ [.written path] }, u)
        | (.error e, u) => ({ log := readingLog f s m, result := .error (.io e) }, u) := by
  obtain ⟨present, format, read, parse⟩ := h
  rw [Model.parse] at parse
  cases output : a.output with
  | none =>
    simp [execute, deviceSystem, bind_apply, pure_apply, present, format, read, parse, output,
      readingLog, Model.enrich]
  | some path =>
    rw [Model.enrich]
    cases save : t.save d path (m.traceEnrich.value.render f) with
    | mk result u =>
      cases result <;>
        simp [execute, deviceSystem, bind_apply, pure_apply, present, format, read, parse, output,
          readingLog, save]

/-- Without an output file the enriched model is printed, and a line break. -/
theorem execute_prints (h : Obtains t a f s m) (output : a.output = none) :
    execute (deviceSystem d) a t =
      ({ log := readingLog f s m, output := m.enrich.render f ++ "\n" }, t) := by
  rw [execute_of_obtains h, output]

theorem execute_saves {path : String} (h : Obtains t a f s m) (output : a.output = some path)
    (save : t.save d path (m.enrich.render f) = (.ok (), u)) :
    execute (deviceSystem d) a t = ({ log := readingLog f s m ++ [.written path] }, u) := by
  simp only [execute_of_obtains h, output, save]

/-- With an output file the document is saved there, or the save fails. -/
theorem execute_of_output {path : String} (h : Obtains t a f s m) (output : a.output = some path) :
    (∃ u, t.save d path (m.enrich.render f) = (.ok (), u) ∧
      execute (deviceSystem d) a t = ({ log := readingLog f s m ++ [.written path] }, u)) ∨
    ∃ e u, t.save d path (m.enrich.render f) = (.error e, u) ∧
      execute (deviceSystem d) a t =
        ({ log := readingLog f s m, result := .error (.io e) }, u) := by
  cases hsave : t.save d path (m.enrich.render f) with
  | mk result u =>
    cases result with
    | ok _ => exact .inl ⟨u, rfl, execute_saves h output hsave⟩
    | error e => exact .inr ⟨e, u, rfl, by simp only [execute_of_obtains h, output, hsave]⟩

end Obtained

/-- A run is refused or obtains a model, whatever can go wrong with the device. A refused run ends
with its error, prints nothing and leaves the files as they are. A run with a model prints the
document of the enriched model and a line break, or saves the document. If the save fails, every
file is still there with what it held, but for one: the file to be written holds only some first
bytes of the document if the device failed after the file was opened. -/
theorem execute_refuses_or_writes (d : Device) (t : FileTree) (a : EnrichArguments) :
    ((∃ e, Refuses t a e) ∨ ∃ f s m, Obtains t a f s m) ∧
    (∀ e, Refuses t a e →
      (execute (deviceSystem d) a t).1.result = .error e ∧
        (execute (deviceSystem d) a t).1.output = "" ∧
        (execute (deviceSystem d) a t).2 = t) ∧
    ∀ f s m, Obtains t a f s m →
      (a.output = none →
        (execute (deviceSystem d) a t).1.result = .ok () ∧
          (execute (deviceSystem d) a t).1.output = m.enrich.render f ++ "\n" ∧
          (execute (deviceSystem d) a t).2 = t) ∧
      ∀ path, a.output = some path →
        (execute (deviceSystem d) a t).1.output = "" ∧
          ((execute (deviceSystem d) a t).1.result = .ok () ∧
              Saved t (execute (deviceSystem d) a t).2 path (m.enrich.render f) ∨
            ∃ e, (execute (deviceSystem d) a t).1.result = .error (.io e) ∧
              Interrupted t (execute (deviceSystem d) a t).2 d path (m.enrich.render f) e) := by
  refine ⟨refuses_or_obtains t a, fun e h => ?_, fun f s m h => ⟨fun output => ?_, ?_⟩⟩
  · obtain ⟨log, hrun⟩ := execute_of_refuses (d := d) h
    simp [hrun]
  · simp [execute_prints h output]
  · intro path output
    obtain ⟨u, hsave, hrun⟩ | ⟨e, u, hsave, hrun⟩ := execute_of_output (d := d) h output
    · rw [hrun]
      exact ⟨rfl, .inl ⟨rfl, save_eq_ok hsave⟩⟩
    · rw [hrun]
      exact ⟨rfl, .inr ⟨e, rfl, save_eq_error hsave⟩⟩

end ApiSurface.CommandLine
