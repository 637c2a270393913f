/-
Sessions: a model under work, with a copy of an earlier state.

A step that fails leaves the session as it was.
-/
import ApiSurface.Codec
import ApiSurface.Edit
import ApiSurface.Pass

namespace ApiSurface

/-- A model and the copy that was saved last. -/
structure Session where
  model : Model := {}
  saved : Model := {}

/-- One step of a session. -/
inductive Step where
  | load (format : Format) (text : String)
  | clear
  | save
  | restore
  /-- Compares the model with the saved copy. -/
  | compare
  | addBean (bean : Bean)
  | addEnum (enumeration : Enumeration)
  | addApplication (application : Application)
  | runPasses (passes : List Pass)
  | edit (edit : Edit)
  | render (format : Format)
  /-- Writes the model and reads it again. -/
  | roundTrip (format : Format)

/-- What a step answers. -/
inductive Reply where
  | done
  | flag (value : Bool)
  | count (value : Nat)
  | names (values : List String)
  | text (value : String)

namespace Session

/-- The session with another model. -/
def withModel (s : Session) (model : Model) : Session := { s with model }

/-- Takes a step that may fail. -/
def attempt (s : Session) : Step → Except Error (Reply × Session)
  | .load format text => do return (.done, s.withModel (← Model.parse format text))
  | .clear => .ok (.done, s.withModel {})
  | .save => .ok (.done, { s with saved := s.model })
  | .restore => .ok (.done, s.withModel s.saved)
  | .compare => .ok (.flag (s.saved == s.model), s)
  | .addBean b =>
    let beans := s.model.beans ++ [b]
    .ok (.count beans.length, s.withModel { s.model with beans })
  | .addEnum e =>
    let enums := s.model.enums ++ [e]
    .ok (.count enums.length, s.withModel { s.model with enums })
  | .addApplication a =>
    let applications := s.model.applications ++ [a]
    .ok (.count applications.length, s.withModel { s.model with applications })
  | .runPasses passes =>
    .ok (.names (passes.map (·.name)), s.withModel (Pass.run passes s.model))
  | .edit e => .ok (.done, s.withModel (s.model.edit e))
  | .render format => .ok (.text (s.model.render format), s)
  | .roundTrip format => do
    let model ← Model.parse format (s.model.render format)
    return (.flag (model == s.model), s.withModel model)

/-- Takes a step; after a failure the session is the same. -/
def step (s : Session) (a : Step) : Except Error Reply × Session :=
  match s.attempt a with
  | .ok (r, s') => (.ok r, s')
  | .error e => (.error e, s)

/-- Takes steps one after another; gives each answer with the model after it. -/
def run (s : Session) : List Step → List (Except Error Reply × Model)
  | [] => []
  | a :: rest =>
    let (r, s') := s.step a
    (r, s'.model) :: s'.run rest

end Session

end ApiSurface
