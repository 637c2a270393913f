/-
Passes: named changes to a whole model, run one after another.
-/
import ApiSurface.Enrichment

namespace ApiSurface

/-- A named change to a model; it cannot fail. -/
structure Pass where
  name : String
  change : Model → Model

namespace Pass

/-- Applies passes from left to right. -/
def run (passes : List Pass) (m : Model) : Model := passes.foldl (fun m p => p.change m) m

/-- Enrichment as a pass. -/
def deprecation : Pass := ⟨"deprecation", Model.enrich⟩

/-- Removes the notices from the data classes' own documentation. -/
def strip : Pass where
  name := "strip"
  change m := { m with
    beans := m.beans.map fun b => b.withComments (b.comments.filter (!isNotice ·)) }

/-- Marks every data class as renamed, in its name and in its documentation. -/
def rename : Pass where
  name := "rename"
  change m := { m with
    beans := m.beans.map fun b =>
      { b with name := b.name ++ "X", comments := b.comments ++ ["renamed"] } }

/-- The pass with a given name. -/
def named? (name : String) : Option Pass :=
  [deprecation, strip, rename].find? fun p => p.name == name

end Pass

end ApiSurface
