/-
Reading a YAML document as a value of a known shape.
-/
import ApiSurface.Yaml.Reader

namespace ApiSurface.Yaml

mutual

/-- Reads a value of a shape; `depth` levels of nesting are left. -/
def read : {α : Type} → Shape α → Nat → Scope → Reader α
  | _, .text, _, sc => Reader.text sc "a string"
  | _, .flag, _, sc => Reader.flag sc
  | _, .nothing, _, sc => Reader.onEvent sc fun e => Reader.refuseEvent e.event "nothing"
  | _, .optional s, depth, sc => Reader.optional sc (read s depth sc)
  | _, .list item, depth, sc => Reader.list sc depth (read item)
  | _, .record label fields, depth, sc =>
    Reader.record sc fields label depth fun depth slots inner => do
      readMember fields depth slots (← Reader.text sc "field identifier") inner
  | _, .tagged choice s, depth, sc => Reader.tagged sc choice (read s depth)
  | _, .keyed choice s, depth, sc => Reader.keyed sc choice depth (read s)
  | _, .buffered interpret _, depth, sc => do
    Reader.interpreted (interpret (← Reader.content depth sc))
  | _, .view there _ s, depth, sc => do return there (← read s depth sc)

/-- Reads the value of a member into its slot. -/
def readMember : {σ α : Type} → Fields σ α → Nat → σ → String → Scope → Reader σ
  | _, _, .nil, _, (), _, sc => Reader.ignore sc
  | _, _, .cons field s rest, depth, (slot, slots), key, sc =>
    if key = field.name then
      match slot with
      | some _ => Reader.refuse (.duplicateField key)
      | none => do return (some (← read s depth sc), slots)
    else do return (slot, ← readMember rest depth slots key sc)

end

/-- The number of levels to which a document may be nested. -/
def depthLimit : Nat := 128

/-- A decoded document, and how many marker details were ignored on the way. -/
structure Decoded (α : Type) where
  result : Except Error α
  ignored : Nat

/-- Lets a value through if its document is whole and nothing follows it. -/
def Document.complete {α : Type} (d : Document) (a : α) : Except Error α :=
  match d.defect with
  | some e => .error (.defect e)
  | none => if d.continued then .error .severalDocuments else .ok a

/-- Decodes a document as a value of a shape. -/
def decode {α : Type} (s : Shape α) (text : String) : Decoded α :=
  let d := Document.ofText text
  match read s depthLimit ⟨d, .top⟩ ⟨d.events, 0, 0⟩ with
  | .ok a state => ⟨d.complete a, state.ignored⟩
  | .error e state => ⟨.error e, state.ignored⟩

end ApiSurface.Yaml
