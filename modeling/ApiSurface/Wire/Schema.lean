/-
The shapes of a model's nodes.
-/
import ApiSurface.Model
import ApiSurface.Wire.Shape

namespace ApiSurface

namespace Field

/-- A member that must be present. -/
def required {α : Type} (name : String) : Field α := { name }

/-- A member that may be missing and is always written. -/
def defaulted {α : Type} (name : String) (value : α) : Field α := { name, default := some value }

/-- A member that is written only if it has a value. -/
def optional {α : Type} (name : String) : Field (Option α) :=
  { name, default := some none, hidden := Option.isNone }

end Field

/-- Documentation lines; an absent value means no lines. -/
def commentsShape : Shape (List String) := .view (·.getD []) some (.optional (.list .text))

/-- A choice between bare names. -/
def namesShape {β : Type} (label : String) (values : List (String × β)) (name : β → String) :
    Shape β :=
  .tagged ⟨label, values.map fun (n, v) => (n, .bare v), fun b => (name b, none)⟩ Shape.nothing

namespace Marker

/-- The version from a content: a text, or a number by its digits. -/
def sinceOf : Content → Interpreted (Option String)
  | .text s => ⟨.ok (some s), 0⟩
  | .number n => ⟨.ok (some n.toText), 0⟩
  | _ => ⟨.ok none, 1⟩

/-- The removal flag from a content. -/
def forRemovalOf : Content → Interpreted (Option Bool)
  | .bool b => ⟨.ok (some b), 0⟩
  | _ => ⟨.ok none, 1⟩

/-- A detail of a marker; a value of the wrong form counts as missing. -/
def detailShape {α : Type} (read : Content → Interpreted (Option α)) (write : α → Tree) :
    Shape (Option α) :=
  .view Option.join (fun o => o.map some) (.optional (.buffered read fun
    | some a => write a
    | none => .null))

/-- The name of the version among the details. -/
def sinceField : Field (Option String) := .optional "since"

/-- The name of the removal flag among the details. -/
def forRemovalField : Field (Option Bool) := .optional "forRemoval"

/-- A marker on its own. -/
def shape : Shape Marker :=
  .view (fun (since, forRemoval, ()) => ⟨since, forRemoval⟩) (fun m => (m.since, m.forRemoval, ()))
    (.record "struct DeprecationMarker"
      (.cons sinceField (detailShape sinceOf .text)
        (.cons forRemovalField (detailShape forRemovalOf .bool) .nil)))

/-- A detail inside a content, where an absent value is not reported. -/
def detailOf {α : Type} (read : Content → Interpreted (Option α)) : Content → Interpreted (Option α)
  | .null => ⟨.ok none, 0⟩
  | c => read c

/-- The message for a slot that holds no marker. -/
def noSlot : Mismatch := .noForm "MarkerRepr"

/-- A marker from a sequence: the version, then the flag. -/
def ofItems : List Content → Interpreted Marker
  | [] => ⟨.ok {}, 0⟩
  | [c] =>
    let s := detailOf sinceOf c
    ⟨s.result.map fun since => { since }, s.ignored⟩
  | c :: d :: rest =>
    let s := detailOf sinceOf c
    let r := detailOf forRemovalOf d
    ⟨if rest.isEmpty then do return ⟨← s.result, ← r.result⟩ else .error noSlot,
      s.ignored + r.ignored⟩

/-- A member of a marker: a detail by name or by position, or something else. -/
inductive Key where
  | since
  | forRemoval
  | other
  deriving DecidableEq

/-- The member that a key stands for. -/
def keyOf : Content → Option Key
  | .text s =>
    some (if s = sinceField.name then .since
      else if s = forRemovalField.name then .forRemoval else .other)
  | .number (.integer i) =>
    if i.val < 0 then none
    else some (if i.val = 0 then .since else if i.val = 1 then .forRemoval else .other)
  | _ => none

/-- A marker from a map, each detail at most once. -/
def ofEntries (since : Option (Option String)) (forRemoval : Option (Option Bool)) :
    List (Content × Content) → Interpreted Marker
  | [] => ⟨.ok ⟨since.join, forRemoval.join⟩, 0⟩
  | (k, v) :: rest =>
    match keyOf k, since, forRemoval with
    | some .since, none, _ => next (detailOf sinceOf v) fun a => ofEntries (some a) forRemoval rest
    | some .forRemoval, _, none =>
      next (detailOf forRemovalOf v) fun a => ofEntries since (some a) rest
    | some .other, _, _ => ofEntries since forRemoval rest
    | _, _, _ => ⟨.error noSlot, 0⟩
where
  /-- Goes on with a detail. -/
  next {α β : Type} (i : Interpreted α) (k : α → Interpreted β) : Interpreted β :=
    match i.result with
    | .error e => ⟨.error e, i.ignored⟩
    | .ok a => let j := k a; ⟨j.result, i.ignored + j.ignored⟩

/-- What a marker slot holds: a flag, or a marker. -/
def slotOf : Content → Interpreted (Option Marker)
  | .bool b => ⟨.ok (if b then some {} else none), 0⟩
  | .list items => let i := ofItems items; ⟨i.result.map some, i.ignored⟩
  | .map entries => let i := ofEntries none none entries; ⟨i.result.map some, i.ignored⟩
  | _ => ⟨.error noSlot, 0⟩

end Marker

/-- A marker slot; an absent value and a lowered flag mean that there is no marker. -/
def markerSlotShape : Shape (Option Marker) :=
  .view Option.join (fun o => o.map some) (.optional (.buffered Marker.slotOf fun
    | some m => Marker.shape.encode m
    | none => .null))

namespace SourceElement

/-- A source element. -/
def shape : Shape SourceElement :=
  .view (fun (name, deprecated, ()) => ⟨name, deprecated⟩) (fun e => (e.name, e.deprecated, ()))
    (.record "struct SourceElement"
      (.cons (.required "name") .text (.cons (.optional "deprecated") markerSlotShape .nil)))

end SourceElement

namespace MemberOrigin

/-- The kinds of member that a property can stand for. -/
def choice : Alternatives SourceElement MemberOrigin where
  label := "enum OriginMember"
  variants := [("method", .carrying .method), ("field", .carrying .field), ("none", .bare .none)]
  split
    | .method e => ("method", some e)
    | .field e => ("field", some e)
    | .none => ("none", Option.none)

/-- An origin on its own. -/
def shape : Shape MemberOrigin := .tagged choice SourceElement.shape

/-- An origin inside a property; an absent value means that there is none. -/
def slotShape : Shape MemberOrigin :=
  .view (·.getD .none) some (.optional (.keyed choice SourceElement.shape))

end MemberOrigin

/-- The member that holds a node's documentation. -/
def commentsField : Field (List String) := .defaulted "comments" []

/-- The member that holds a node's origin. -/
def originField : Field (Option SourceElement) := .optional "origin"

/-- The origin of a node, which may be missing. -/
def originShape : Shape (Option SourceElement) := .optional SourceElement.shape

namespace Property

/-- A property. -/
def shape : Shape Property :=
  .view (fun (name, typeName, isOptional, comments, origin, ()) =>
      ⟨name, typeName, isOptional, comments, origin⟩)
    (fun p => (p.name, p.typeName, p.isOptional, p.comments, p.origin, ()))
    (.record "struct Property"
      (.cons (.required "name") .text (.cons (.required "type") .text
        (.cons (.defaulted "optional" false) .flag (.cons commentsField commentsShape
          (.cons { name := "origin", default := some .none, hidden := MemberOrigin.isNone }
            MemberOrigin.slotShape .nil))))))

end Property

namespace Bean

/-- A data class. -/
def shape : Shape Bean :=
  .view (fun (name, parent, interfaces, properties, comments, origin, ()) =>
      ⟨name, parent, interfaces, properties, comments, origin⟩)
    (fun b => (b.name, b.parent, b.interfaces, b.properties, b.comments, b.origin, ()))
    (.record "struct Bean"
      (.cons (.required "name") .text (.cons (.optional "parent") (.optional .text)
        (.cons { name := "interfaces", default := some [], hidden := List.isEmpty } (.list .text)
          (.cons (.defaulted "properties" []) (.list Property.shape)
            (.cons commentsField commentsShape (.cons originField originShape .nil)))))))

end Bean

namespace EnumKind

/-- The name of a kind. -/
def name : EnumKind → String
  | .string => "string"
  | .number => "number"

/-- A kind of enumeration. -/
def shape : Shape EnumKind :=
  namesShape "enum EnumKind" [("string", .string), ("number", .number)] name

end EnumKind

namespace EnumValue

/-- The value from a content: a text or a number. -/
def ofContent : Content → Interpreted EnumValue
  | .text s => ⟨.ok (.text s), 0⟩
  | .number n => ⟨.ok (.number n), 0⟩
  | _ => ⟨.error (.noForm "EnumValue"), 0⟩

/-- The tree of a value. -/
def toTree : EnumValue → Tree
  | .text s => .text s
  | .number n => .number n

/-- The value of an enumeration member. -/
def shape : Shape EnumValue := .buffered ofContent toTree

end EnumValue

namespace EnumMember

/-- A member of an enumeration. -/
def shape : Shape EnumMember :=
  .view (fun (name, value, comments, origin, ()) => ⟨name, value, comments, origin⟩)
    (fun m => (m.name, m.value, m.comments, m.origin, ()))
    (.record "struct EnumMember"
      (.cons (.required "propertyName") .text (.cons (.required "value") EnumValue.shape
        (.cons commentsField commentsShape (.cons originField originShape .nil)))))

end EnumMember

namespace Enumeration

/-- An enumeration. -/
def shape : Shape Enumeration :=
  .view (fun (name, kind, members, comments, origin, ()) => ⟨name, kind, members, comments, origin⟩)
    (fun e => (e.name, e.kind, e.members, e.comments, e.origin, ()))
    (.record "struct EnumModel"
      (.cons (.required "name") .text (.cons (.defaulted "kind" .string) EnumKind.shape
        (.cons (.defaulted "members" []) (.list EnumMember.shape)
          (.cons commentsField commentsShape (.cons originField originShape .nil))))))

end Enumeration

namespace Framework

/-- The name of a framework. -/
def name : Framework → String
  | .jaxRs => "jaxRs"
  | .spring => "spring"

/-- A framework. -/
def shape : Shape Framework :=
  namesShape "enum RestApplicationKind" [("jaxRs", .jaxRs), ("spring", .spring)] name

end Framework

namespace Parameter

/-- A parameter of an endpoint. -/
def shape : Shape Parameter :=
  .view (fun (name, typeName, ()) => ⟨name, typeName⟩) (fun p => (p.name, p.typeName, ()))
    (.record "struct RestParam"
      (.cons (.required "name") .text (.cons (.required "type") .text .nil)))

end Parameter

namespace Endpoint

/-- An endpoint. -/
def shape : Shape Endpoint :=
  .view (fun (originClass, name, returnType, httpMethod, path, pathParams, queryParams,
      entityParam, comments, origin, ()) =>
      ⟨originClass, name, returnType, httpMethod, path, pathParams, queryParams, entityParam,
        comments, origin⟩)
    (fun e => (e.originClass, e.name, e.returnType, e.httpMethod, e.path, e.pathParams,
      e.queryParams, e.entityParam, e.comments, e.origin, ()))
    (.record "struct RestMethod"
      (.cons (.required "originClass") .text (.cons (.required "name") .text
        (.cons (.required "returnType") .text (.cons (.required "httpMethod") .text
          (.cons (.required "path") .text
            (.cons (.defaulted "pathParams" []) (.list Parameter.shape)
              (.cons (.defaulted "queryParams" []) (.list Parameter.shape)
                (.cons (.optional "entityParam") (.optional Parameter.shape)
                  (.cons commentsField commentsShape
                    (.cons originField originShape .nil)))))))))))

end Endpoint

namespace Application

/-- A group of endpoints. -/
def shape : Shape Application :=
  .view (fun (kind, path, name, endpoints, ()) => ⟨kind, path, name, endpoints⟩)
    (fun a => (a.kind, a.path, a.name, a.endpoints, ()))
    (.record "struct RestApplication"
      (.cons (.defaulted "kind" .jaxRs) Framework.shape
        (.cons (.optional "applicationPath") (.optional .text)
          (.cons (.optional "applicationName") (.optional .text)
            (.cons (.defaulted "methods" []) (.list Endpoint.shape) .nil)))))

end Application

namespace Model

/-- A whole model. -/
def shape : Shape Model :=
  .view (fun (beans, enums, applications, ()) => ⟨beans, enums, applications⟩)
    (fun m => (m.beans, m.enums, m.applications, ()))
    (.record "struct Model"
      (.cons (.defaulted "beans" []) (.list Bean.shape)
        (.cons (.defaulted "enums" []) (.list Enumeration.shape)
          (.cons (.defaulted "restApplications" []) (.list Application.shape) .nil))))

end Model

end ApiSurface
