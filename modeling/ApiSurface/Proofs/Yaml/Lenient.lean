/-
Another node under a key of a marker in a YAML model.

A marker reads its details leniently, but only once all of it could be held back. So another node
under one of its keys changes at most the detail of that key if the node is `Storable`, and spoils
the document if it is not, wherever the marker stands and however many aliases lead to it
(`Model.parse_yaml_marker_detail`).
-/
import ApiSurface.Codec
import ApiSurface.Proofs.Json.Decoding
import ApiSurface.Proofs.Yaml.Denotation
import ApiSurface.Proofs.Yaml.Replacement
import Mathlib

namespace ApiSurface.Yaml

/-- A marker with the detail under the key taken from the new node. -/
def Replacement.put (r : Replacement) (m : Marker) : Marker :=
  match r.key with
  | .since => { m with since := r.new.version? }
  | .forRemoval => { m with forRemoval := r.new.removal? }
  | .other => m

/-- What is put into a marker comes from the content of the new node. -/
theorem Replacement.replace_eq_put {r : Replacement} {depth : Nat} {c : Content}
    (hc : r.new.content? r.anchors' depth = some c) (new : r.new.isLink = false) (m : Marker) :
    m.replace r.key c = r.put m := by
  obtain ⟨hsince, hremoval⟩ := Node.details_of_content hc
  have htarget : r.new.target r.anchors' = r.new := by
    cases hn : r.new with
    | link n =>
      rw [hn] at new
      cases new
    | _ => rfl
  rw [htarget] at hsince hremoval
  unfold Marker.replace put
  cases r.key with
  | since => rw [hsince]
  | forRemoval => rw [hremoval]
  | other => rfl

end ApiSurface.Yaml

namespace ApiSurface.Model

open Yaml (Anchors Document Node Replacement)

theorem parse_yaml (text : String) :
    parse .yaml text = (Yaml.decode shape text).result.mapError .yaml := by
  rw [parse, Shape.parse]

theorem decode_of_parse_yaml {text : String} {m : Model} (h : parse .yaml text = .ok m) :
    (Yaml.decode shape text).result = .ok m := by
  rw [parse_yaml] at h
  cases hd : (Yaml.decode shape text).result with
  | error e =>
    rw [hd] at h
    cases h
  | ok a =>
    rw [hd] at h
    cases h
    rfl

section Replace

variable {r : Replacement} {p : Spots} {t t' : Node} {text text' : String} {m : Model}

/-- A node that can be held back changes one detail of the markers that it is put into. -/
theorem parse_yaml_storable (ht : t.IsDocument r.anchors text)
    (ht' : t'.IsDocument r.anchors' text') (alike : r.Alike shape p t t')
    (within : r.new.Within 100) (storable : r.new.Storable) (hparse : parse .yaml text = .ok m) :
    ∃ m', shape.Apart (fun a a' => a' = r.put a) p m m' ∧
      (parse .yaml text' = .ok m' ∨
        (Document.ofText text').HasAlias ∧ parse .yaml text' = .error (.yaml .tooManyAliases)) := by
  have hcontent : ∃ c, r.new.content? r.anchors' 100 = some c :=
    within.exists_content (Nat.le_refl 100) storable
  obtain ⟨c, hc⟩ := hcontent
  have hnew (depth : Nat) (hdepth : 100 ≤ depth) : r.new.content? r.anchors' depth = some c :=
    (within.content?_eq hdepth (Nat.le_refl 100)).trans hc
  have hput (a : Marker) : a.replace r.key c = r.put a :=
    Replacement.replace_eq_put hc within.isLink a
  have hlevels : 101 + 2 * shape.levels ≤ Yaml.depthLimit := by
    rw [levels_shape]
    decide
  have hread := Yaml.ofNode?_of_decode ht (decode_of_parse_yaml hparse)
  obtain ⟨m', hread', hapart⟩ := alike.ofNode?_apart hnew hlevels hread
  simp only [hput] at hapart
  refine ⟨m', hapart, ?_⟩
  rw [parse_yaml]
  obtain hok | ⟨halias, hmany⟩ := Yaml.decode_some ht' hread'
  · exact .inl (by rw [hok]; rfl)
  · exact .inr ⟨halias, by rw [hmany]; rfl⟩

/-- A node that cannot be held back spoils every document with it in a marker. -/
theorem parse_yaml_not_storable (ht' : t'.IsDocument r.anchors' text')
    (alike : r.Alike shape p t t') (within : r.new.Within 100) (any : p.Any)
    (loose : ¬ r.new.Storable) : ∃ e, parse .yaml text' = .error (.yaml e) := by
  have hnew (depth : Nat) : r.new.content? r.anchors' depth = none :=
    Option.eq_none_iff_forall_ne_some.mpr fun c hc => loose (within.storable ⟨c, hc⟩)
  obtain ⟨e, he⟩ := Yaml.decode_none ht' (alike.ofNode?_eq_none hnew any _)
  exact ⟨e, by rw [parse_yaml, he]; rfl⟩

end Replace

/-- Every document that is read is empty or a node. Another node without aliases under a key of its
markers leaves a model that differs in the detail under that key only, and that is absent unless the
node is of the form of the detail, but the node must be `Storable`: no name of an alternative, no
integer of more than 64 bits and no scalar that its tag does not fit may be in it. With any other
node the document is refused. A document with aliases is refused too where following them takes too
many steps for its size. -/
theorem parse_yaml_marker_detail (text : String) :
    (∀ {m : Model}, parse .yaml text = .ok m →
      (Document.ofText text).events.map (·.event) = [.void] ∨
        ∃ (t : Node) (anchors : Anchors), t.IsDocument anchors text) ∧
    ∀ {r : Replacement} {p : Spots} {t t' : Node} {text' : String} {m : Model},
      t.IsDocument r.anchors text → t'.IsDocument r.anchors' text' → r.Alike shape p t t' →
      r.new.Within 100 → parse .yaml text = .ok m →
        (r.new.Storable → ∃ m', shape.Apart (fun a a' => a' = r.put a) p m m' ∧
          (parse .yaml text' = .ok m' ∨ (Document.ofText text').HasAlias ∧
            parse .yaml text' = .error (.yaml .tooManyAliases))) ∧
        (p.Any → ¬ r.new.Storable → ∃ e, parse .yaml text' = .error (.yaml e)) := by
  refine ⟨fun {m} hparse => Yaml.exists_isDocument (decode_of_parse_yaml hparse), ?_⟩
  intro r p t t' text' m ht ht' alike within hparse
  constructor
  · intro storable
    exact parse_yaml_storable ht ht' alike within storable hparse
  · intro any loose
    exact parse_yaml_not_storable ht' alike within any loose

/-- A node in the place of the version of a marker, in documents without aliases. -/
def sinceReplacement (new : Node) : Replacement where
  anchors := .unused
  anchors' := .unused
  link _ _ := False
  corresponds _ _ h := h.elim
  key := .since
  new := new

/-- A model with one bean, whose marker has a version. -/
def beanSince (version : Node) : Node :=
  let name (s : String) : Node := .scalar s .plain none
  .mapping none [(name "beans", .sequence none [.mapping none [(name "name", name "B"),
    (name "origin", .mapping none [(name "name", name "b"),
      (name "deprecated", .mapping none [(.scalar "since" .doubleQuoted none, version)])])]])]

/-- The version of the one marker may be replaced. -/
theorem exists_alike_beanSince (old new : Node) : ∃ p : Spots, p.Any ∧
    (sinceReplacement new).Alike shape p (beanSince old) (beanSince new) := by
  have hname (s : String) : Node.Same (sinceReplacement new).link (.scalar s .plain none)
      (.scalar s .plain none) := .scalar s .plain none
  have hkey : Node.Same (sinceReplacement new).link (.scalar "since" .doubleQuoted none)
      (.scalar "since" .doubleQuoted none) := .scalar _ _ _
  have hslot : (sinceReplacement new).Alike markerSlotShape .here
      (.mapping none [(.scalar "since" .doubleQuoted none, old)])
      (.mapping none [(.scalar "since" .doubleQuoted none, new)]) :=
    @Replacement.Alike.slot _ _ [] [] [] [] _ _ _ .nil hkey .nil rfl
  have horigin : ∃ p : Spots, p.Any ∧ (sinceReplacement new).Alike originShape p
      (.mapping none [(.scalar "name" .plain none, .scalar "b" .plain none),
        (.scalar "deprecated" .plain none, .mapping none [(.scalar "since" .doubleQuoted none, old)])])
      (.mapping none [(.scalar "name" .plain none, .scalar "b" .plain none),
        (.scalar "deprecated" .plain none, .mapping none [(.scalar "since" .doubleQuoted none, new)])]) :=
    ⟨_, .field 1 .here, .optional (.view _ _ (.record _ _ (.known (hname "name") rfl .head
      (.same (hname "b")) (.known (hname "deprecated") rfl (.tail (by decide) .head) hslot .nil))))⟩
  obtain ⟨p, hp, horigin⟩ := horigin
  have hfield : (Fields.cons originField originShape .nil).Has 0 originField.name originShape :=
    .head
  exact ⟨_, .field 0 (.head (.field 5 hp)), .view _ _ (.record _ _ (.known (hname "beans") rfl .head
    (.item (.view _ _ (.record _ _ (.known (hname "name") rfl .head (.same (hname "B"))
      (.known (hname "origin") rfl (.tail (by decide) (.tail (by decide) (.tail (by decide)
        (.tail (by decide) (.tail (by decide) hfield))))) horigin .nil))))
      (.same (.sequence none .nil))) .nil))⟩

theorem noAlias_beanSince {version : Node} (plain : ∀ n, .alias n ∉ version.events) (n : Nat) :
    .alias n ∉ (beanSince version).events := by
  simp [beanSince, Node.events, Node.allEvents, Node.pairEvents, plain n]

/-- A list in the place of a version reads as no version, and a value under the name of an
alternative spoils the document. -/
theorem parse_yaml_marker_detail_list :
    parse .yaml "beans:\n- name: B\n  origin:\n    name: b\n    deprecated: \x7b\"since\": \"1\"\x7d\n"
      = .ok ⟨[⟨"B", none, [], [], [], some ⟨"b", some ⟨some "1", none⟩⟩⟩], [], []⟩ ∧
    (∃ p m', p.Any ∧ shape.Apart (fun a a' => a' = { a with since := none }) p
        ⟨[⟨"B", none, [], [], [], some ⟨"b", some ⟨some "1", none⟩⟩⟩], [], []⟩ m' ∧
      parse .yaml "beans:\n- name: B\n  origin:\n    name: b\n    deprecated: \x7b\"since\": []\x7d\n"
        = .ok m') ∧
    ∃ e, parse .yaml
      "beans:\n- name: B\n  origin:\n    name: b\n    deprecated: \x7b\"since\": !v 1\x7d\n"
        = .error (.yaml e) := by
  have hreplaced (one list tagged : String)
      (hone : (beanSince (.scalar "1" .doubleQuoted none)).IsDocument .unused one)
      (hlist : (beanSince (.sequence none [])).IsDocument .unused list)
      (htagged : (beanSince (.scalar "1" .plain (some "!v"))).IsDocument .unused tagged) :
      parse .yaml one
        = .ok ⟨[⟨"B", none, [], [], [], some ⟨"b", some ⟨some "1", none⟩⟩⟩], [], []⟩ ∧
      (∃ p m', p.Any ∧ shape.Apart (fun a a' => a' = { a with since := none }) p
          ⟨[⟨"B", none, [], [], [], some ⟨"b", some ⟨some "1", none⟩⟩⟩], [], []⟩ m' ∧
        parse .yaml list = .ok m') ∧ ∃ e, parse .yaml tagged = .error (.yaml e) := by
    have hparse : parse .yaml one
        = .ok ⟨[⟨"B", none, [], [], [], some ⟨"b", some ⟨some "1", none⟩⟩⟩], [], []⟩ := by
      rw [parse_yaml, hone.decode_eq (noAlias_beanSince (by simp [Node.events])) (by cbv)]
      rfl
    obtain ⟨p, hp, alike⟩ := exists_alike_beanSince (.scalar "1" .doubleQuoted none)
      (.sequence none [])
    obtain ⟨q, hq, alike'⟩ := exists_alike_beanSince (.scalar "1" .doubleQuoted none)
      (.scalar "1" .plain (some "!v"))
    refine ⟨hparse, ?_,
      ((parse_yaml_marker_detail one).2 hone htagged alike' (.scalar _ _ _) hparse).2 hq ?_⟩
    · obtain ⟨m', hapart, hok | ⟨⟨n, hn⟩, -⟩⟩ :=
        ((parse_yaml_marker_detail one).2 hone hlist alike (.sequence none (by simp)) hparse).1
          (.sequence rfl (by simp))
      · exact ⟨p, m', hp, hapart, hok⟩
      · rw [hlist.events] at hn
        exact absurd hn (noAlias_beanSince (by simp [Node.events, Node.allEvents]) n)
    · intro h
      cases h with
      | scalar unnamed => cases unnamed
  exact hreplaced _ _ _
    (Node.isDocument_of_ofText (by cbv) (noAlias_beanSince (by simp [Node.events])))
    (Node.isDocument_of_ofText (by cbv) (noAlias_beanSince (by simp [Node.events, Node.allEvents])))
    (Node.isDocument_of_ofText (by cbv) (noAlias_beanSince (by simp [Node.events])))

end ApiSurface.Model
