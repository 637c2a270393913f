/-
Mappings in marker slots.

A marker is read whole, as contents, before anything is made of it (`ofNode?_slot`), and a content
has no room for the name of an alternative, for an integer of more than 64 bits or for a scalar that
its tag does not fit. A node without these is `Storable`: no other node has a content at all, and
this one has the same content wherever it stands, as long as there are levels enough for its nesting
(`Node.Within`).
-/
import ApiSurface.Proofs.Wire.Marker
import ApiSurface.Proofs.Yaml.Same

namespace ApiSurface.Yaml

namespace Node

/-- Whether a node has no aliases and is nested at most some levels deep. -/
inductive Within : Nat → Node → Prop
  | scalar {n : Nat} (text : String) (style : ScalarStyle) (tag : Option String) :
      Within n (.scalar text style tag)
  | sequence {n : Nat} (tag : Option String) {ts : List Node} (h : ∀ t ∈ ts, Within n t) :
      Within (n + 1) (.sequence tag ts)
  | mapping {n : Nat} (tag : Option String) {ms : List (Node × Node)}
      (keys : ∀ m ∈ ms, Within n m.1) (values : ∀ m ∈ ms, Within n m.2) :
      Within (n + 1) (.mapping tag ms)

/-- Whether nothing in a node stands under the name of an alternative, has a tag that it does not
fit or is an integer of more than 64 bits. -/
inductive Storable : Node → Prop
  | scalar {text : String} {style : ScalarStyle} {tag : Option String} {v : Scalar}
      (unnamed : alternativeTag? tag = none) (fits : Scalar.ofEvent text style tag = .ok v)
      (narrow : ∀ i, v ≠ .wide i) : Storable (.scalar text style tag)
  | sequence {tag : Option String} {ts : List Node} (unnamed : alternativeTag? tag = none)
      (h : ∀ t ∈ ts, Storable t) : Storable (.sequence tag ts)
  | mapping {tag : Option String} {ms : List (Node × Node)} (unnamed : alternativeTag? tag = none)
      (keys : ∀ m ∈ ms, Storable m.1) (values : ∀ m ∈ ms, Storable m.2) :
      Storable (.mapping tag ms)

/-! ### Contents, one kind of node at a time -/

section Contents

variable {anchors : Anchors} {text : String} {style : ScalarStyle} {tag : Option String}
  {depth : Nat} {c : Content}

theorem unless_isSome {ι α : Type} {o : Option ι} {x : Option α} {a : α} :
    (if o.isSome then none else x) = some a ↔ o = none ∧ x = some a := by
  cases o <;> simp

theorem content?_scalar :
    (scalar text style tag).content? anchors depth
      = if (alternativeTag? tag).isSome then none else scalarContent? text style tag := by
  rw [content?]
  rfl

theorem content?_sequence (ts : List Node) :
    (sequence tag ts).content? anchors depth
      = if (alternativeTag? tag).isSome then none
        else Yaml.below depth fun depth => (ts.mapM (content? anchors depth)).map .list := by
  rw [content?]
  cases depth <;> rfl

theorem content?_mapping (ms : List (Node × Node)) :
    (mapping tag ms).content? anchors depth
      = if (alternativeTag? tag).isSome then none
        else Yaml.below depth fun depth => (ms.mapM (pair? (content? anchors depth))).map .map := by
  rw [content?]
  cases depth <;> rfl

theorem exists_scalarContent_iff :
    (∃ c, scalarContent? text style tag = some c) ↔
      ∃ v, Scalar.ofEvent text style tag = .ok v ∧ ∀ i, v ≠ .wide i := by
  rw [scalarContent?]
  cases Scalar.ofEvent text style tag with
  | error e => simp [bind, Except.bind, Except.toOption]
  | ok v => cases v <;> simp [bind, Except.bind, Except.toOption, Scalar.content]

/-- What has a content without a level to spare is a scalar, which has it everywhere. -/
theorem content?_of_zero {t : Node} (h : t.content? anchors 0 = some c) (depth : Nat) :
    t.content? anchors depth = some c := by
  rw [content?] at h ⊢
  generalize t.target anchors = u at h ⊢
  cases u with
  | scalar => exact h
  | link => exact h
  | _ => split at h <;> cases h

end Contents

/-! ### Details -/

/-- The version that a node gives: a text, or a number by its digits. -/
def version? : Node → Option String
  | .scalar text style tag => match Scalar.ofEvent text style tag with
    | .ok (.text s) => some s
    | .ok (.number n) => some n.toText
    | _ => none
  | _ => none

/-- The removal flag that a node gives. -/
def removal? : Node → Option Bool
  | .scalar text style tag => match Scalar.ofEvent text style tag with
    | .ok (.bool b) => some b
    | _ => none
  | _ => none

/-- A node with a content gives the details that its content gives. -/
theorem details_of_content {anchors : Anchors} {depth : Nat} {t : Node} {c : Content}
    (h : t.content? anchors depth = some c) :
    Marker.sinceIn c = (t.target anchors).version? ∧
      Marker.forRemovalIn c = (t.target anchors).removal? := by
  rw [content?] at h
  generalize t.target anchors = u at h ⊢
  obtain ⟨-, h⟩ := Option.ite_none_left_eq_some.mp h
  cases u with
  | scalar text style tag =>
    dsimp only [scalarContent?] at h
    simp only [version?, removal?]
    cases hv : Scalar.ofEvent text style tag with
    | error e =>
      rw [hv] at h
      cases h
    | ok v =>
      rw [hv] at h
      -- texts and numbers are versions, and flags are flags; the absent value is neither
      cases v <;> cases h <;> exact ⟨rfl, rfl⟩
  | sequence tag ts =>
    cases depth with
    | zero => cases h
    | succ depth =>
      obtain ⟨cs, -, rfl⟩ := Option.map_eq_some_iff.mp h
      exact ⟨rfl, rfl⟩
  | mapping tag ms =>
    cases depth with
    | zero => cases h
    | succ depth =>
      obtain ⟨es, -, rfl⟩ := Option.map_eq_some_iff.mp h
      exact ⟨rfl, rfl⟩
  | link n => cases h

/-! ### Which nodes have a content -/

/-- A list is made into values if each of its items is. -/
theorem exists_mapM_iff {ι α : Type} {f : ι → Option α} {as : List ι} :
    (∃ bs, as.mapM f = some bs) ↔ ∀ a ∈ as, ∃ b, f a = some b := by
  induction as with
  | nil => simp
  | cons a as ih =>
    rw [List.forall_mem_cons, ← ih, List.mapM_cons]
    cases f a <;> cases as.mapM f <;> simp

theorem exists_pair_iff {content? : Node → Option Content} {m : Node × Node} :
    (∃ e, pair? content? m = some e) ↔
      (∃ c, content? m.1 = some c) ∧ ∃ c, content? m.2 = some c := by
  rw [pair?]
  cases content? m.1 <;> cases content? m.2 <;> simp

namespace Within

variable {anchors : Anchors} {n depth : Nat} {t : Node}

theorem isLink (h : t.Within n) : t.isLink = false := by
  cases h <;> rfl

/-- What has a content can be held back. -/
theorem storable (h : t.Within n) (hc : ∃ c, t.content? anchors depth = some c) : t.Storable := by
  induction h generalizing depth with
  | scalar text style tag =>
    simp only [content?_scalar, unless_isSome] at hc
    obtain ⟨c, htag, hc⟩ := hc
    obtain ⟨v, hv, narrow⟩ := exists_scalarContent_iff.mp ⟨c, hc⟩
    exact .scalar htag hv narrow
  | sequence tag _ ih =>
    simp only [content?_sequence, unless_isSome] at hc
    obtain ⟨c, htag, hc⟩ := hc
    obtain ⟨depth, rfl, hc⟩ := Yaml.below_eq_some hc
    obtain ⟨cs, hcs, -⟩ := Option.map_eq_some_iff.mp hc
    exact .sequence htag fun t ht => ih t ht (exists_mapM_iff.mp ⟨cs, hcs⟩ t ht)
  | mapping tag _ _ ihkeys ihvalues =>
    simp only [content?_mapping, unless_isSome] at hc
    obtain ⟨c, htag, hc⟩ := hc
    obtain ⟨depth, rfl, hc⟩ := Yaml.below_eq_some hc
    obtain ⟨es, hes, -⟩ := Option.map_eq_some_iff.mp hc
    have hpairs := fun m hm => exists_pair_iff.mp (exists_mapM_iff.mp ⟨es, hes⟩ m hm)
    exact .mapping htag (fun m hm => ihkeys m hm (hpairs m hm).1)
      fun m hm => ihvalues m hm (hpairs m hm).2

/-- What can be held back has a content where there are levels enough for its nesting. -/
theorem exists_content (h : t.Within n) (hn : n ≤ depth) (storable : t.Storable) :
    ∃ c, t.content? anchors depth = some c := by
  induction h generalizing depth with
  | scalar text style tag =>
    cases storable with
    | scalar unnamed fits narrow =>
      obtain ⟨c, hc⟩ := exists_scalarContent_iff.mpr ⟨_, fits, narrow⟩
      exact ⟨c, by rw [content?_scalar, unless_isSome]; exact ⟨unnamed, hc⟩⟩
  | sequence tag _ ih =>
    obtain ⟨depth, rfl⟩ : ∃ d, depth = d + 1 := ⟨depth - 1, by omega⟩
    cases storable with
    | sequence unnamed items =>
      obtain ⟨cs, hcs⟩ := exists_mapM_iff.mpr fun t ht =>
        ih t ht (Nat.le_of_succ_le_succ hn) (items t ht)
      refine ⟨.list cs, ?_⟩
      rw [content?_sequence, unless_isSome, Yaml.below, hcs]
      exact ⟨unnamed, rfl⟩
  | mapping tag _ _ ihkeys ihvalues =>
    obtain ⟨depth, rfl⟩ : ∃ d, depth = d + 1 := ⟨depth - 1, by omega⟩
    have hn := Nat.le_of_succ_le_succ hn
    cases storable with
    | mapping unnamed keys values =>
      have hpairs (m : Node × Node) (hm : m ∈ _) := exists_pair_iff.mpr
        ⟨ihkeys m hm hn (keys m hm), ihvalues m hm hn (values m hm)⟩
      obtain ⟨es, hes⟩ := exists_mapM_iff.mpr hpairs
      refine ⟨.map es, ?_⟩
      rw [content?_mapping, unless_isSome, Yaml.below, hes]
      exact ⟨unnamed, rfl⟩

/-- The content of a node without aliases is the same wherever the node stands. -/
theorem content?_eq {anchors' : Anchors} {depth' : Nat} (h : t.Within n) (hn : n ≤ depth)
    (hn' : n ≤ depth') : t.content? anchors depth = t.content? anchors' depth' := by
  induction h generalizing depth depth' with
  | scalar text style tag => rw [content?_scalar, content?_scalar]
  | @sequence n tag ts _ ih =>
    obtain ⟨depth, rfl⟩ : ∃ d, depth = d + 1 := ⟨depth - 1, by omega⟩
    have hn := Nat.le_of_succ_le_succ hn
    obtain ⟨depth', rfl⟩ : ∃ d, depth' = d + 1 := ⟨depth' - 1, by omega⟩
    have hn' := Nat.le_of_succ_le_succ hn'
    have hs : ts.mapM (content? anchors depth) = ts.mapM (content? anchors' depth') :=
      mapM_eq_of_forall₂ (fun _ _ h => h)
        (List.forall₂_same.mpr fun t ht => ih t ht hn hn')
    rw [content?_sequence, content?_sequence, Yaml.below, Yaml.below, hs]
  | @mapping n tag ms _ _ ihkeys ihvalues =>
    obtain ⟨depth, rfl⟩ : ∃ d, depth = d + 1 := ⟨depth - 1, by omega⟩
    have hn := Nat.le_of_succ_le_succ hn
    obtain ⟨depth', rfl⟩ : ∃ d, depth' = d + 1 := ⟨depth' - 1, by omega⟩
    have hn' := Nat.le_of_succ_le_succ hn'
    have hpair (m : Node × Node) (hm : m ∈ ms) :
        pair? (content? anchors depth) m = pair? (content? anchors' depth') m := by
      rw [pair?, pair?, ihkeys m hm hn hn', ihvalues m hm hn hn']
    have hs : ms.mapM (pair? (content? anchors depth))
        = ms.mapM (pair? (content? anchors' depth')) :=
      mapM_eq_of_forall₂ (fun _ _ h => h) (List.forall₂_same.mpr hpair)
    rw [content?_mapping, content?_mapping, Yaml.below, Yaml.below, hs]

end Within

end Node

end ApiSurface.Yaml

namespace ApiSurface

open Yaml (Node Anchors)

/-- A mapping in a marker slot is a marker, once all of it was read. -/
theorem ofNode?_slot (anchors : Anchors) (depth : Nat) (tag : Option String)
    (ms : List (Node × Node)) :
    markerSlotShape.ofNode? anchors depth (.mapping tag ms)
      = if (Yaml.alternativeTag? tag).isSome then none
        else Yaml.below depth fun depth =>
          (ms.mapM (Node.pair? (Node.content? anchors depth))).bind fun es =>
            (Marker.ofEntries? none none es).map some := by
  have hread (o : Option (Option Marker)) : (o.map some).map Option.join = o := by
    cases o <;> rfl
  calc markerSlotShape.ofNode? anchors depth (.mapping tag ms)
      = (((Node.mapping tag ms).content? anchors depth).bind fun c =>
          (Marker.slotOf c).result.toOption) := hread _
    _ = _ := by
      rw [Node.content?_mapping]
      cases Yaml.alternativeTag? tag with
      | some name => rfl
      | none =>
        cases depth with
        | zero => rfl
        | succ depth =>
          simp only [Yaml.below, Option.isSome_none, Bool.false_eq_true, if_false,
            Option.bind_map]
          exact congrArg _ (funext Marker.slotOf_map)

end ApiSurface
