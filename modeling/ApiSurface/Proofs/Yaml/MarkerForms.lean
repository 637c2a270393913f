/-
The forms of a YAML marker slot.

A scalar in the slot may be an absent value or a flag. Any other node is read whole as a content
first, and what the content makes is told from the node (`Node.Fills`): the version and the removal
flag of a mapping come each from the member with its key, and those of a sequence from its first two
items, the only ones that it may have.
-/
import ApiSurface.Proofs.Wire.Record
import ApiSurface.Proofs.Yaml.MarkerSlot
import ApiSurface.Proofs.Yaml.Scalar

namespace ApiSurface.Yaml

/-! ### Records -/

/-- How the members of a mapping are read. -/
def members (anchors : Anchors) (depth : Nat) : MemberReading (Node × Node) where
  name m := (m.1.target anchors).text?
  value s m := s.ofNode? anchors depth m.2

theorem putNode?_eq_put (anchors : Anchors) (depth : Nat) : {σ α : Type} → (fields : Fields σ α) →
    (slots : σ) → (name : String) → (m : Node × Node) →
    fields.putNode? anchors depth slots name m.2 = fields.put (members anchors depth) slots name m
  | _, _, .nil, (), _, _ => rfl
  | _, _, .cons field s rest, (slot, slots), name, m => by
    cases slot with
    | none =>
      rw [Fields.putNode?, Fields.put, putNode?_eq_put anchors depth rest slots name m]
      rfl
    | some a => rw [Fields.putNode?, Fields.put, putNode?_eq_put anchors depth rest slots name m]

/-- A mapping is the record that its members make. -/
theorem ofNodes?_eq_make? {σ α : Type} (anchors : Anchors) (fields : Fields σ α) (depth : Nat)
    (ms : List (Node × Node)) :
    fields.ofNodes? anchors depth ms = fields.make? (members anchors depth) ms := by
  simp only [Fields.ofNodes?, Fields.putNodes?, Fields.make?, Fields.fill?, putNode?_eq_put]
  rfl

namespace Node

/-- The value under the first key with a name. -/
def value? (anchors : Anchors) (name : String) (ms : List (Node × Node)) : Option Node :=
  (ms.find? fun m => (m.1.target anchors).text? = some name).map (·.2)

/-- Whether at most one member has a name as its key. -/
def Once (anchors : Anchors) (name : String) (ms : List (Node × Node)) : Prop :=
  ms.Pairwise fun m m' =>
    (m.1.target anchors).text? = some name → (m'.1.target anchors).text? ≠ some name

/-! ### Details -/

/-- The member of a marker that a key stands for, by name or by position. -/
def key? : Node → Option Marker.Key
  | .scalar text style tag => match Scalar.ofEvent text style tag with
    | .ok (.text s) => Marker.keyOf (.text s)
    | .ok (.number n) => Marker.keyOf (.number n)
    | _ => none
  | _ => none

/-- A node without aliases that has a content is the key that its content is. -/
theorem key?_of_content {anchors : Anchors} {depth : Nat} {t : Node} {c : Content}
    (link : t.isLink = false) (h : t.content? anchors depth = some c) :
    Marker.keyOf c = t.key? := by
  cases t with
  | link => cases link
  | scalar text style tag =>
    rw [content?_scalar, unless_isSome, scalarContent?] at h
    obtain ⟨-, h⟩ := h
    rw [key?]
    cases hv : Scalar.ofEvent text style tag with
    | error e =>
      rw [hv] at h
      cases h
    | ok v =>
      rw [hv] at h
      cases v <;> cases h <;> rfl
  | sequence tag ts =>
    rw [content?_sequence, unless_isSome] at h
    obtain ⟨-, h⟩ := h
    obtain ⟨d, rfl, h⟩ := Yaml.below_eq_some h
    obtain ⟨cs, -, rfl⟩ := Option.map_eq_some_iff.mp h
    rfl
  | mapping tag ms =>
    rw [content?_mapping, unless_isSome] at h
    obtain ⟨-, h⟩ := h
    obtain ⟨d, rfl, h⟩ := Yaml.below_eq_some h
    obtain ⟨es, -, rfl⟩ := Option.map_eq_some_iff.mp h
    rfl

/-- A node that is no alias is read in its own place. -/
theorem target_of_isLink (anchors : Anchors) {t : Node} (h : t.isLink = false) :
    t.target anchors = t := by
  cases t with
  | link => cases h
  | _ => rfl

/-- The first member that a key stands for. -/
def detail? (key : Marker.Key) (ms : List (Node × Node)) : Option Node :=
  (ms.find? fun m => m.1.key? = some key).map (·.2)

/-- Whether all members have the key of a marker, each detail at most once. -/
structure Named (ms : List (Node × Node)) : Prop where
  keys : ∀ m ∈ ms, m.1.key?.isSome
  once : ms.Pairwise fun m m' => ∀ key, m.1.key? = some key → m'.1.key? = some key → key = .other

end Node

end ApiSurface.Yaml

namespace ApiSurface.Marker

open Yaml (Anchors Node)

/-- The marker that a mapping gives. -/
def ofMapping (ms : List (Node × Node)) : Marker where
  since := (Node.detail? .since ms).bind Node.version?
  forRemoval := (Node.detail? .forRemoval ms).bind Node.removal?

/-- The marker that the items of a sequence give. -/
def ofSequence (ts : List Node) : Marker where
  since := ts[0]?.bind Node.version?
  forRemoval := ts[1]?.bind Node.removal?

section Mapping

variable {anchors : Anchors} {n depth : Nat} {ms : List (Node × Node)}
  {es : List (Content × Content)}

/-- The members of a mapping and its entries, one by one. -/
theorem forall₂_pairs (h : ms.mapM (Node.pair? (Node.content? anchors depth)) = some es) :
    List.Forall₂ (fun m e => m.1.content? anchors depth = some e.1 ∧
      m.2.content? anchors depth = some e.2) ms es := by
  induction ms generalizing es with
  | nil =>
    cases h
    exact .nil
  | cons m ms ih =>
    rw [List.mapM_cons] at h
    obtain ⟨e, he, h⟩ := Option.bind_eq_some_iff.mp h
    obtain ⟨es', hes, h⟩ := Option.bind_eq_some_iff.mp h
    cases h
    obtain ⟨k, hk, he⟩ := Option.bind_eq_some_iff.mp he
    obtain ⟨c, hc, rfl⟩ := Option.map_eq_some_iff.mp he
    exact .cons ⟨hk, hc⟩ (ih hes)

/-- The entry of a detail is the content of the member with its key. -/
theorem contentOf?_pairs (keys : ∀ m ∈ ms, m.1.isLink = false)
    (h : ms.mapM (Node.pair? (Node.content? anchors depth)) = some es) (key : Key) :
    Option.Rel (fun t c => t.content? anchors depth = some c) (Node.detail? key ms)
      (contentOf? key es) := by
  have hpairs := forall₂_pairs h
  clear h
  induction hpairs with
  | nil => exact .none
  | @cons m e ms es hme _ ih =>
    obtain ⟨hm, hms⟩ := List.forall_mem_cons.mp keys
    have hkey := Node.key?_of_content hm hme.1
    rw [Node.detail?, contentOf?, List.find?_cons, List.find?_cons, ← hkey]
    by_cases hself : keyOf e.1 = some key
    · simp only [hself, decide_true]
      exact .some hme.2
    · simp only [hself, decide_false]
      exact ih hms

/-- The entries of a mapping have the keys of its members. -/
theorem map_keyOf (keys : ∀ m ∈ ms, m.1.isLink = false)
    (h : ms.mapM (Node.pair? (Node.content? anchors depth)) = some es) :
    es.map (fun e => keyOf e.1) = ms.map fun m => m.1.key? := by
  have hpairs := forall₂_pairs h
  clear h
  induction hpairs with
  | nil => rfl
  | cons hme _ ih =>
    obtain ⟨hm, hms⟩ := List.forall_mem_cons.mp keys
    rw [List.map_cons, List.map_cons, ih hms, Node.key?_of_content hm hme.1]

/-- The entries of a mapping are those of a marker if its members are. -/
theorem named_of_named (named : Node.Named ms) (keys : ∀ m ∈ ms, m.1.isLink = false)
    (h : ms.mapM (Node.pair? (Node.content? anchors depth)) = some es) : Named es := by
  have hkeys := map_keyOf keys h
  constructor
  · have hsome : ∀ k ∈ ms.map fun m => m.1.key?, k.isSome := List.forall_mem_map.mpr named.keys
    rw [← hkeys] at hsome
    exact List.forall_mem_map.mp hsome
  · have honce : (ms.map fun m => m.1.key?).Pairwise fun k k' =>
        ∀ key, k = some key → k' = some key → key = .other := List.pairwise_map.mpr named.once
    rw [← hkeys] at honce
    exact List.pairwise_map.mp honce

/-- What an entry gives is what its member gives. -/
theorem bind_detail? {α : Type} {inContent : Content → Option α} {inNode : Node → Option α}
    (hdetail : ∀ {t : Node} {c : Content}, t.content? anchors depth = some c →
      inContent c = inNode (t.target anchors))
    (keys : ∀ m ∈ ms, m.1.isLink = false) (values : ∀ m ∈ ms, m.2.isLink = false)
    (h : ms.mapM (Node.pair? (Node.content? anchors depth)) = some es) (key : Key) :
    ((contentOf? key es).map inContent).join = (Node.detail? key ms).bind inNode := by
  have hentry := contentOf?_pairs keys h key
  generalize contentOf? key es = e at hentry ⊢
  cases ht : Node.detail? key ms with
  | none =>
    rw [ht] at hentry
    cases hentry
    rfl
  | some t =>
    obtain ⟨m, hm, rfl⟩ := Option.map_eq_some_iff.mp ht
    have htarget := Node.target_of_isLink anchors (values m (List.mem_of_find?_eq_some hm))
    rw [ht] at hentry
    cases hentry with
    | some hc => rw [Option.bind_some, ← htarget, ← hdetail hc]; rfl

/-- The entries of a mapping make the marker that the mapping gives. -/
theorem ofEntries?_pairs (named : Node.Named ms) (keys : ∀ m ∈ ms, m.1.isLink = false)
    (values : ∀ m ∈ ms, m.2.isLink = false)
    (h : ms.mapM (Node.pair? (Node.content? anchors depth)) = some es) :
    ofEntries? none none es = some (ofMapping ms) := by
  have hsince := bind_detail? (fun hc => (Node.details_of_content hc).1) keys values h .since
  have hremoval :=
    bind_detail? (fun hc => (Node.details_of_content hc).2) keys values h .forRemoval
  refine ofEntries?_eq_some.mpr ⟨named_of_named named keys h, by simp, by simp, ?_⟩
  rw [ofMapping, ← hsince, ← hremoval]
  rfl

end Mapping

end ApiSurface.Marker

namespace ApiSurface.Yaml

/-! ### Absent values -/

section Scalars

variable {s t : String} {style : ScalarStyle} {tag : Option String}

/-- A text with a type is what it is as that type. -/
theorem Scalar.of_typed {value : Option Scalar} {expected : String} {v : Scalar}
    (h : typed s value expected = .ok v) : value = some v := by
  cases value with
  | none => cases h
  | some w => exact congrArg some (Except.ok.inj h)

/-- Among the tags only that of the absent value gives one, unless they name an alternative. -/
theorem Scalar.ofEvent_tag_null (unnamed : alternativeTag? (some t) = none)
    (h : ofEvent s style (some t) = .ok .null) : t = coreTag "null" ∧ isNull s = true := by
  rw [ofEvent] at h
  split at h
  · obtain ⟨b, -, hb⟩ := Option.map_eq_some_iff.mp (of_typed h)
    cases hb
  split at h
  · obtain ⟨i, hv⟩ | ⟨i, hv⟩ := ofInteger?_cases (of_typed h) <;> cases hv
  split at h
  · obtain ⟨b, hv⟩ | hv | ⟨x, hv⟩ := ofDecimal?_cases (of_typed h) <;> cases hv
  split at h
  · rename_i htag
    refine ⟨htag, ?_⟩
    cases hnull : isNull s with
    | true => rfl
    | false =>
      rw [hnull] at h
      cases h
  split at h
  · rename_i hnamed
    rw [unnamed] at hnamed
    cases hnamed
  · cases h

theorem Scalar.ofEvent_null (s : String) (style : ScalarStyle) :
    ofEvent s style (some (coreTag "null"))
      = typed s (if isNull s then some .null else none) "null" := by
  rw [ofEvent, if_neg (by decide), if_neg (by decide), if_neg (by decide), if_pos rfl]

namespace Node

theorem absent?_untagged (s : String) :
    (scalar s .plain none).absent? = some (s.isEmpty || Scalar.isNull s) := rfl

theorem absent?_typed (s t : String) : (scalar s .plain (some t)).absent?
    = if t = coreTag "null" then if Scalar.isNull s then some true else none else some false := by
  show (if t = coreTag "null" then if Scalar.isNull s then .ok true else .error _ else .ok false :
    Except Mismatch Bool).toOption = _
  split
  · split <;> rfl
  · rfl

theorem absent?_quoted (s : String) (tag : Option String) (h : style ≠ .plain) :
    (scalar s style tag).absent? = some false := by
  cases style with
  | plain => exact absurd rfl h
  | _ => rfl

/-- A plain scalar that stands for the absent value is absent. -/
theorem absent?_null (unnamed : alternativeTag? tag = none)
    (h : Scalar.ofEvent s .plain tag = .ok .null) : (scalar s .plain tag).absent? = some true := by
  cases tag with
  | none => rw [absent?_untagged, Scalar.ofPlain_eq_null.mp (Except.ok.inj h)]
  | some t =>
    obtain ⟨rfl, hnull⟩ := Scalar.ofEvent_tag_null unnamed h
    rw [absent?_typed, if_pos rfl, if_pos hnull]

/-- A scalar that is absent is plain and stands for the absent value. -/
theorem of_absent? (h : (scalar s style tag).absent? = some true) :
    style = .plain ∧ Scalar.ofEvent s style tag = .ok .null := by
  by_cases hplain : style = .plain
  · subst hplain
    refine ⟨rfl, ?_⟩
    cases tag with
    | none =>
      rw [absent?_untagged] at h
      exact congrArg Except.ok (Scalar.ofPlain_eq_null.mpr (Option.some.inj h))
    | some t =>
      rw [absent?_typed] at h
      split at h
      · rename_i htag
        rw [htag, Scalar.ofEvent_null]
        split at h
        · rename_i hnull
          rw [if_pos hnull]
          rfl
        · cases h
      · cases h
  · rw [absent?_quoted s tag hplain] at h
    cases h

/-- What stands under the name of an alternative is present. -/
theorem absent?_of_isTagged {t : Node} (h : t.isTagged = true) : t.absent? = some false := by
  cases t with
  | scalar s style tag =>
    by_cases hplain : style = .plain
    · subst hplain
      cases tag with
      | none => cases h
      | some t =>
        rw [absent?_typed, if_neg]
        rintro rfl
        cases h
    · exact absent?_quoted s tag hplain
  | _ => rfl

/-- A scalar with a meaning other than the absent value is present. -/
theorem absent?_of_ok {v : Scalar} (h : Scalar.ofEvent s style tag = .ok v) (hv : v ≠ .null) :
    (scalar s style tag).absent? = some false := by
  cases habsent : (scalar s style tag).absent? with
  | some absent =>
    cases absent with
    | false => rfl
    | true =>
      rw [(of_absent? habsent).2] at h
      exact absurd (Except.ok.inj h).symm hv
  | none =>
    -- only a text that its tag says is absent and that is not has no answer
    by_cases hplain : style = .plain
    · subst hplain
      cases tag with
      | none => cases habsent
      | some t =>
        rw [absent?_typed] at habsent
        split at habsent
        · rename_i htag
          rw [htag, Scalar.ofEvent_null] at h
          split at habsent
          · cases habsent
          · rename_i hnull
            rw [if_neg hnull] at h
            cases h
        · cases habsent
    · rw [absent?_quoted s tag hplain] at habsent
      cases habsent

end Node

end Scalars

end ApiSurface.Yaml

/-! ### Slots -/

namespace ApiSurface

open Yaml (Anchors Node Scalar)

/-- What becomes of a marker slot with a node in it, or without one: no marker, a marker, or nothing
at all. -/
inductive Yaml.Node.Fills : Option Node → Option (Option Marker) → Prop
  | missing : Fills none (some none)
  | absent {s : String} {tag : Option String} (unnamed : Yaml.alternativeTag? tag = none)
      (h : Scalar.ofEvent s .plain tag = .ok .null) : Fills (some (.scalar s .plain tag)) (some none)
  | flag {s : String} {style : Yaml.ScalarStyle} {tag : Option String} {b : Bool}
      (unnamed : Yaml.alternativeTag? tag = none) (h : Scalar.ofEvent s style tag = .ok (.bool b)) :
      Fills (some (.scalar s style tag)) (some (if b then some {} else none))
  /-- Any other text, number or absent value. -/
  | scalar {s : String} {style : Yaml.ScalarStyle} {tag : Option String}
      (absent : style = .plain → Scalar.ofEvent s style tag ≠ .ok .null)
      (flag : ∀ b, Scalar.ofEvent s style tag ≠ .ok (.bool b)) :
      Fills (some (.scalar s style tag)) none
  /-- Anything under the name of an alternative. -/
  | named {t : Node} (h : t.isTagged = true) : Fills (some t) none
  | mapping {tag : Option String} {ms : List (Node × Node)} (within : (Node.mapping tag ms).Within 100)
      (storable : (Node.mapping tag ms).Storable) (members : Node.Named ms) :
      Fills (some (.mapping tag ms)) (some (some (.ofMapping ms)))
  | items {tag : Option String} {ts : List Node} (within : (Node.sequence tag ts).Within 100)
      (storable : (Node.sequence tag ts).Storable) (short : ts.length ≤ 2) :
      Fills (some (.sequence tag ts)) (some (some (.ofSequence ts)))
  | long {tag : Option String} {ts : List Node} (long : 2 < ts.length) :
      Fills (some (.sequence tag ts)) none

section Slots

variable {anchors : Anchors} {depth : Nat}

/-- A node that is no absent value is what its content is in a slot. -/
theorem Marker.ofNode?_present {t : Node} (h : (t.target anchors).absent? = some false) :
    markerSlotShape.ofNode? anchors depth t
      = (t.content? anchors depth).bind fun c => (Marker.slotOf c).result.toOption := by
  have hjoin (o : Option (Option Marker)) : (o.map some).map Option.join = o := by
    cases o <;> rfl
  have htarget : (t.target anchors).content? anchors depth = t.content? anchors depth := by
    rw [Node.content?, Node.content?, Node.target_target]
  rw [markerSlotShape, Shape.ofNode?, Shape.ofNode?, h, Option.bind_some, if_neg (by simp),
    Shape.ofNode?, htarget]
  exact hjoin _

theorem Marker.ofNode?_refused {t : Node} (absent : (t.target anchors).absent? ≠ some true)
    (h : ∀ c, t.content? anchors depth = some c → (Marker.slotOf c).result.toOption = none) :
    markerSlotShape.ofNode? anchors depth t = none := by
  cases habsent : (t.target anchors).absent? with
  | none => rw [markerSlotShape, Shape.ofNode?, Shape.ofNode?, habsent]; rfl
  | some absent' =>
    cases absent' with
    | true => exact absurd habsent absent
    | false =>
      rw [Marker.ofNode?_present habsent]
      exact Option.bind_eq_none_iff.mpr h

/-- A scalar that is neither absent nor a flag is refused. -/
theorem Marker.ofNode?_slot_scalar {s : String} {style : Yaml.ScalarStyle} {tag : Option String}
    (absent : style = .plain → Scalar.ofEvent s style tag ≠ .ok .null)
    (flag : ∀ b, Scalar.ofEvent s style tag ≠ .ok (.bool b)) :
    markerSlotShape.ofNode? anchors depth (.scalar s style tag) = none := by
  refine Marker.ofNode?_refused (fun habsent => ?_) fun c hc => ?_
  · obtain ⟨hplain, hnull⟩ := Node.of_absent? habsent
    exact absent hplain hnull
  · rw [Node.content?_scalar, Node.unless_isSome, Node.scalarContent?] at hc
    obtain ⟨-, hc⟩ := hc
    cases hv : Scalar.ofEvent s style tag with
    | error e =>
      rw [hv] at hc
      cases hc
    | ok v =>
      rw [hv] at hc
      cases v with
      | bool b => exact absurd hv (flag b)
      | _ => cases hc <;> rfl

/-- What stands under the name of an alternative is refused. -/
theorem Marker.ofNode?_slot_tagged {t : Node} (h : t.isTagged = true) :
    markerSlotShape.ofNode? anchors depth t = none := by
  have hlink : t.isLink = false := by
    cases t with
    | link => cases h
    | _ => rfl
  have htarget := Node.target_of_isLink anchors hlink
  have habsent : (t.target anchors).absent? = some false := by
    rw [htarget]
    exact Node.absent?_of_isTagged h
  rw [Marker.ofNode?_present habsent, Node.content?, htarget, if_pos h]
  rfl

/-- A mapping of a marker is read as the marker that it gives. -/
theorem Marker.ofNode?_slot_mapping {tag : Option String} {ms : List (Node × Node)}
    (within : (Node.mapping tag ms).Within 100) (storable : (Node.mapping tag ms).Storable)
    (members : Node.Named ms) (hdepth : 100 ≤ depth) :
    markerSlotShape.ofNode? anchors depth (.mapping tag ms) = some (some (.ofMapping ms)) := by
  obtain ⟨c, hc⟩ : ∃ c, (Node.mapping tag ms).content? anchors depth = some c :=
    within.exists_content hdepth storable
  rw [Node.content?_mapping, Node.unless_isSome] at hc
  obtain ⟨unnamed, hc⟩ := hc
  obtain ⟨depth, rfl, hc⟩ := Yaml.below_eq_some hc
  obtain ⟨es, hes, -⟩ := Option.map_eq_some_iff.mp hc
  cases within with
  | mapping _ keys values =>
    have hmarker := Marker.ofEntries?_pairs members (fun m hm => (keys m hm).isLink)
      (fun m hm => (values m hm).isLink) hes
    rw [ofNode?_slot, unnamed, Yaml.below, hes, Option.bind_some, hmarker]
    rfl

/-- A short list is read as the marker that its items give. -/
theorem Marker.ofNode?_slot_items {tag : Option String} {ts : List Node}
    (within : (Node.sequence tag ts).Within 100) (storable : (Node.sequence tag ts).Storable)
    (short : ts.length ≤ 2) (hdepth : 100 ≤ depth) :
    markerSlotShape.ofNode? anchors depth (.sequence tag ts) = some (some (.ofSequence ts)) := by
  have hslot : markerSlotShape.ofNode? anchors depth (.sequence tag ts)
      = ((Node.sequence tag ts).content? anchors depth).bind fun c =>
        (Marker.slotOf c).result.toOption := Marker.ofNode?_present rfl
  obtain ⟨c, hc⟩ : ∃ c, (Node.sequence tag ts).content? anchors depth = some c :=
    within.exists_content hdepth storable
  rw [Node.content?_sequence, Node.unless_isSome] at hc
  obtain ⟨unnamed, hc⟩ := hc
  obtain ⟨depth, rfl, hc⟩ := Yaml.below_eq_some hc
  obtain ⟨cs, hcs, rfl⟩ := Option.map_eq_some_iff.mp hc
  cases within with
  | sequence _ within =>
    have hmarker : (Marker.ofItems cs).result.toOption
        = if ts.length ≤ 2 then some (Marker.ofSequence ts) else none := by
      refine Marker.ofItems_mapM hcs fun t ht c hc => ?_
      have hdetails := Node.details_of_content hc
      rwa [Node.target_of_isLink anchors (within t ht).isLink] at hdetails
    rw [hslot, Node.content?_sequence, unnamed, Yaml.below, hcs]
    show (Marker.slotOf (.list cs)).result.toOption = _
    rw [Marker.slotOf_list, hmarker, if_pos short]
    rfl

/-- A list of more than two items is refused, whatever they are. -/
theorem Marker.ofNode?_slot_long {tag : Option String} {ts : List Node} (long : 2 < ts.length) :
    markerSlotShape.ofNode? anchors depth (.sequence tag ts) = none := by
  refine Marker.ofNode?_refused (by simp [Node.target, Node.absent?]) fun c hc => ?_
  rw [Node.content?_sequence, Node.unless_isSome] at hc
  obtain ⟨-, hc⟩ := hc
  obtain ⟨depth, rfl, hc⟩ := Yaml.below_eq_some hc
  obtain ⟨cs, hcs, rfl⟩ := Option.map_eq_some_iff.mp hc
  rw [Marker.slotOf_list, Marker.ofItems_result, length_mapM hcs, if_neg (by omega)]
  rfl

/-- A slot is read as the form of its node says. -/
theorem Yaml.Node.Fills.ofNode? {t : Node} {o : Option (Option Marker)} (h : Node.Fills (some t) o)
    (hdepth : 100 ≤ depth) : markerSlotShape.ofNode? anchors depth t = o := by
  cases h with
  | absent unnamed h =>
    rw [markerSlotShape, Shape.ofNode?, Shape.ofNode?]
    show (((Node.scalar _ _ _).absent?).bind _).map _ = _
    rw [Node.absent?_null unnamed h]
    rfl
  | @flag s style tag b unnamed h =>
    have hcontent : (Node.scalar s style tag).content? anchors depth = some (.bool b) := by
      rw [Node.content?_scalar, unnamed, Node.scalarContent?, h]
      rfl
    have habsent : ((Node.scalar s style tag).target anchors).absent? = some false :=
      Node.absent?_of_ok h (by simp)
    rw [Marker.ofNode?_present habsent, hcontent]
    rfl
  | scalar absent flag => exact Marker.ofNode?_slot_scalar absent flag
  | named h => exact Marker.ofNode?_slot_tagged h
  | mapping within storable members =>
    exact Marker.ofNode?_slot_mapping within storable members hdepth
  | items within storable short => exact Marker.ofNode?_slot_items within storable short hdepth
  | long long => exact Marker.ofNode?_slot_long long

end Slots

end ApiSurface
