/-
Another node in the place of what a marker holds under one of its keys.

`Replacement.Alike r s p t t'` says that `t'` is `t` with the new node in markers at the spots `p`,
be they reached directly or through aliases. By induction on it, the value of `t'` is the value of
`t` but for the detail in those markers if the new node has a content (`Alike.ofNode?_apart`), and
there is no value if it has none (`Alike.ofNode?_eq_none`).
-/
import ApiSurface.Proofs.Wire.Apart
import ApiSurface.Proofs.Wire.Kept
import ApiSurface.Proofs.Yaml.MarkerSlot

namespace ApiSurface.Yaml

/-- A node for the place of what a marker holds under a key, and the nodes that aliases lead to
before and after. -/
structure Replacement where
  anchors : Anchors
  anchors' : Anchors
  /-- Which aliases lead to the same nodes. -/
  link : Nat → Nat → Prop
  corresponds : anchors.Correspond anchors' link
  key : Marker.Key
  new : Node

mutual

/-- Whether a node becomes another if the new node is put into markers at some spots of its
value. -/
inductive Replacement.Alike (r : Replacement) : {α : Type} → Shape α → Spots → Node → Node → Prop
  | same {α : Type} {s : Shape α} {t t' : Node} (h : t.Same r.link t') : Alike r s .none t t'
  | link {α : Type} {s : Shape α} {p : Spots} {n n' : Nat}
      (h : Alike r s p (r.anchors.node n) (r.anchors'.node n')) : Alike r s p (.link n) (.link n')
  | slot {tag : Option String} {before before' after after' : List (Node × Node)}
      {key key' old : Node} (hbefore : List.Forall₂ (Node.Both (Node.Same r.link)) before before')
      (hkey : key.Same r.link key')
      (hafter : List.Forall₂ (Node.Both (Node.Same r.link)) after after')
      (detail : (key.content? r.anchors 0).bind Marker.keyOf = some r.key) :
      Alike r markerSlotShape .here (.mapping tag (before ++ (key, old) :: after))
        (.mapping tag (before' ++ (key', r.new) :: after'))
  | view {α β : Type} {s : Shape α} {p : Spots} {t t' : Node} (there : α → β) (back : β → α)
      (h : Alike r s p t t') : Alike r (.view there back s) p t t'
  | optional {α : Type} {s : Shape α} {p : Spots} {t t' : Node} (h : Alike r s p t t') :
      Alike r (.optional s) p t t'
  | item {α : Type} {s : Shape α} {p q : Spots} {tag : Option String} {t t' : Node}
      {ts ts' : List Node} (h : Alike r s p t t')
      (hs : Alike r (.list s) q (.sequence tag ts) (.sequence tag ts')) :
      Alike r (.list s) (.items p q) (.sequence tag (t :: ts)) (.sequence tag (t' :: ts'))
  | record {σ α : Type} {fields : Fields σ α} {f : Nat → Spots} {ms ms' : List (Node × Node)}
      (label : String) (tag : Option String) (h : AlikeMembers r fields (fun _ => .none) f ms ms') :
      Alike r (.record label fields) (.fields f) (.mapping tag ms) (.mapping tag ms')
  | keyed {α β : Type} {s : Shape α} {p : Spots} {choice : Alternatives α β} {name : String}
      {make : α → β} (hmake : choice.variants.lookup name = some (.carrying make))
      {tag : Option String} {key key' t t' : Node} (hkey : key.Same r.link key')
      (hname : (key.target r.anchors).text? = some name) (h : Alike r s p t t') :
      Alike r (.keyed choice s) p (.mapping tag [(key, t)]) (.mapping tag [(key', t')])

/-- Whether members become others if the new node is put into markers at some spots of the fields,
with those of the members before and of all of them. -/
inductive Replacement.AlikeMembers (r : Replacement) : {σ α : Type} → Fields σ α →
    (Nat → Spots) → (Nat → Spots) → List (Node × Node) → List (Node × Node) → Prop
  | nil {σ α : Type} {fields : Fields σ α} {f : Nat → Spots} : AlikeMembers r fields f f [] []
  | known {σ α β : Type} {fields : Fields σ α} {s : Shape β} {f g : Nat → Spots} {p : Spots}
      {i : Nat} {name : String} {key key' t t' : Node} {ms ms' : List (Node × Node)}
      (hkey : key.Same r.link key') (hname : (key.target r.anchors).text? = some name)
      (hfield : fields.Has i name s) (h : Alike r s p t t')
      (hs : AlikeMembers r fields (Function.update f i p) g ms ms') :
      AlikeMembers r fields f g ((key, t) :: ms) ((key', t') :: ms')
  | unknown {σ α : Type} {fields : Fields σ α} {f g : Nat → Spots} {name : String}
      {key key' t t' : Node} {ms ms' : List (Node × Node)}
      (hkey : key.Same r.link key') (hname : (key.target r.anchors).text? = some name)
      (other : name ∉ fields.names) (hs : AlikeMembers r fields f g ms ms') :
      AlikeMembers r fields f g ((key, t) :: ms) ((key', t') :: ms')

end

end ApiSurface.Yaml

namespace ApiSurface

open Yaml (Node Anchors Replacement)

/-! ### Slots -/

section Slots

variable {R : Marker → Marker → Prop} {σ α β : Type} {fields : Fields σ α} {s : Shape β}
  {f : Nat → Spots} {p : Spots} {i depth : Nat} {name : String} {t t' : Node} {slots slots' : σ}
  {anchors anchors' : Anchors}

theorem Fields.putNode?_unknown : {σ α : Type} → (fields : Fields σ α) → (slots : σ) →
    name ∉ fields.names → fields.putNode? anchors depth slots name t = some slots
  | _, _, .nil, (), _ => rfl
  | _, _, .cons field _ rest, (slot, slots), h => by
    rw [names, List.mem_cons, not_or] at h
    rw [putNode?_other h.1, putNode?_unknown rest slots h.2]
    rfl

/-- A member without a value spoils the record. -/
theorem Fields.Has.putNode?_eq_none (h : fields.Has i name s)
    (ht : s.ofNode? anchors depth t = none) (slots : σ) :
    fields.putNode? anchors depth slots name t = none := by
  induction h with
  | head =>
    obtain ⟨slot, slots⟩ := slots
    cases slot with
    | none => rw [Fields.putNode?_same rfl, ht]; rfl
    | some a => rw [Fields.putNode?_twice rfl]
  | tail other _ ih =>
    obtain ⟨slot, slots⟩ := slots
    rw [Fields.putNode?_other other, ih ht]
    rfl

/-- Slots into which members are put differ where they or the members do. -/
theorem Fields.SlotsApart.putNode? (hs : fields.SlotsApart R f slots slots')
    (hfield : fields.Has i name s)
    (ht : ∀ a, s.ofNode? anchors depth t = some a →
      ∃ a', s.ofNode? anchors' depth t' = some a' ∧ s.Apart R p a a') {put : σ}
    (hput : fields.putNode? anchors depth slots name t = some put) :
    ∃ put', fields.putNode? anchors' depth slots' name t' = some put' ∧
      fields.SlotsApart R (Function.update f i p) put put' := by
  induction hfield generalizing f with
  | head =>
    obtain ⟨slot, slots⟩ := slots
    obtain ⟨slot', slots'⟩ := slots'
    obtain ⟨hslot, hslots⟩ := hs
    -- a name that was there before is refused on both sides
    cases hslot with
    | filled => rw [Fields.putNode?_twice rfl] at hput; cases hput
    | missing =>
      rw [Fields.putNode?_same rfl] at hput ⊢
      obtain ⟨a, ha, rfl⟩ := Option.map_eq_some_iff.mp hput
      obtain ⟨a', ha', hapart⟩ := ht a ha
      refine ⟨_, by rw [ha']; rfl, .filled ?_, ?_⟩
      · rwa [Function.update_self]
      · simpa using hslots
  | @tail α σ β γ field s rest i name s' other _ ih =>
    obtain ⟨slot, slots⟩ := slots
    obtain ⟨slot', slots'⟩ := slots'
    obtain ⟨hslot, hslots⟩ := hs
    rw [Fields.putNode?_other other] at hput ⊢
    obtain ⟨put, hrest, rfl⟩ := Option.map_eq_some_iff.mp hput
    obtain ⟨put', hrest', hapart⟩ := ih hslots ht hrest
    -- seen from the later fields the spot has moved by one
    have hlater : (fun j => Function.update f (i + 1) p (j + 1))
        = Function.update (fun j => f (j + 1)) i p := by
      funext j
      simp [Function.update_apply]
    refine ⟨_, by rw [hrest']; rfl, ?_, ?_⟩
    · simpa using hslot
    · rwa [hlater]

end Slots

/-! ### Nodes of a shape -/

section Shapes

variable {α β : Type} {s : Shape α} {anchors : Anchors} {tag : Option String} {depth : Nat}

theorem Shape.ofNode?_item (t : Node) (ts : List Node) :
    (Shape.list s).ofNode? anchors (depth + 1) (.sequence tag (t :: ts))
      = (s.ofNode? anchors depth t).bind fun a =>
        ((Shape.list s).ofNode? anchors (depth + 1) (.sequence tag ts)).map (a :: ·) := by
  rw [ofNode?_sequence, ofNode?_sequence, Yaml.below, Yaml.below, List.mapM_cons]
  cases s.ofNode? anchors depth t <;> cases ts.mapM (s.ofNode? anchors depth) <;> rfl

theorem Shape.ofNode?_keyed {choice : Alternatives α β} {name : String} {make : α → β}
    (hmake : choice.variants.lookup name = some (.carrying make)) {key : Node}
    (hname : (key.target anchors).text? = some name) (t : Node) :
    (Shape.keyed choice s).ofNode? anchors depth (.mapping tag [(key, t)])
      = Yaml.below depth fun depth => if (Yaml.alternativeTag? tag).isSome then none
        else Yaml.below depth fun depth => (s.ofNode? anchors depth t).map make := by
  have hmember (value? : Node → Option α) :
      Node.member? anchors choice value? [(key, t)] = (value? t).map make := by
    rw [Node.member?, hname, Option.bind_some, hmake]
    cases value? t <;> rfl
  rw [ofNode?]
  refine congrArg _ (funext fun depth => ?_)
  show (if (Yaml.alternativeTag? tag).isSome then none else Yaml.below depth fun depth =>
    Node.member? anchors choice (s.ofNode? anchors depth) [(key, t)]) = _
  simp only [hmember]

theorem Fields.putNodes?_cons {σ : Type} {fields : Fields σ α} {key : Node} {name : String}
    (hname : (key.target anchors).text? = some name) (t : Node) (ms : List (Node × Node))
    (slots : σ) :
    fields.putNodes? anchors depth slots ((key, t) :: ms)
      = (fields.putNode? anchors depth slots name t).bind fun slots =>
        fields.putNodes? anchors depth slots ms := by
  rw [putNodes?, List.foldlM_cons, hname]
  rfl

end Shapes

/-! ### Markers -/

namespace Yaml

/-- A list is made into values item by item. -/
theorem mapM_middle {ι α : Type} (f : ι → Option α) (before after : List ι) (a : ι) :
    (before ++ a :: after).mapM f = (before.mapM f).bind fun bs =>
      (f a).bind fun b => (after.mapM f).map (bs ++ b :: ·) := by
  rw [List.mapM_append, List.mapM_cons]
  cases before.mapM f <;> cases f a <;> cases after.mapM f <;> rfl

end Yaml

namespace Yaml.Replacement

variable {r : Replacement} {c : Content} {depth : Nat} {tag : Option String}
  {before before' after after' : List (Node × Node)} {key key' old : Node}

/-- A marker with the new node in it is the marker with its detail taken from the new content. -/
theorem ofNode?_slot_replace (hnew : r.new.content? r.anchors' depth = some c)
    (hbefore : List.Forall₂ (Node.Both (Node.Same r.link)) before before')
    (hkey : key.Same r.link key')
    (hafter : List.Forall₂ (Node.Both (Node.Same r.link)) after after')
    (detail : (key.content? r.anchors 0).bind Marker.keyOf = some r.key) {o : Option Marker}
    (ho : markerSlotShape.ofNode? r.anchors (depth + 1)
      (.mapping tag (before ++ (key, old) :: after)) = some o) :
    ∃ m, o = some m ∧ markerSlotShape.ofNode? r.anchors' (depth + 1)
      (.mapping tag (before' ++ (key', r.new) :: after')) = some (some (m.replace r.key c)) := by
  obtain ⟨k, hk, hdetail⟩ := Option.bind_eq_some_iff.mp detail
  have hk := Node.content?_of_zero hk depth
  have hk' := (content?_congr r.corresponds hkey depth).symm.trans hk
  -- the other members give the same entries
  have hentries {ms ms' : List (Node × Node)}
      (h : List.Forall₂ (Node.Both (Node.Same r.link)) ms ms') :
      ms.mapM (Node.pair? (Node.content? r.anchors depth))
        = ms'.mapM (Node.pair? (Node.content? r.anchors' depth)) := by
    refine mapM_eq_of_forall₂ (pair?_congr fun _ _ h => ?_) h
    exact content?_congr r.corresponds h depth
  rw [ofNode?_slot, Node.unless_isSome, below] at ho
  obtain ⟨htag, ho⟩ := ho
  obtain ⟨es, hes, ho⟩ := Option.bind_eq_some_iff.mp ho
  obtain ⟨m, hm, rfl⟩ := Option.map_eq_some_iff.mp ho
  rw [mapM_middle] at hes
  obtain ⟨bs, hbs, hes⟩ := Option.bind_eq_some_iff.mp hes
  obtain ⟨e, he, hes⟩ := Option.bind_eq_some_iff.mp hes
  obtain ⟨as, has, rfl⟩ := Option.map_eq_some_iff.mp hes
  rw [Node.pair?, hk, Option.bind_some] at he
  obtain ⟨c', -, rfl⟩ := Option.map_eq_some_iff.mp he
  have hes' : (before' ++ (key', r.new) :: after').mapM
      (Node.pair? (Node.content? r.anchors' depth)) = some (bs ++ (k, c) :: as) := by
    rw [mapM_middle, ← hentries hbefore, hbs, Node.pair?, hk', hnew, ← hentries hafter, has]
    rfl
  refine ⟨m, rfl, ?_⟩
  rw [ofNode?_slot, Node.unless_isSome, below, hes', Option.bind_some,
    Marker.ofEntries?_replace hdetail c' c, hm]
  exact ⟨htag, rfl⟩

/-- A marker with the new node in it is none if the new node has no content. -/
theorem ofNode?_slot_eq_none (hnew : ∀ depth, r.new.content? r.anchors' depth = none) :
    markerSlotShape.ofNode? r.anchors' depth (.mapping tag (before ++ (key, r.new) :: after))
      = none := by
  have hpair (depth : Nat) : Node.pair? (Node.content? r.anchors' depth) (key, r.new) = none := by
    rw [Node.pair?, hnew]
    cases key.content? r.anchors' depth <;> rfl
  rw [ofNode?_slot, below_eq_none, ite_self]
  intro depth
  rw [mapM_middle, hpair]
  cases before.mapM (Node.pair? (Node.content? r.anchors' depth)) <;> rfl

/-! ### Whole documents -/

/-- Alike nodes are absent together, and not if a marker is in them. -/
theorem Alike.absent?_eq : {α : Type} → {s : Shape α} → {p : Spots} → {t t' : Node} →
    r.Alike s p t t' →
    (t'.target r.anchors').absent? = (t.target r.anchors).absent? ∧
      (p = .none ∨ (t.target r.anchors).absent? = some false)
  | _, _, _, _, _, .same h => ⟨(same_target r.corresponds h).absent?_eq.symm, .inl rfl⟩
  | _, _, _, .link n, .link n', .link h => by
    have hself := Node.target_target r.anchors (.link n)
    have hself' := Node.target_target r.anchors' (.link n')
    rw [← hself, ← hself']
    exact Alike.absent?_eq h
  | _, _, _, _, _, .view _ _ h => Alike.absent?_eq h
  | _, _, _, _, _, .optional h => Alike.absent?_eq h
  | _, _, _, _, _, .slot .. => ⟨rfl, .inr rfl⟩
  | _, _, _, _, _, .item .. => ⟨rfl, .inr rfl⟩
  | _, _, _, _, _, .record .. => ⟨rfl, .inr rfl⟩
  | _, _, _, _, _, .keyed .. => ⟨rfl, .inr rfl⟩

mutual

/-- What is read of alike nodes is equal but for the detail in the markers with the new node. -/
theorem Alike.ofNode?_apart
    (hnew : ∀ depth, 100 ≤ depth → r.new.content? r.anchors' depth = some c) : {α : Type} →
    {s : Shape α} → {p : Spots} → {t t' : Node} → r.Alike s p t t' → {depth : Nat} →
    101 + 2 * s.levels ≤ depth → {a : α} → s.ofNode? r.anchors depth t = some a →
    ∃ a', s.ofNode? r.anchors' depth t' = some a' ∧
      s.Apart (fun m m' => m' = m.replace r.key c) p a a'
  | _, s, _, _, _, .same h, depth, _, a, ha =>
    ⟨a, by rw [← Shape.ofNode?_congr r.corresponds s depth h, ha], .same a⟩
  | _, _, _, _, _, .link h, depth, hdepth, a, ha => by
    rw [← Shape.ofNode?_target] at ha ⊢
    exact Alike.ofNode?_apart hnew h hdepth ha
  | _, _, _, _, _, .slot hbefore hkey hafter detail, depth, hdepth, a, ha => by
    obtain ⟨depth, rfl⟩ : ∃ d, depth = d + 1 := ⟨depth - 1, by omega⟩
    obtain ⟨m, rfl, hm⟩ :=
      ofNode?_slot_replace (hnew depth (by omega)) hbefore hkey hafter detail ha
    exact ⟨_, hm, .marker rfl⟩
  | _, _, _, _, _, .view there back h, depth, hdepth, a, ha => by
    rw [Shape.ofNode?] at ha ⊢
    obtain ⟨x, hx, rfl⟩ := Option.map_eq_some_iff.mp ha
    obtain ⟨x', hx', hapart⟩ := Alike.ofNode?_apart hnew h hdepth hx
    exact ⟨there x', by rw [hx']; rfl, .view there back hapart⟩
  | _, _, _, _, _, .optional h, depth, hdepth, a, ha => by
    rw [Shape.ofNode?, Shape.ofNode?_target] at ha ⊢
    obtain ⟨habsent, hsome⟩ := h.absent?_eq
    obtain ⟨absent, hread, ha⟩ := Option.bind_eq_some_iff.mp ha
    rw [habsent, hread, Option.bind_some]
    cases absent with
    | true =>
      -- No marker is in a node that is absent.
      obtain rfl | hpresent := hsome
      · cases ha
        exact ⟨none, rfl, .same none⟩
      · rw [hread] at hpresent
        cases hpresent
    | false =>
      obtain ⟨x, hx, rfl⟩ := Option.map_eq_some_iff.mp ha
      obtain ⟨x', hx', hapart⟩ := Alike.ofNode?_apart hnew h hdepth hx
      exact ⟨some x', by rw [hx']; rfl, .optional hapart⟩
  | _, _, _, _, _, .item h hs, depth, hdepth, a, ha => by
    have hlevels := hdepth
    rw [Shape.levels] at hlevels
    obtain ⟨depth, rfl⟩ : ∃ d, depth = d + 1 := ⟨depth - 1, by omega⟩
    rw [Shape.ofNode?_item] at ha ⊢
    obtain ⟨x, hx, ha⟩ := Option.bind_eq_some_iff.mp ha
    obtain ⟨xs, hxs, rfl⟩ := Option.map_eq_some_iff.mp ha
    obtain ⟨x', hx', hapart⟩ := Alike.ofNode?_apart hnew h (by omega) hx
    obtain ⟨xs', hxs', hapart'⟩ := Alike.ofNode?_apart hnew hs hdepth hxs
    exact ⟨x' :: xs', by rw [hx', hxs']; rfl, .item hapart hapart'⟩
  | _, _, _, _, _, .record label tag h, depth, hdepth, a, ha => by
    rw [Shape.levels] at hdepth
    obtain ⟨depth, rfl⟩ : ∃ d, depth = d + 1 := ⟨depth - 1, by omega⟩
    rw [Shape.ofNode?_mapping] at ha ⊢
    obtain ⟨slots, hslots, ha⟩ := Option.bind_eq_some_iff.mp ha
    obtain ⟨slots', hslots', hapart⟩ :=
      AlikeMembers.putNodes?_apart hnew h (by omega) (Fields.slotsApart_empty _) hslots
    obtain ⟨a', ha', hapart⟩ := hapart.finish ha
    refine ⟨a', ?_, .record label hapart⟩
    rw [below, Fields.ofNodes?, hslots', Option.bind_some, ha']
  | _, _, _, _, _, .keyed hmake hkey hname h, depth, hdepth, a, ha => by
    rw [Shape.levels] at hdepth
    obtain ⟨depth, rfl⟩ : ∃ d, depth = d + 2 := ⟨depth - 2, by omega⟩
    have hname' := (same_target r.corresponds hkey).text?_eq.symm.trans hname
    rw [Shape.ofNode?_keyed hmake hname, below, Node.unless_isSome, below] at ha
    simp only [Shape.ofNode?_keyed hmake hname', below, Node.unless_isSome]
    obtain ⟨htag, ha⟩ := ha
    obtain ⟨x, hx, rfl⟩ := Option.map_eq_some_iff.mp ha
    obtain ⟨x', hx', hapart⟩ := Alike.ofNode?_apart hnew h (by omega) hx
    exact ⟨_, ⟨htag, by rw [hx']; rfl⟩, .keyed hmake hapart⟩

theorem AlikeMembers.putNodes?_apart
    (hnew : ∀ depth, 100 ≤ depth → r.new.content? r.anchors' depth = some c) : {σ α : Type} →
    {fields : Fields σ α} → {f g : Nat → Spots} → {ms ms' : List (Node × Node)} →
    r.AlikeMembers fields f g ms ms' → {depth : Nat} → 101 + 2 * fields.levels ≤ depth →
    {slots slots' : σ} → fields.SlotsApart (fun m m' => m' = m.replace r.key c) f slots slots' →
    {put : σ} → fields.putNodes? r.anchors depth slots ms = some put →
    ∃ put', fields.putNodes? r.anchors' depth slots' ms' = some put' ∧
      fields.SlotsApart (fun m m' => m' = m.replace r.key c) g put put'
  | _, _, _, _, _, _, _, .nil, _, _, _, slots', hs, _, rfl => ⟨slots', rfl, hs⟩
  | _, _, _, _, _, _, _, .known hkey hname hfield h hrest, depth, hdepth, _, _, hs, put, hput => by
    have hname' := (same_target r.corresponds hkey).text?_eq.symm.trans hname
    rw [Fields.putNodes?_cons hname] at hput
    rw [Fields.putNodes?_cons hname']
    obtain ⟨mid, hmid, hput⟩ := Option.bind_eq_some_iff.mp hput
    have hlevels := hfield.levels_le
    obtain ⟨mid', hmid', hs⟩ := hs.putNode? hfield
      (fun a ha => Alike.ofNode?_apart hnew h (by omega) ha) hmid
    rw [hmid', Option.bind_some]
    exact AlikeMembers.putNodes?_apart hnew hrest hdepth hs hput
  | _, _, _, _, _, _, _, .unknown hkey hname other hrest, depth, hdepth, _, _, hs, put, hput => by
    have hname' := (same_target r.corresponds hkey).text?_eq.symm.trans hname
    rw [Fields.putNodes?_cons hname, Fields.putNode?_unknown _ _ other] at hput
    rw [Fields.putNodes?_cons hname', Fields.putNode?_unknown _ _ other]
    exact AlikeMembers.putNodes?_apart hnew hrest hdepth hs hput

end

mutual

/-- A node with the new node in any of its markers stands for nothing if the new node has no
content. -/
theorem Alike.ofNode?_eq_none (hnew : ∀ depth, r.new.content? r.anchors' depth = none) :
    {α : Type} → {s : Shape α} → {p : Spots} → {t t' : Node} → r.Alike s p t t' → p.Any →
    (depth : Nat) → s.ofNode? r.anchors' depth t' = none
  | _, _, _, _, _, .same _, hp, _ => by cases hp
  | _, _, _, _, _, .link h, hp, depth => by
    rw [← Shape.ofNode?_target]
    exact Alike.ofNode?_eq_none hnew h hp depth
  | _, _, _, _, _, .slot .., _, _ => ofNode?_slot_eq_none hnew
  | _, _, _, _, _, .view there back h, hp, depth => by
    rw [Shape.ofNode?, Alike.ofNode?_eq_none hnew h hp]
    rfl
  | _, _, _, _, _, .optional h, hp, depth => by
    obtain ⟨habsent, rfl | hpresent⟩ := h.absent?_eq
    · cases hp
    · rw [Shape.ofNode?, Shape.ofNode?_target, Alike.ofNode?_eq_none hnew h hp, habsent, hpresent]
      rfl
  | _, _, _, _, _, .item h hs, hp, 0 => rfl
  | _, _, _, _, _, .item h hs, .head hp, depth + 1 => by
    rw [Shape.ofNode?_item, Alike.ofNode?_eq_none hnew h hp, Option.bind_none]
  | _, _, _, _, _, .item h hs, .tail hp, depth + 1 => by
    rw [Shape.ofNode?_item, Alike.ofNode?_eq_none hnew hs hp]
    exact Option.bind_fun_none _
  | _, _, _, _, _, .record label tag h, .field i hp, depth => by
    obtain hbefore | hnone := AlikeMembers.putNodes?_eq_none hnew h hp
    · cases hbefore
    · rw [Shape.ofNode?_mapping]
      refine below_eq_none (fun depth => ?_) depth
      rw [Fields.ofNodes?, hnone, Option.bind_none]
  | _, _, _, _, _, .keyed hmake hkey hname h, hp, depth => by
    have hname' := (same_target r.corresponds hkey).text?_eq.symm.trans hname
    rw [Shape.ofNode?_keyed hmake hname']
    refine below_eq_none (fun depth => ?_) depth
    rw [below_eq_none (fun depth => by rw [Alike.ofNode?_eq_none hnew h hp, Option.map_none]),
      ite_self]

theorem AlikeMembers.putNodes?_eq_none (hnew : ∀ depth, r.new.content? r.anchors' depth = none) :
    {σ α : Type} → {fields : Fields σ α} → {f g : Nat → Spots} → {ms ms' : List (Node × Node)} →
    r.AlikeMembers fields f g ms ms' → {i : Nat} → (g i).Any →
    (f i).Any ∨ ∀ depth slots, fields.putNodes? r.anchors' depth slots ms' = none
  | _, _, _, _, _, _, _, .nil, _, hp => .inl hp
  | _, _, _, _, _, _, _, .known hkey hname hfield h hrest, i, hp => by
    have hname' := (same_target r.corresponds hkey).text?_eq.symm.trans hname
    obtain hbefore | hnone := AlikeMembers.putNodes?_eq_none hnew hrest hp
    · rw [Function.update_apply] at hbefore
      split at hbefore
      · refine .inr fun depth slots => ?_
        rw [Fields.putNodes?_cons hname',
          hfield.putNode?_eq_none (Alike.ofNode?_eq_none hnew h hbefore depth), Option.bind_none]
      · exact .inl hbefore
    · refine .inr fun depth slots => ?_
      rw [Fields.putNodes?_cons hname', funext (hnone depth)]
      exact Option.bind_fun_none _
  | _, _, _, _, _, _, _, .unknown hkey hname other hrest, i, hp => by
    have hname' := (same_target r.corresponds hkey).text?_eq.symm.trans hname
    obtain hbefore | hnone := AlikeMembers.putNodes?_eq_none hnew hrest hp
    · exact .inl hbefore
    · refine .inr fun depth slots => ?_
      rw [Fields.putNodes?_cons hname', Fields.putNode?_unknown _ _ other, Option.bind_some, hnone]

end

end Yaml.Replacement

end ApiSurface
