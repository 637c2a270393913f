/-
Nodes that differ in the numbers of their anchors only.

The number of an anchor says nothing about what it stands for: nodes that are the same but for
aliases that correspond (`Node.Same`) stand for the same values, as long as the aliases lead to
nodes that are the same in turn (`content?_congr`, `ofNode?_congr`).
-/
import ApiSurface.Proofs.Yaml.Meaning
import Mathlib.Data.List.Forall2

namespace ApiSurface.Yaml

/-- Whether the two parts of a member are related to those of another. -/
inductive Node.Both (R : Node → Node → Prop) : Node × Node → Node × Node → Prop
  | intro {key key' value value' : Node} (hkey : R key key') (hvalue : R value value') :
      Both R (key, value) (key', value')

/-- Whether two nodes are the same but for aliases, which correspond to each other. -/
inductive Node.Same (link : Nat → Nat → Prop) : Node → Node → Prop
  | scalar (text : String) (style : ScalarStyle) (tag : Option String) :
      Same link (.scalar text style tag) (.scalar text style tag)
  | sequence (tag : Option String) {ts ts' : List Node} (h : List.Forall₂ (Same link) ts ts') :
      Same link (.sequence tag ts) (.sequence tag ts')
  | mapping (tag : Option String) {ms ms' : List (Node × Node)}
      (h : List.Forall₂ (Both (Same link)) ms ms') : Same link (.mapping tag ms) (.mapping tag ms')
  | link {n n' : Nat} (h : link n n') : Same link (.link n) (.link n')

/-- Whether aliases that correspond lead to nodes that are the same. -/
def Anchors.Correspond (anchors anchors' : Anchors) (link : Nat → Nat → Prop) : Prop :=
  ∀ n n', link n n' → (anchors.node n).Same link (anchors'.node n')

section Same

variable {link : Nat → Nat → Prop} {anchors anchors' : Anchors} {t t' : Node}

theorem mapM_eq_of_forall₂ {ι κ α : Type} {R : ι → κ → Prop} {f : ι → Option α} {g : κ → Option α}
    (h : ∀ a b, R a b → f a = g b) {as : List ι} {bs : List κ} (hs : List.Forall₂ R as bs) :
    as.mapM f = bs.mapM g := by
  induction hs with
  | nil => rfl
  | cons hab _ ih => rw [List.mapM_cons, List.mapM_cons, h _ _ hab, ih]

theorem foldlM_eq_of_forall₂ {ι κ σ : Type} {R : ι → κ → Prop} {f : σ → ι → Option σ}
    {g : σ → κ → Option σ} (h : ∀ acc a b, R a b → f acc a = g acc b) {as : List ι} {bs : List κ}
    (hs : List.Forall₂ R as bs) (acc : σ) : as.foldlM f acc = bs.foldlM g acc := by
  induction hs generalizing acc with
  | nil => rfl
  | cons hab _ ih =>
    rw [List.foldlM_cons, List.foldlM_cons, h _ _ _ hab]
    exact congrArg _ (funext ih)

theorem same_target (hlinks : anchors.Correspond anchors' link) (h : t.Same link t') :
    (t.target anchors).Same link (t'.target anchors') := by
  cases h with
  | link h => exact hlinks _ _ h
  | scalar text style tag => exact .scalar text style tag
  | sequence tag h => exact .sequence tag h
  | mapping tag h => exact .mapping tag h

theorem Node.Same.text?_eq (h : t.Same link t') : t.text? = t'.text? := by
  cases h <;> rfl

theorem Node.Same.flag?_eq (h : t.Same link t') : t.flag? = t'.flag? := by
  cases h <;> rfl

theorem Node.Same.null?_eq (h : t.Same link t') : t.null? = t'.null? := by
  cases h <;> rfl

theorem Node.Same.absent?_eq (h : t.Same link t') : t.absent? = t'.absent? := by
  cases h <;> rfl

theorem Node.Same.tag_eq (h : t.Same link t') : t.tag = t'.tag := by
  cases h <;> rfl

/-- Members whose parts have the same contents are the same entry. -/
theorem pair?_congr {R : Node → Node → Prop} {content? content?' : Node → Option Content}
    (h : ∀ t t', R t t' → content? t = content?' t') (m m' : Node × Node)
    (hm : Node.Both R m m') : Node.pair? content? m = Node.pair? content?' m' := by
  cases hm with
  | intro hkey hvalue => rw [Node.pair?, Node.pair?, h _ _ hkey, h _ _ hvalue]

/-- Nodes that are the same have the same content. -/
theorem content?_congr (hlinks : anchors.Correspond anchors' link) (h : t.Same link t')
    (depth : Nat) : t.content? anchors depth = t'.content? anchors' depth := by
  induction depth using Nat.strongRecOn generalizing t t' with
  | ind depth ih =>
    have htarget := same_target hlinks h
    have hbody := Node.isLink_target anchors t
    rw [Node.content?, Node.content?]
    generalize t.target anchors = u at htarget hbody
    generalize t'.target anchors' = u' at htarget
    cases htarget with
    | scalar text style tag => rfl
    | sequence tag hs =>
      cases depth with
      | zero => rfl
      | succ depth =>
        have := mapM_eq_of_forall₂ (fun a b hab => ih depth (Nat.lt_succ_self _) hab) hs
        exact congrArg (fun o => if (alternativeTag? tag).isSome then none
          else Option.map Content.list o) this
    | mapping tag hs =>
      cases depth with
      | zero => rfl
      | succ depth =>
        have := mapM_eq_of_forall₂ (pair?_congr fun _ _ h => ih depth (Nat.lt_succ_self _) h) hs
        exact congrArg (fun o => if (alternativeTag? tag).isSome then none
          else Option.map Content.map o) this
    | link h => cases hbody

end Same

end ApiSurface.Yaml

namespace ApiSurface

open Yaml (Node Anchors)

section Shapes

variable {α β : Type} {link : Nat → Nat → Prop} {anchors anchors' : Anchors} {t t' : Node}

theorem Yaml.tagged?_congr (choice : Alternatives α β) {value? value?' : Node → Option α}
    (h : t.Same link t') (hvalue : value? t = value?' t') :
    t.tagged? choice value? = t'.tagged? choice value?' := by
  rw [Node.tagged?, Node.tagged?, hvalue, h.text?_eq, h.null?_eq, h.tag_eq]

theorem Yaml.keyed?_congr (hlinks : anchors.Correspond anchors' link) (choice : Alternatives α β)
    {value? value?' : Nat → Node → Option α} (h : t.Same link t')
    (hvalue : ∀ depth {u u' : Node}, u.Same link u' → value? depth u = value?' depth u')
    (depth : Nat) :
    t.keyed? anchors choice value? depth = t'.keyed? anchors' choice value?' depth := by
  unfold Node.keyed?
  cases h with
  | mapping tag hs =>
    refine congrArg (fun o => if (Yaml.alternativeTag? tag).isSome then none else o) ?_
    cases depth with
    | zero => rfl
    | succ depth =>
      cases hs with
      | nil => rfl
      | @cons m m' ms ms' hm hs =>
        obtain ⟨hkey, hmember⟩ := hm
        have htext := (Yaml.same_target hlinks hkey).text?_eq
        have hempty : ms.isEmpty = ms'.isEmpty := by cases hs <;> rfl
        simp only [Yaml.below, Node.member?, htext, hvalue depth hmember, hempty]
  | scalar => rfl
  | sequence => rfl
  | link => rfl

mutual

/-- Nodes that are the same stand for the same values. -/
theorem Shape.ofNode?_congr (hlinks : anchors.Correspond anchors' link) : {α : Type} →
    (s : Shape α) → (depth : Nat) → {t t' : Node} → t.Same link t' →
    s.ofNode? anchors depth t = s.ofNode? anchors' depth t'
  | _, .text, depth, t, t', h => by
    have htarget := Yaml.same_target hlinks h
    rw [Shape.ofNode?, Shape.ofNode?, htarget.text?_eq]
  | _, .flag, depth, t, t', h => by
    have htarget := Yaml.same_target hlinks h
    rw [Shape.ofNode?, Shape.ofNode?, htarget.flag?_eq]
  | _, .nothing, depth, t, t', h => rfl
  | _, .optional s, depth, t, t', h => by
    have htarget := Yaml.same_target hlinks h
    rw [Shape.ofNode?, Shape.ofNode?, Shape.ofNode?_congr hlinks s depth htarget,
      htarget.absent?_eq]
  | _, .list item, depth, t, t', h => by
    have htarget := Yaml.same_target hlinks h
    rw [Shape.ofNode?, Shape.ofNode?]
    generalize t.target anchors = u at htarget
    generalize t'.target anchors' = u' at htarget
    cases htarget with
    | sequence tag hs =>
      cases depth with
      | zero => rfl
      | succ depth =>
        exact Yaml.mapM_eq_of_forall₂ (fun a b hab => Shape.ofNode?_congr hlinks item depth hab) hs
    | _ => rfl
  | _, .record label fields, depth, t, t', h => by
    have htarget := Yaml.same_target hlinks h
    rw [Shape.ofNode?, Shape.ofNode?]
    generalize t.target anchors = u at htarget
    generalize t'.target anchors' = u' at htarget
    cases htarget with
    | mapping tag hs =>
      cases depth with
      | zero => rfl
      | succ depth =>
        refine congrArg (Option.bind · _) (Yaml.foldlM_eq_of_forall₂ (fun slots m m' hm => ?_) hs _)
        obtain ⟨hkey, hvalue⟩ := hm
        rw [(Yaml.same_target hlinks hkey).text?_eq]
        exact congrArg _ (funext fun key =>
          Fields.putNode?_congr hlinks fields depth slots key hvalue)
    | _ => rfl
  | _, .tagged choice s, depth, t, t', h => by
    have htarget := Yaml.same_target hlinks h
    rw [Shape.ofNode?, Shape.ofNode?]
    exact Yaml.tagged?_congr choice htarget (Shape.ofNode?_congr hlinks s depth htarget)
  | _, .keyed choice s, depth, t, t', h => by
    have htarget := Yaml.same_target hlinks h
    rw [Shape.ofNode?, Shape.ofNode?]
    cases depth with
    | zero => rfl
    | succ depth =>
      exact Yaml.keyed?_congr hlinks choice htarget
        (fun depth {_ _} h => Shape.ofNode?_congr hlinks s depth h) depth
  | _, .buffered interpret _, depth, t, t', h => by
    rw [Shape.ofNode?, Shape.ofNode?, Yaml.content?_congr hlinks h]
  | _, .view there _ s, depth, t, t', h => by
    rw [Shape.ofNode?, Shape.ofNode?, Shape.ofNode?_congr hlinks s depth h]

theorem Fields.putNode?_congr (hlinks : anchors.Correspond anchors' link) : {σ α : Type} →
    (fields : Fields σ α) → (depth : Nat) → (slots : σ) → (key : String) → {t t' : Node} →
    t.Same link t' →
    fields.putNode? anchors depth slots key t = fields.putNode? anchors' depth slots key t'
  | _, _, .nil, _, (), _, _, _, _ => rfl
  | _, _, .cons field s rest, depth, (slot, slots), key, t, t', h => by
    by_cases hkey : key = field.name
    · cases slot with
      | some a => rw [Fields.putNode?_twice hkey, Fields.putNode?_twice hkey]
      | none => rw [Fields.putNode?_same hkey, Fields.putNode?_same hkey,
          Shape.ofNode?_congr hlinks s depth h]
    · rw [Fields.putNode?_other hkey, Fields.putNode?_other hkey,
        Fields.putNode?_congr hlinks rest depth slots key h]

end

end Shapes

end ApiSurface
