/-
Models with numbers of any kind, written and read again.

A YAML document gives back every number. A JSON document gives back those that are read back from
their own texts: if a model is read back, so is each field of it (`Shape.of_ofSyntax?_field`), down to
the numbers.

* `Model.parse_render_numbers` — which models are read back.
-/
import ApiSurface.Proofs.Json.Decimal
import ApiSurface.Proofs.Json.MarkerObject
import ApiSurface.Proofs.Json.RoundTrip
import ApiSurface.Proofs.Yaml.RoundTrip

namespace ApiSurface

open Json (Syntax textOf? member?)

/-! ### Records that were written -/

section Records

variable {σ α β : Type} {depth : Nat}

theorem Fields.names_encode : {σ α : Type} → (fields : Fields σ α) → (a : α) →
    ((fields.encode a).map (·.1)).Sublist fields.names
  | _, _, .nil, _ => .slnil
  | _, _, .cons field s rest, (a, b) => by
    have ih := names_encode rest b
    rw [encode, names]
    split
    · exact ih.cons field.name
    · exact ih.cons_cons field.name

/-- A record is written with each member once. -/
theorem Fields.once_encode {fields : Fields σ α} (nodup : fields.names.Nodup) (a : α)
    (name : String) : Json.Once name (Tree.spelledMembers (fields.encode a)) := by
  have hnames := (fields.names_encode a).nodup nodup
  rw [Tree.spelledMembers_eq_map, Json.Once, List.pairwise_map]
  refine (List.pairwise_map.mp hnames).imp fun {m m'} hne => ?_
  rw [Json.textOf?_escaped, Json.textOf?_escaped]
  rintro ⟨⟩ heq
  exact hne (Option.some.inj heq).symm

section Members

variable {field : Field α} {s : Shape α} {rest : Fields σ β} {a : α} {b : β} {name : String}

theorem Fields.member?_encode_self (visible : field.hidden a = false) :
    member? field.name (Tree.spelledMembers ((Fields.cons field s rest).encode (a, b)))
      = some (s.encode a).spelled := by
  rw [encode, if_neg (by simp [visible]), Tree.spelledMembers,
    Json.member?_cons_self (Json.textOf?_escaped field.name)]

theorem Fields.member?_encode_other (h : name ≠ field.name) :
    member? name (Tree.spelledMembers ((Fields.cons field s rest).encode (a, b)))
      = member? name (Tree.spelledMembers (rest.encode b)) := by
  rw [encode]
  split
  · rfl
  · rw [Tree.spelledMembers, Json.member?_cons_other]
    rw [Json.textOf?_escaped]
    exact fun heq => h (Option.some.inj heq).symm

end Members

section Lenses

variable {fields : Fields σ α} {field : Field β} {s : Shape β} {get : α → β} {set : β → α → α}

/-- A field of a record that members make is read from the member of its name. -/
theorem Fields.Lens.of_ofMembers? (lens : fields.Lens field s get set) (nodup : fields.names.Nodup)
    {ms : List (List Char × Syntax)} {a : α} {t : Syntax}
    (once : ∀ name ∈ fields.names, Json.Once name ms) (h : fields.ofMembers? depth ms = some a)
    (ht : member? field.name ms = some t) : s.ofSyntax? depth t = some (get a) := by
  induction lens with
  | head =>
    obtain ⟨fresh, -⟩ := List.nodup_cons.mp nodup
    obtain ⟨hvalue, -⟩ := Json.of_ofMembers?_cons fresh (once _ List.mem_cons_self) h
    rwa [ht] at hvalue
  | tail other _ ih =>
    obtain ⟨fresh, nodup⟩ := List.nodup_cons.mp nodup
    obtain ⟨-, hrest⟩ := Json.of_ofMembers?_cons fresh (once _ List.mem_cons_self) h
    exact ih nodup (fun name hname => once name (List.mem_cons_of_mem _ hname)) hrest ht

/-- A field that is not hidden is written under its name. -/
theorem Fields.Lens.member?_encode (lens : fields.Lens field s get set) (a : α)
    (visible : field.hidden (get a) = false) :
    member? field.name (Tree.spelledMembers (fields.encode a)) = some (s.encode (get a)).spelled := by
  induction lens with
  | head => exact member?_encode_self visible
  | tail other _ ih => exact (member?_encode_other other).trans (ih a.2 visible)

end Lenses

theorem of_mapM_map {ι κ : Type} {f : ι → κ} {g : κ → Option ι} {as : List ι}
    (h : (as.map f).mapM g = some as) : ∀ a ∈ as, g (f a) = some a := by
  induction as with
  | nil => simp
  | cons a as ih =>
    rw [List.map_cons, List.mapM_cons] at h
    obtain ⟨b, hb, h⟩ := Option.bind_eq_some_iff.mp h
    obtain ⟨bs, hbs, h⟩ := Option.bind_eq_some_iff.mp h
    obtain ⟨rfl, rfl⟩ := List.cons.inj (Option.some.inj h)
    exact List.forall_mem_cons.mpr ⟨hb, ih hbs⟩

/-- If a list is read back as it was written, its items are. -/
theorem Shape.of_ofSyntax?_list {item : Shape α} {as : List α}
    (h : (Shape.list item).ofSyntax? depth ((Shape.list item).encode as).spelled = some as) :
    ∀ a ∈ as, item.ofSyntax? (depth - 1) (item.encode a).spelled = some a := by
  have hitems : Json.below depth (fun depth => (as.map fun a => (item.encode a).spelled).mapM
      fun t => item.ofSyntax? depth t) = some as := by
    rw [encode, Tree.spelled, Tree.spelledItems_eq_map, List.map_map] at h
    exact h
  exact of_mapM_map (Option.ite_none_left_eq_some.mp hitems).2

/-- If a record is read back as it was written, its members make it. -/
theorem Shape.of_ofSyntax?_record {label : String} {fields : Fields σ α} {there : α → β}
    {back : β → α} {b : β} (hback : ∀ a, back (there a) = a)
    (h : (Shape.view there back (.record label fields)).ofSyntax? depth
      ((Shape.view there back (.record label fields)).encode b).spelled = some b) :
    fields.ofMembers? (depth - 1) (Tree.spelledMembers (fields.encode (back b)))
      = some (back b) := by
  rw [encode, encode, Tree.spelled, ofSyntax?, ofSyntax?_object] at h
  obtain ⟨a, ha, rfl⟩ := Option.map_eq_some_iff.mp h
  rw [hback] at ha ⊢
  exact (Option.ite_none_left_eq_some.mp ha).2

/-- If a record is read back as it was written, so is a field that is not hidden. -/
theorem Shape.of_ofSyntax?_field {label : String} {fields : Fields σ α} {γ : Type} {there : α → γ}
    {back : γ → α} {field : Field β} {s : Shape β} {get : α → β} {set : β → α → α} {c : γ}
    (lens : fields.Lens field s get set) (nodup : fields.names.Nodup)
    (hback : ∀ a, back (there a) = a) (visible : field.hidden (get (back c)) = false)
    (h : (Shape.view there back (.record label fields)).ofSyntax? depth
      ((Shape.view there back (.record label fields)).encode c).spelled = some c) :
    s.ofSyntax? (depth - 1) (s.encode (get (back c))).spelled = some (get (back c)) :=
  lens.of_ofMembers? nodup (fun _ _ => Fields.once_encode nodup _ _)
    (Shape.of_ofSyntax?_record hback h) (lens.member?_encode _ visible)

end Records

/-! ### Numbers that are read back -/

section Numbers

variable {depth : Nat}

/-- If a member of an enumeration is read back as it was written, its number is. -/
theorem EnumMember.of_ofSyntax? {v : EnumMember} {x : Number} (hx : v.value = .number x)
    (h : EnumMember.shape.ofSyntax? depth (EnumMember.shape.encode v).spelled = some v) :
    Json.numberOf? (x.write Notation.json) = some x := by
  have hvalue : EnumValue.shape.ofSyntax? (depth - 1) (EnumValue.shape.encode v.value).spelled
      = some v.value :=
    Shape.of_ofSyntax?_field (.tail (by decide) .head) (by decide) (fun _ => rfl) rfl h
  rw [hx] at hvalue
  obtain ⟨c, hc, hread⟩ := Option.bind_eq_some_iff.mp hvalue
  have hnumber : (Syntax.number (x.write Notation.json)).content? (depth - 1) = some c := hc
  cases hdepth : depth - 1 with
  | zero =>
    rw [hdepth] at hnumber
    cases hnumber
  | succ d =>
    rw [hdepth] at hnumber
    obtain ⟨y, hy, rfl⟩ := Option.map_eq_some_iff.mp hnumber
    obtain rfl : y = x := EnumValue.number.inj (Option.some.inj hread)
    exact hy

/-- If a model is read back from its JSON document, its numbers are read back from their texts. -/
theorem Model.numberOf?_of_parse {m : Model} (h : Model.parse .json (m.render .json) = .ok m) :
    m.Numbers fun x => Json.numberOf? (x.write Notation.json) = some x := by
  intro e he v hv x hx
  have hdocument : (Model.shape.encode m).spelled.Document (m.render .json) :=
    Json.document_write Json.Layout.isBlank_pretty _
  have hmodel := Model.toOption_parse_document hdocument
  rw [h] at hmodel
  have henum : Enumeration.shape.ofSyntax? _ (Enumeration.shape.encode e).spelled = some e :=
    Shape.of_ofSyntax?_list (Shape.of_ofSyntax?_field (.tail (by decide) .head) (by decide)
      (fun _ => rfl) rfl hmodel.symm) e he
  have hmember : EnumMember.shape.ofSyntax? _ (EnumMember.shape.encode v).spelled = some v :=
    Shape.of_ofSyntax?_list (Shape.of_ofSyntax?_field (.tail (by decide) (.tail (by decide) .head))
      (by decide) (fun _ => rfl) rfl henum) v hv
  exact EnumMember.of_ofSyntax? hx hmember

/-- Whether the text of a number in a JSON document is read as the number. -/
def Number.IsStable : Number → Prop
  | .integer _ => True
  | .double x => x.rescaled? = some x

theorem Number.IsStable.survives {x : Number} (h : x.IsStable) : Json.Reader.Survives x := by
  cases x with
  | integer i => exact Json.Reader.survives_integer i
  | double x => exact Json.Reader.survives_double h

theorem Number.isStable {x : Number}
    (h : Json.numberOf? (x.write Notation.json) = some x) : x.IsStable := by
  cases x with
  | integer i => trivial
  | double x =>
    rw [Number.write, Json.numberOf?_write] at h
    obtain ⟨y, hy, hxy⟩ := Option.map_eq_some_iff.mp h
    rw [Number.double.inj hxy] at hy
    exact hy

namespace Model

/-- A model with numbers of any kind is read back from its YAML document, and from its JSON document
if and only if each of its doubles is what the digits in its text are when they are scaled in rounded
arithmetic. That is so for all integers, and for doubles with fifteen digits at most or sixteen small
ones, not too far from the point. -/
theorem parse_render_numbers (m : Model) :
    Model.parse .yaml (m.render .yaml) = .ok m ∧
    (Model.parse .json (m.render .json) = .ok m ↔ m.Numbers Number.IsStable) ∧
    ∀ x : Double, (Double.digits x.rank).written.1 < 2 ^ 53 →
      (Double.digits x.rank).written.2.natAbs ≤ 22 → Number.IsStable (.double x) := by
  have every : m.Numbers fun _ => True := fun _ _ _ _ _ _ => trivial
  refine ⟨parse_numbers_yaml every, ⟨fun h => ?_, fun stable => ?_⟩, fun x digits power => ?_⟩
  · exact fun e he v hv x hx => Number.isStable (numberOf?_of_parse h e he v hv x hx)
  · have blank : ∀ b ∈ ([] : List Char), Json.Reader.isBlank b = true := nofun
    have numbers : m.Numbers Json.Reader.Survives :=
      fun e he v hv x hx => (stable e he v hv x hx).survives
    have h := parse_numbers_json numbers blank blank
    rwa [List.nil_append, List.append_nil, String.ofList_toList] at h
  · obtain ⟨r, hr⟩ := Double.exists_value_nat (digits.trans_eq (by decide)) 0
    rw [pow_zero, Nat.mul_one] at hr
    exact Json.rescaled?_eq ⟨r, hr⟩ power

/-- A model with one enumeration, of one member, whose value is a double. -/
def ofDouble (x : Double) : Model where
  enums := [{ name := "E", members := [{ name := "A", value := .number (.double x) }] }]

/-- One tenth is read back, and the integer 1801439850948199 as a double is not. -/
theorem parse_render_numbers_tenth :
    Model.parse .json ((ofDouble ⟨false, 4591870180066957722, by decide⟩).render .json)
      = .ok (ofDouble ⟨false, 4591870180066957722, by decide⟩) ∧
    Model.parse .json ((ofDouble ⟨false, 4835064559944964508, by decide⟩).render .json)
      ≠ .ok (ofDouble ⟨false, 4835064559944964508, by decide⟩) := by
  have numbers (x : Double) : (ofDouble x).Numbers Number.IsStable ↔ x.rescaled? = some x := by
    simp [Numbers, ofDouble, Number.IsStable]
  constructor
  · exact (parse_render_numbers _).2.1.mpr ((numbers _).mpr
      ((parse_render_numbers {}).2.2 _ (by decide +kernel) (by decide +kernel)))
  · rw [Ne, (parse_render_numbers _).2.1, numbers]
    decide +kernel

end Model

end Numbers

end ApiSurface
