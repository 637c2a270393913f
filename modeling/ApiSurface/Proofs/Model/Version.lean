/-
Versions that are written as numbers, in either language.

The digits are read as an integer or as a double before they are a text again. Of an integer nothing
is lost. Of a version with a point the double keeps enough digits if there are fifteen at most, and
its text ends without the zeros that the version ends with (`VersionNumber.Becomes`).

* `Marker.parse_version_number` — what becomes of such a version on each way into a marker.
-/
import ApiSurface.Proofs.Decimal.Version
import ApiSurface.Proofs.Json.Decimal
import ApiSurface.Proofs.Model.MarkerForms
import ApiSurface.Proofs.Model.Notice
import ApiSurface.Proofs.Yaml.Number

namespace ApiSurface

/-! ### Numbers -/

namespace VersionNumber

open Double (Rounds)

variable (v : VersionNumber)

/-- A version is far below the largest double. -/
theorem exists_rounds : ∃ rank, rank < Double.limit ∧
    Rounds rank (v.digits * 10 ^ (-(v.fraction.length : Int))) := by
  have hbound : v.digits < (v.whole + 1) * 10 ^ v.fraction.length := by
    have hlt := Text.decimal_lt v.isDigit
    rw [digits, Text.decimal_eq_add, Nat.add_mul, Nat.one_mul]
    omega
  have hcast : (v.digits : ℚ) / (10 ^ v.fraction.length : Nat)
      = v.digits * 10 ^ (-(v.fraction.length : Int)) := by
    rw [zpow_neg, zpow_natCast, ← div_eq_mul_inv]
    push_cast
    rfl
  have hle : (v.digits : ℚ) / (10 ^ v.fraction.length : Nat) ≤ Double.value (Double.limit - 1) := by
    refine le_trans ?_ (Double.ten_pow_le_largest (k := 20) (by decide))
    have hwhole : v.whole + 1 ≤ 10 ^ 20 := v.bound.trans_le (by decide)
    rw [div_le_iff₀ (by positivity)]
    have hnat : v.digits ≤ 10 ^ 20 * 10 ^ v.fraction.length :=
      hbound.le.trans (Nat.mul_le_mul_right _ hwhole)
    exact_mod_cast hnat
  obtain ⟨z, -, hrounds⟩ :=
    @Double.exists_ofRatio? false v.digits (10 ^ v.fraction.length) (by positivity) hle
  exact ⟨z.rank, z.finite, hcast ▸ hrounds⟩

/-- The digits of a short version scaled by the place of its point are the nearest double. -/
theorem rounds_of_scale? {v : VersionNumber} (short : v.IsShort) {z : Double}
    (hz : Json.scale? v.digits (-(v.fraction.length : Int)) = some z) :
    Rounds z.rank (v.digits * 10 ^ (-(v.fraction.length : Int))) := by
  have hword : v.digits < Json.wordLimit := short.1.trans (by decide)
  obtain hzero | hlow := short.2
  · obtain ⟨z', hz', hrank⟩ := Json.exists_scale? hword (e := -(v.fraction.length : Int)) (by omega)
    obtain rfl : z' = z := Option.some.inj (hz'.symm.trans hz)
    have hvalue : (v.digits : ℚ) * 10 ^ (-(v.fraction.length : Int)) = Double.value 0 := by
      rw [hzero, Nat.cast_zero, zero_mul, Double.value_zero]
    rw [hvalue, hrank hzero]
    exact Double.rounds_value 0
  · have hlength : v.fraction.length ≤ 20 := by
      have hlt : 10 ^ v.fraction.length < 10 ^ 20 :=
        hlow.trans_lt (Nat.mul_lt_mul_of_pos_right short.1 (by decide))
      exact ((Nat.pow_lt_pow_iff_right (by decide)).mp hlt).le
    obtain ⟨rank, finite, hrounds⟩ := v.exists_rounds
    obtain ⟨r, hr⟩ := Double.exists_value_nat (show v.digits < 2 * Double.binade from
      short.1.trans (by decide)) 0
    rw [pow_zero, Nat.mul_one] at hr
    rw [Json.scale?_eq hword ⟨r, hr⟩ (by omega) hrounds finite] at hz
    obtain rfl := Option.some.inj hz
    exact hrounds

/-- A version is a JSON number. -/
theorem exists_numberOf? : ∃ x, Json.numberOf? v.spelling = some x ∧ v.Becomes x.toText := by
  obtain ⟨c, cs, hcs, hc, -⟩ := Text.exists_toDigits v.whole
  have hpositive : v.spelling.head? ≠ some '-' := by
    rw [spelling, hcs, List.cons_append, List.head?_cons]
    exact fun h => Text.ne_of_isDigit hc (by decide) (Option.some.inj h)
  have hword : v.whole < Json.wordLimit := v.bound
  have hends : Json.Ends [] := Text.stops_nil _
  rw [Json.numberOf?, if_neg hpositive, Json.Reader.value?]
  by_cases hf : v.fraction = []
  · have hread := @Json.Reader.number_toDigits false v.whole v.integer [] v.integer.ofInt?_val
      (by simp) hword hends 0
    rw [List.append_nil] at hread
    rw [spelling_integer hf, hread]
    exact ⟨_, rfl, becomes_integer hf⟩
  · have hread := @Json.Reader.number_point false [] v.whole v.fraction hword ⟨hf, v.isDigit⟩ hends 0
    obtain ⟨z, hz, -⟩ := Json.exists_scale? (Json.absorb_lt hword v.fraction)
      (e := -(v.fraction.length - (Json.absorb Json.wordLimit v.whole v.fraction).2.length : Nat))
      (by omega)
    rw [List.append_nil] at hread
    rw [spelling_pointed hf, hread, Json.Reader.scaled, hz]
    refine ⟨_, rfl, becomes_double hf rfl fun hshort => ?_⟩
    rw [Json.absorb_eq (show Text.decimal v.whole v.fraction < Json.wordLimit from
      hshort.1.trans (by decide)), List.length_nil, Nat.sub_zero] at hz
    have hrounds := rounds_of_scale? hshort hz
    exact hrounds

/-- A version is a number as a plain scalar of YAML. -/
theorem exists_ofPlain : ∃ x, Yaml.Scalar.ofPlain (String.ofList v.spelling) = .number x ∧
    v.Becomes x.toText := by
  by_cases hf : v.fraction = []
  · have hwrite : (Number.integer v.integer).write Notation.yaml = v.spelling :=
      write_integer hf
    exact ⟨_, hwrite ▸ Yaml.Scalar.ofPlain_write (.integer v.integer), becomes_integer hf⟩
  · obtain ⟨rank, finite, hrounds⟩ := v.exists_rounds
    have hpointed := Yaml.Scalar.IsPointed.digits v.whole (.inl rfl : '.' = '.' ∨ '.' = 'e') v.fraction
    have hparts := Literal.parts?_point (w := v.whole) v.isDigit
    have hvalue : (Literal.Parts.mk (Nat.toDigits 10 v.whole) v.fraction 0).value
        = v.digits * 10 ^ (-(v.fraction.length : Int)) := by
      rw [Literal.Parts.value, Text.decimal_toDigits, zero_sub]
      rfl
    have hread : Literal.toDouble? v.spelling = some ⟨false, rank, finite⟩ := by
      obtain ⟨c, cs, hcs, hc, -⟩ := Text.exists_toDigits v.whole
      rw [spelling_pointed hf]
      rw [hcs, List.cons_append] at hparts ⊢
      rw [Literal.toDouble?_unsigned hc, hparts, Option.bind_some, ← hcs,
        Literal.Parts.toDouble?_eq (hvalue ▸ hrounds)]
    rw [← spelling_pointed hf] at hpointed
    exact ⟨_, hpointed.ofPlain (.inl rfl) hread, becomes_double hf rfl fun _ => hrounds⟩

end VersionNumber

open Json (Syntax member?)
open Yaml (Anchors Document Node Scalar)

/-! ### Notices -/

/-- The notice of a marker names its version and a planned removal. -/
theorem Marker.notice_version {s : String} (h : s ≠ "") (removal : Option Bool) :
    notice ⟨some s, removal⟩
      = "@deprecated since: " ++ s ++ if removal = some true then "; forRemoval: true" else "" := by
  have hversion : version? ⟨some s, removal⟩ = some s := by simp [version?, h]
  have hremoval : Marker.removal ⟨some s, removal⟩ = decide (removal = some true) := by
    cases removal with
    | none => rfl
    | some b => cases b <;> rfl
  rw [notice_of_version? hversion, hremoval]
  simp only [decide_eq_true_eq, removalNote]

/-- Whether a marker has a version that was read as a number and a removal flag, and says so. -/
structure Marker.HasVersion (m : Marker) (v : VersionNumber) (x : Number) (removal : Option Bool) :
    Prop where
  becomes : v.Becomes x.toText
  since : m.since = some x.toText
  notice : m.notice = "@deprecated since: " ++ x.toText ++
    if removal = some true then "; forRemoval: true" else ""
  removal : m.forRemoval = removal

theorem VersionNumber.Becomes.hasVersion {v : VersionNumber} {x : Number} (h : v.Becomes x.toText)
    (removal : Option Bool) : Marker.HasVersion ⟨some x.toText, removal⟩ v x removal :=
  ⟨h, rfl, Marker.notice_version h.nonempty removal, rfl⟩

/-! ### Markers in JSON -/

/-- Whether members are those of a marker whose version is a number. Other members may have any
value that the reader takes. -/
structure Json.IsVersioned (ms : List (List Char × Syntax)) (v : VersionNumber) : Prop where
  keys : ∀ m ∈ ms, IsPaired m.1
  values : ∀ m ∈ ms, m.2 = .number v.spelling ∨ m.2.Plain 99
  once : Marker.Once ms
  since : member? "since" ms = some (.number v.spelling)

theorem Json.IsVersioned.hasVersion {ms : List (List Char × Syntax)} {v : VersionNumber}
    (h : IsVersioned ms v) : (Syntax.object ms).Plain 100 ∧ ∃ x, numberOf? v.spelling = some x ∧
      (Marker.ofObject ms).HasVersion v x ((member? "forRemoval" ms).bind Syntax.flag?) := by
  obtain ⟨x, hx, becomes⟩ := v.exists_numberOf?
  refine ⟨?_, x, hx, ?_⟩
  · exact .object h.keys fun m hm => (h.values m hm).elim (fun hnumber => hnumber ▸ .number hx) id
  · have hsince : (Marker.ofObject ms).since = some x.toText := by
      show (member? "since" ms).bind Syntax.version? = _
      rw [h.since, Option.bind_some, Syntax.version?, hx, Option.map_some]
    have hmarker : Marker.ofObject ms
        = ⟨some x.toText, (member? "forRemoval" ms).bind Syntax.flag?⟩ := by
      rw [← hsince]
      rfl
    rw [hmarker]
    exact becomes.hasVersion _

/-! ### Markers in YAML -/

/-- A version as a plain scalar. -/
def VersionNumber.node (v : VersionNumber) : Node := .scalar (String.ofList v.spelling) .plain none

theorem VersionNumber.version?_node (v : VersionNumber) : v.node.Storable ∧
    ∃ x, Scalar.ofPlain (String.ofList v.spelling) = .number x ∧
      v.node.version? = some x.toText ∧ v.Becomes x.toText := by
  obtain ⟨x, hx, becomes⟩ := v.exists_ofPlain
  have hevent : Scalar.ofEvent (String.ofList v.spelling) .plain none = .ok (.number x) := by
    rw [← hx]
    rfl
  refine ⟨.scalar rfl hevent (by simp), x, hx, ?_, becomes⟩
  rw [node, Node.version?, hevent]

/-- A node that can be held back is absent or not, and the absent value has no other content. -/
theorem Yaml.Node.Storable.exists_absent? {anchors : Anchors} {depth : Nat} {t : Node} {c : Content}
    (h : t.Storable) (hc : t.content? anchors depth = some c) :
    ∃ absent, t.absent? = some absent ∧ (absent = true → c = .null) := by
  cases h with
  | @scalar text style tag v unnamed fits narrow =>
    by_cases hv : v = .null
    · subst hv
      rw [Node.content?_scalar, unnamed, Node.scalarContent?, fits] at hc
      obtain rfl : Content.null = c := Option.some.inj hc
      by_cases hplain : style = .plain
      · subst hplain
        exact ⟨true, Node.absent?_null unnamed fits, fun _ => rfl⟩
      · exact ⟨false, Node.absent?_quoted text tag hplain, fun _ => rfl⟩
    · exact ⟨false, Node.absent?_of_ok fits hv, by simp⟩
  | sequence => exact ⟨false, rfl, by simp⟩
  | mapping => exact ⟨false, rfl, by simp⟩

namespace Marker

variable {anchors : Anchors} {depth n : Nat}

/-- A detail of a mapping is what its node gives. -/
theorem ofNode?_detail {α : Type} {read : Content → Interpreted (Option α)} {write : α → Tree}
    {inContent : Content → Option α} {inNode : Node → Option α}
    (hread : ∀ c, (read c).result = .ok (inContent c)) (hnull : inContent .null = none)
    (hdetail : ∀ {t : Node} {c : Content}, t.content? anchors depth = some c →
      inContent c = inNode (t.target anchors))
    {t : Node} (within : t.Within n) (hn : n ≤ depth) (storable : t.Storable) :
    (detailShape read write).ofNode? anchors depth t = some (inNode t) := by
  have htarget := Node.target_of_isLink anchors within.isLink
  obtain ⟨c, hc⟩ : ∃ c, t.content? anchors depth = some c := within.exists_content hn storable
  have hvalue := hdetail hc
  rw [htarget] at hvalue
  obtain ⟨absent, habsent, hnone⟩ := storable.exists_absent? hc
  rw [detailShape, Shape.ofNode?, Shape.ofNode?, htarget, habsent, Option.bind_some]
  cases absent with
  | true =>
    rw [if_pos rfl, ← hvalue, hnone rfl, hnull]
    rfl
  | false =>
    rw [if_neg (by simp), Shape.ofNode?, hc, Option.bind_some, hread, hvalue]
    rfl

/-- A detail is what the member of its name gives. -/
theorem ofNode?_member {α : Type} {read : Content → Interpreted (Option α)} {write : α → Tree}
    {inContent : Content → Option α} {inNode : Node → Option α} {name : String}
    {ms : List (Node × Node)} (hread : ∀ c, (read c).result = .ok (inContent c))
    (hnull : inContent .null = none)
    (hdetail : ∀ {t : Node} {c : Content}, t.content? anchors depth = some c →
      inContent c = inNode (t.target anchors))
    (detail : ∀ t, Node.value? anchors name ms = some t → t.Within n ∧ t.Storable) (hn : n ≤ depth) :
    ((Yaml.members anchors depth).find? name ms).elim (some none)
      ((Yaml.members anchors depth).value (detailShape read write))
      = some ((Node.value? anchors name ms).bind inNode) := by
  have hvalue : Node.value? anchors name ms
      = ((Yaml.members anchors depth).find? name ms).map (·.2) := rfl
  rw [hvalue] at detail ⊢
  cases hm : (Yaml.members anchors depth).find? name ms with
  | none => rfl
  | some m =>
    obtain ⟨within, storable⟩ := detail m.2 (by rw [hm]; rfl)
    exact ofNode?_detail hread hnull hdetail within hn storable

/-- A mapping is read as the details under their names, whatever else is in it. -/
theorem ofNode?_mapping {ms : List (Node × Node)} (tag : Option String)
    (keys : ∀ m ∈ ms, (m.1.target anchors).text?.isSome)
    (once : ∀ name ∈ fields.names, Node.Once anchors name ms)
    (details : ∀ name ∈ fields.names, ∀ t, Node.value? anchors name ms = some t →
      t.Within n ∧ t.Storable) (hn : n ≤ depth) :
    shape.ofNode? anchors (depth + 1) (.mapping tag ms)
      = some ⟨(Node.value? anchors "since" ms).bind Node.version?,
        (Node.value? anchors "forRemoval" ms).bind Node.removal?⟩ := by
  have hsince : ((Yaml.members anchors depth).find? "since" ms).elim (some none)
      ((Yaml.members anchors depth).value (detailShape sinceOf .text))
      = some ((Node.value? anchors "since" ms).bind Node.version?) :=
    ofNode?_member (fun c => by cases c <;> rfl) rfl (fun hc => (Node.details_of_content hc).1)
      (details _ (by decide)) hn
  have hremoval : ((Yaml.members anchors depth).find? "forRemoval" ms).elim (some none)
      ((Yaml.members anchors depth).value (detailShape forRemovalOf .bool))
      = some ((Node.value? anchors "forRemoval" ms).bind Node.removal?) :=
    ofNode?_member (fun c => by cases c <;> rfl) rfl (fun hc => (Node.details_of_content hc).2)
      (details _ (by decide)) hn
  have once : ∀ name ∈ fields.names, (Yaml.members anchors depth).Once name ms := once
  show (fields.ofNodes? anchors depth ms).map ofDetails = _
  rw [Yaml.ofNodes?_eq_make?, fields, Fields.make?_cons (by decide) (once _ (by decide)),
    Fields.make?_cons (by decide) (once _ (by decide)), Fields.make?_nil keys]
  show ((((Yaml.members anchors depth).find? "since" ms).elim (some none) _).bind _).map _ = _
  rw [hsince, Option.bind_some]
  show (((((Yaml.members anchors depth).find? "forRemoval" ms).elim (some none) _).bind _).map _).map _
    = _
  rw [hremoval]
  rfl

end Marker

/-- Whether members are those of a mapping for a marker on its own whose version is a number. -/
structure Yaml.IsVersioned (anchors : Anchors) (ms : List (Node × Node)) (v : VersionNumber) :
    Prop where
  keys : ∀ m ∈ ms, (m.1.target anchors).text?.isSome
  once : ∀ name ∈ Marker.fields.names, Node.Once anchors name ms
  since : Node.value? anchors "since" ms = some v.node
  removal : ∀ t, Node.value? anchors "forRemoval" ms = some t → t.Within 99 ∧ t.Storable

theorem Yaml.IsVersioned.details {anchors : Anchors} {ms : List (Node × Node)} {v : VersionNumber}
    (h : IsVersioned anchors ms v) : ∀ name ∈ Marker.fields.names, ∀ t,
      Node.value? anchors name ms = some t → t.Within 99 ∧ t.Storable := by
  refine List.forall_mem_cons.mpr ⟨fun t ht => ?_, List.forall_mem_singleton.mpr h.removal⟩
  obtain rfl := Option.some.inj (h.since.symm.trans ht)
  exact ⟨.scalar _ _ _, v.version?_node.1⟩

/-- Whether members are those of a mapping in a slot whose version is a number. -/
structure Yaml.IsVersionedSlot (tag : Option String) (ms : List (Node × Node)) (v : VersionNumber) :
    Prop where
  within : (Node.mapping tag ms).Within 100
  unnamed : Yaml.alternativeTag? tag = none
  keys : ∀ m ∈ ms, m.1.Storable
  values : ∀ m ∈ ms, m.2 = v.node ∨ m.2.Storable
  named : Node.Named ms
  since : Node.detail? .since ms = some v.node

namespace Marker

/-- A version that is written as a number becomes the text of the number that its digits are read
as, in either language, on its own and in the slot of an element, and the notice names that text. The
rest of the marker is read as if the version were quoted. A YAML document with aliases may be refused
where following them takes too many steps for its size. -/
theorem parse_version_number (v : VersionNumber) :
    (∀ {ms : List (List Char × Syntax)}, Json.IsVersioned ms v →
      ∃ (x : Number) (m : Marker), Json.numberOf? v.spelling = some x ∧
        m.HasVersion v x ((member? "forRemoval" ms).bind Syntax.flag?) ∧
        (∀ {text : String}, (Syntax.object ms).Document text →
          (shape.parse .json text).result = .ok m) ∧
        ∀ {es : List (List Char × Syntax)} {name text : String}, Json.IsElement es name →
          member? "deprecated" es = some (.object ms) → (Syntax.object es).Document text →
            (SourceElement.shape.parse .json text).result = .ok ⟨name, some m⟩) ∧
    (∀ {anchors : Anchors} {tag : Option String} {ms : List (Node × Node)} {text : String},
      Yaml.IsVersioned anchors ms v → (Node.mapping tag ms).IsDocument anchors text →
        ∃ (x : Number) (m : Marker), Scalar.ofPlain (String.ofList v.spelling) = .number x ∧
          m.HasVersion v x ((Node.value? anchors "forRemoval" ms).bind Node.removal?) ∧
          ((shape.parse .yaml text).result = .ok m ∨ (Document.ofText text).HasAlias ∧
            (shape.parse .yaml text).result = .error (.yaml .tooManyAliases))) ∧
    ∀ {anchors : Anchors} {tag tag' : Option String} {ms es : List (Node × Node)}
      {name text : String}, Yaml.IsVersionedSlot tag ms v → Yaml.IsElement anchors es name →
      Node.value? anchors "deprecated" es = some (.mapping tag ms) →
      (Node.mapping tag' es).IsDocument anchors text →
        ∃ (x : Number) (m : Marker), Scalar.ofPlain (String.ofList v.spelling) = .number x ∧
          m.HasVersion v x ((Node.detail? .forRemoval ms).bind Node.removal?) ∧
          ((SourceElement.shape.parse .yaml text).result = .ok ⟨name, some m⟩ ∨
            (Document.ofText text).HasAlias ∧
              (SourceElement.shape.parse .yaml text).result = .error (.yaml .tooManyAliases)) := by
  refine ⟨fun {ms} h => ?_, fun {anchors tag ms text} h htext => ?_,
    fun {anchors tag tag' ms es name text} h element hslot htext => ?_⟩
  · obtain ⟨plain, x, hx, hversion⟩ := h.hasVersion
    refine ⟨x, _, hx, hversion, fun htext => Shape.parse_json_document htext
      (ofSyntax?_object plain h.once (by decide)).1,
      fun element hslot htext => Shape.parse_json_document htext ?_⟩
    rw [element.ofSyntax?_eq, hslot, Option.elim_some, (ofSyntax?_object plain h.once (by decide)).2]
    rfl
  · obtain ⟨storable, x, hx, hs, becomes⟩ := v.version?_node
    have hread := ofNode?_mapping tag h.keys h.once h.details (by decide : 99 ≤ 127)
    rw [h.since, Option.bind_some, hs] at hread
    exact ⟨x, _, hx, becomes.hasVersion _, Shape.parse_yaml_document htext hread⟩
  · obtain ⟨storable, x, hx, hs, becomes⟩ := v.version?_node
    have hmapping : (Node.mapping tag ms).Storable := .mapping h.unnamed h.keys fun m hm =>
      (h.values m hm).elim (fun hnode => hnode ▸ storable) id
    have fills := Node.Fills.mapping h.within hmapping h.named
    have hmarker : ofMapping ms
        = ⟨some x.toText, (Node.detail? .forRemoval ms).bind Node.removal?⟩ := by
      rw [ofMapping, h.since, Option.bind_some, hs]
    have htarget : (some (Node.mapping tag ms)).map (·.target anchors) = some (.mapping tag ms) := rfl
    rw [hmarker, ← htarget, ← hslot] at fills
    exact ⟨x, _, hx, becomes.hasVersion _,
      Shape.parse_yaml_document htext (element.ofNode? fills)⟩

/-- The zero at the end of a version is lost, unless it is the only digit after the point. -/
theorem parse_version_number_zeros :
    (shape.parse .json "\x7b\"since\":1.10\x7d").result = .ok ⟨some "1.1", none⟩ ∧
    (SourceElement.shape.parse .yaml "name: n\ndeprecated:\n  since: 2.0\n").result
      = .ok ⟨"n", some ⟨some "2.0", none⟩⟩ := by
  have hasVersion {m : Marker} {v : VersionNumber} {x : Number} (h : m.HasVersion v x none)
      (hf : v.fraction ≠ []) (short : v.IsShort) {s : String}
      (hs : s.toList = Nat.toDigits 10 v.whole ++ '.' :: Text.trim v.fraction) :
      m = ⟨some s, none⟩ := by
    have htext : x.toText = s :=
      String.toList_inj.mp ((h.becomes.short hf short).trans hs.symm)
    rw [← htext, ← h.since, ← h.removal]
  obtain ⟨ten, hten, whole, fraction⟩ : ∃ v : VersionNumber, v.spelling = ['1', '.', '1', '0'] ∧
      v.whole = 1 ∧ v.fraction = ['1', '0'] := ⟨⟨1, ['1', '0'], by decide, by simp⟩, by decide, rfl, rfl⟩
  obtain ⟨two, htwo, whole', fraction'⟩ : ∃ v : VersionNumber, v.spelling = ['2', '.', '0'] ∧
      v.whole = 2 ∧ v.fraction = ['0'] := ⟨⟨2, ['0'], by decide, by simp⟩, by decide, rfl, rfl⟩
  have since : Json.IsPaired "since".toList := Json.isPaired_of_plain (by simp)
  have number : Json.IsMagnitude (['1'] ++ ('.' :: ['1', '0'] ++ [])) :=
    .parts (.digits ⟨by simp, by simp⟩ (by decide)) (.digits ⟨by simp, by simp⟩) .none
  have object : (Syntax.object [("since".toList, .number ten.spelling)]).Document
      "\x7b\"since\":1.10\x7d" := by
    rw [hten]
    exact ⟨[], _, [], rfl, Json.blanks_nil, ⟨_, rfl, [], [], [], _, [], rfl,
      .first Json.blanks_nil, since.isBody, Json.blanks_nil, Json.blanks_nil,
      ⟨rfl, .positive number⟩, Json.blanks_nil⟩, Json.blanks_nil⟩
  have hjson : Json.IsVersioned [("since".toList, .number ten.spelling)] ten :=
    { keys := List.forall_mem_singleton.mpr since
      values := List.forall_mem_singleton.mpr (.inl rfl)
      once := fun _ _ => List.pairwise_singleton _ _
      since := Json.member?_cons_self rfl }
  have hslot : Yaml.IsVersionedSlot none [(.scalar "since" .plain none, two.node)] two :=
    { within := .mapping _ (List.forall_mem_singleton.mpr (.scalar _ _ _))
        (List.forall_mem_singleton.mpr (.scalar _ _ _))
      unnamed := rfl
      keys := List.forall_mem_singleton.mpr (.scalar (v := .text "since") rfl (by cbv) (by simp))
      values := List.forall_mem_singleton.mpr (.inl rfl)
      named := ⟨List.forall_mem_singleton.mpr rfl, List.pairwise_singleton _ _⟩
      since := rfl }
  have document {text : String} (htext : (Node.mapping none [(.scalar "name" .plain none,
      .scalar "n" .plain none), (.scalar "deprecated" .plain none,
        .mapping none [(.scalar "since" .plain none, two.node)])]).IsDocument .unused text) :
      ¬ (Document.ofText text).HasAlias := by
    rintro ⟨n, hn⟩
    rw [htext.events] at hn
    simp [Node.events, Node.pairEvents, VersionNumber.node] at hn
  constructor
  · obtain ⟨_, m, -, hm, halone, -⟩ := (parse_version_number ten).1 hjson
    have short : ten.IsShort := by
      rw [VersionNumber.IsShort, VersionNumber.digits, whole, fraction]
      decide
    rw [halone object, hasVersion (s := "1.1") hm (by simp [fraction]) short
      (by rw [whole, fraction]; decide)]
  · have short : two.IsShort := by
      rw [VersionNumber.IsShort, VersionNumber.digits, whole', fraction']
      decide
    have htext : (Node.mapping none [(.scalar "name" .plain none, .scalar "n" .plain none),
        (.scalar "deprecated" .plain none, .mapping none [(.scalar "since" .plain none,
          two.node)])]).IsDocument .unused "name: n\ndeprecated:\n  since: 2.0\n" := by
      rw [VersionNumber.node, htwo]
      exact Node.isDocument_of_ofText (by cbv) (by simp [Node.events, Node.pairEvents])
    obtain ⟨_, m, -, hm, hok | ⟨halias, -⟩⟩ := (parse_version_number two).2.2 hslot
      (Yaml.isElement_pair .unused "n" _) rfl htext
    · rw [hok, hasVersion (s := "2.0") hm (by simp [fraction']) short
        (by rw [whole', fraction']; decide)]
    · exact absurd halias (document htext)

end Marker

end ApiSurface
