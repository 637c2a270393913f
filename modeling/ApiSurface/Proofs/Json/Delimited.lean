/-
A rendered JSON model delimits itself.

Where a spelled object ends does not depend on what follows it, because stepping over a value is
a function of the text (`rest_eq`). So no text that is decoded is a part of a rendered model from its
start, and nothing but blanks may be appended to one.
-/
import ApiSurface.Proofs.Json.Accepted
import ApiSurface.Proofs.Json.RoundTrip
import ApiSurface.Proofs.Json.Written

namespace ApiSurface.Json

variable {t t' : Syntax} {bs bs' cs cs' rest rest' : List Char}

/-- A text has one way only to be a value and what follows it. -/
theorem rest_eq (h : t.Spells cs) (h' : t'.Spells cs') (hb : Blanks bs) (hb' : Blanks bs')
    (hf : t.Follows rest) (hf' : t'.Follows rest')
    (htext : bs ++ (cs ++ rest) = bs' ++ (cs' ++ rest')) : rest = rest' := by
  have hskip := Reader.skipMember_ok h blanks_nil hb hf 0
  rw [htext, Reader.skipMember_ok h' blanks_nil hb' hf' 0] at hskip
  cases hskip
  rfl

/-- A document that starts with a brace holds an object. -/
theorem eq_object_of_brace (h : t.Spells cs) (hb : Blanks bs) {inside : List Char}
    (htext : bs ++ (cs ++ rest) = '\x7b' :: inside) : bs = [] ∧ ∃ ms, t = .object ms := by
  cases bs with
  | cons b bs =>
    obtain ⟨rfl, -⟩ := List.cons.inj htext
    exact absurd (hb _ List.mem_cons_self) (by decide)
  | nil =>
    obtain ⟨c, ds, rfl, hc⟩ := h.exists_opens
    obtain ⟨rfl, -⟩ := List.cons.inj htext
    exact ⟨rfl, Syntax.exists_object_of_opens hc⟩

/-- No document is a proper part of a spelled object from its start. -/
theorem eq_of_start {text : String} {ms : List (List Char × Syntax)}
    (h : (Syntax.object ms).Spells cs) (ht : t.Document text) (hstart : text.toList <+: cs) :
    text.toList = cs := by
  obtain ⟨before, ds, after, htext, hb, hds, -⟩ := ht
  obtain ⟨more, hmore⟩ := hstart
  obtain ⟨inside, hcs, -⟩ := id h
  have hsplit : before ++ (ds ++ (after ++ more)) = [] ++ (cs ++ []) := by
    rw [← hmore, htext]
    simp
  have hbrace : before ++ (ds ++ (after ++ more)) = '\x7b' :: (inside ++ ['\x7d']) := by
    rw [hsplit, hcs]
    simp
  obtain ⟨rfl, ms', rfl⟩ := eq_object_of_brace hds hb hbrace
  have hrest := rest_eq hds h hb blanks_nil trivial trivial hsplit
  rw [← hmore, (List.append_eq_nil_iff.mp hrest).2, List.append_nil]

end ApiSurface.Json

namespace ApiSurface

theorem Model.toList_render_json (m : Model) :
    (m.render .json).toList = Json.write .pretty 0 (Model.shape.encode m) :=
  String.toList_ofList

/-- A model is rendered as an object. -/
theorem Model.exists_spells_render (m : Model) :
    ∃ ms, (Json.Syntax.object ms).Spells (m.render .json).toList := by
  have hspells := Json.spells_write Json.Layout.isBlank_pretty 0 (Model.shape.encode m)
  rw [toList_render_json]
  exact ⟨_, hspells⟩

/-- A text that stops within a rendered model is refused. -/
theorem Model.exists_error_of_start {m : Model} {p : String}
    (hstart : p.toList <+: (m.render .json).toList) (hne : p ≠ m.render .json) :
    ∃ e, Model.parse .json p = .error (.json e) := by
  refine Model.exists_json_error ?_
  cases hparse : Model.parse .json p with
  | error e => rfl
  | ok m' =>
    obtain ⟨t, ht⟩ := Model.exists_document hparse
    obtain ⟨ms, hms⟩ := m.exists_spells_render
    exact absurd (String.toList_injective (Json.eq_of_start hms ht hstart)) hne

/-- Anything but blanks after a rendered model is refused. -/
theorem Model.exists_error_of_append (m : Model) {s : String}
    (h : ¬ ∀ c ∈ s.toList, Json.Reader.isBlank c = true) :
    ∃ e, Model.parse .json (m.render .json ++ s) = .error (.json e) := by
  obtain ⟨ms, hms⟩ := m.exists_spells_render
  have htext : (m.render .json ++ s).toList = [] ++ ((m.render .json).toList ++ s.toList) := by
    rw [String.toList_append, List.nil_append]
  refine Model.exists_json_error ?_
  rw [Model.toOption_parse_json, Json.decode, Json.run_spelled (Json.Reader.denotes_read _ _ _)
    htext Json.blanks_nil hms trivial, if_neg (by rwa [List.all_eq_true])]

/-- A rendered model delimits itself: it is no model before its end, and only blanks may follow
it. -/
theorem Model.render_json_delimited (m : Model) :
    (∀ p : String, p.toList <+: (m.render .json).toList → p ≠ m.render .json →
      ∃ e, Model.parse .json p = .error (.json e)) ∧
    ∀ s : String, ((¬ ∀ c ∈ s.toList, c = ' ' ∨ c = '\t' ∨ c = '\n' ∨ c = '\r') →
      ∃ e, Model.parse .json (m.render .json ++ s) = .error (.json e)) ∧
    (m.IsWhole → (∀ c ∈ s.toList, c = ' ' ∨ c = '\t' ∨ c = '\n' ∨ c = '\r') →
      Model.parse .json (m.render .json ++ s) = .ok m) := by
  have hblank (c : Char) :
      c = ' ' ∨ c = '\t' ∨ c = '\n' ∨ c = '\r' ↔ Json.Reader.isBlank c = true := by
    simp only [Json.Reader.isBlank, Bool.or_eq_true, decide_eq_true_eq]
    tauto
  simp only [hblank]
  refine ⟨fun p hstart hne => Model.exists_error_of_start hstart hne, fun s =>
    ⟨fun h => m.exists_error_of_append h, fun whole h => ?_⟩⟩
  have hparse := Model.parse_blank_json whole Json.blanks_nil h
  rwa [List.nil_append, ← String.toList_append, String.ofList_toList] at hparse

/-- A rendered model that is cut off inside a string or loses its last brace, one with a brace too
many after it, and one with a line end after it. -/
theorem Model.render_json_delimited_awkward :
    (let p := "\x7b\n  \"beans\": [\n    \x7b\n      \"name\": \"nul"
     p.toList <+: (Model.awkward.render .json).toList ∧ p ≠ Model.awkward.render .json ∧
       ∃ e, Model.parse .json p = .error (.json e)) ∧
    (let p := String.ofList (Model.awkward.render .json).toList.dropLast
     p.toList <+: (Model.awkward.render .json).toList ∧ p ≠ Model.awkward.render .json ∧
       ∃ e, Model.parse .json p = .error (.json e)) ∧
    (∃ e, Model.parse .json (Model.awkward.render .json ++ "\x7d") = .error (.json e)) ∧
    Model.awkward.IsWhole ∧
    Model.parse .json (Model.awkward.render .json ++ "\n") = .ok Model.awkward := by
  obtain ⟨cut, append⟩ := Model.render_json_delimited Model.awkward
  have inside : "\x7b\n  \"beans\": [\n    \x7b\n      \"name\": \"nul".toList <+:
      (Model.awkward.render .json).toList := by
    rw [toList_render_json]
    exact List.isPrefixOf_iff_prefix.mp (by decide +kernel)
  have inside_ne : "\x7b\n  \"beans\": [\n    \x7b\n      \"name\": \"nul" ≠
      Model.awkward.render .json := by
    intro h
    have hlist := congrArg String.toList h
    rw [toList_render_json] at hlist
    exact absurd hlist (by decide +kernel)
  have last : (String.ofList (Model.awkward.render .json).toList.dropLast).toList <+:
      (Model.awkward.render .json).toList := by
    rw [String.toList_ofList]
    exact List.dropLast_prefix _
  have last_ne : String.ofList (Model.awkward.render .json).toList.dropLast ≠
      Model.awkward.render .json := by
    intro h
    have hlist := congrArg String.toList h
    rw [String.toList_ofList, toList_render_json] at hlist
    exact absurd hlist (by decide +kernel)
  exact ⟨⟨inside, inside_ne, cut _ inside inside_ne⟩, ⟨last, last_ne, cut _ last last_ne⟩,
    (append "\x7d").1 (by simp), Model.isWhole_awkward,
    (append "\n").2 Model.isWhole_awkward (by simp)⟩

end ApiSurface
