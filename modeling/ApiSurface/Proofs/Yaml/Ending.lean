/-
A line break after a written document.

Whether it can be told from the document depends on the last scalar of the text. A literal block
that ends with several line ends keeps those that follow, so one more line break belongs to its
text (`Longer.write`); after any other scalar empty lines say nothing. In a model the last scalar
can be a documentation line of the last endpoint, or the name or the version of its origin
(`Model.lastText?`).

* `Model.parse_render_break` — when a model is read back from its document and a line break.
-/
import ApiSurface.Proofs.Yaml.RoundTrip

namespace ApiSurface

namespace Yaml

/-! ### Literal blocks that keep their line ends -/

theorem exists_getLast?_of_keep {cs : List Char} (h : chompingOf cs = .keep) :
    ∃ b, cs.getLast? = some b ∧ isBreak b = true := by
  rw [chompingOf] at h
  rw [← List.head?_reverse]
  cases hr : cs.reverse with
  | nil => simp [hr] at h
  | cons c ds =>
    refine ⟨c, rfl, ?_⟩
    cases hc : isBreak c with
    | true => rfl
    | false => cases ds <;> simp [hr, hc] at h

/-- Another line end changes no indicator of a block that keeps its line ends. -/
theorem literalIndicators_append_newline {cs : List Char} (h : chompingOf cs = .keep) :
    chompingOf (cs ++ ['\n']) = .keep ∧
      literalIndicators (cs ++ ['\n']) = literalIndicators cs := by
  obtain ⟨b, hb, hbreak⟩ := exists_getLast?_of_keep h
  obtain ⟨ds, rfl⟩ := List.getLast?_eq_some_iff.mp hb
  have hkeep : chompingOf (ds ++ [b] ++ ['\n']) = .keep := by
    have hbreaks : ∀ x ∈ [b, '\n'], isBreak x = true := by
      rintro x (_ | ⟨_, _ | ⟨_, ⟨⟩⟩⟩)
      · exact hbreak
      · rfl
    rw [List.append_assoc]
    exact Lexer.chompingOf_breaks ds hbreaks (by simp)
  have hhides : hidesIndent (ds ++ [b] ++ ['\n']) = hidesIndent (ds ++ [b]) := by
    rw [hidesIndent, hidesIndent]
    cases ds <;> rfl
  rw [literalIndicators_eq, literalIndicators_eq, hhides, hkeep, h]
  exact ⟨rfl, rfl⟩

theorem closingBreak_of_keep {cs : List Char} (h : chompingOf cs = .keep) :
    closingBreak cs = [] := by
  obtain ⟨b, hb, hbreak⟩ := exists_getLast?_of_keep h
  simp [closingBreak, hb, hbreak]

theorem literal_append_newline {cs : List Char} (h : chompingOf cs = .keep) (indent : Nat) :
    literal indent (cs ++ ['\n']) = literal indent cs ++ ['\n'] := by
  obtain ⟨hkeep, hindicators⟩ := literalIndicators_append_newline h
  have hlines := literalLines_append_break (show isBreak '\n' = true from rfl) indent true cs
  rw [literal, literal, ← closingBreak, ← closingBreak, closingBreak_of_keep h,
    closingBreak_of_keep hkeep, hindicators, hlines]
  simp

theorem literalAllowed_append_newline {cs : List Char} (h : Style.literalAllowed cs = true) :
    Style.literalAllowed (cs ++ ['\n']) = true := by
  simp only [Style.literalAllowed, Bool.and_eq_true, Bool.not_eq_true', bne_iff_ne] at h ⊢
  obtain ⟨⟨printable, spaces⟩, last⟩ := h
  refine ⟨⟨?_, ?_⟩, by simp⟩
  · rw [List.all_append, printable]
    decide
  · refine Style.anyPair_append_singleton spaces fun c hc => ?_
    have : c ≠ ' ' := by
      rintro rfl
      exact last hc
    simp [this]

/-- A text that keeps its line ends is written with one more as it is. -/
theorem KeepsBreaks.text {s : String} (h : KeepsBreaks s) (indent : Nat) :
    text indent (s ++ "\n") = text indent s ++ ['\n'] := by
  obtain ⟨hstyle, hkeep⟩ := h
  have hspec := Style.ofText_spec s
  rw [hstyle] at hspec
  have hlist : (s ++ "\n").toList = s.toList ++ ['\n'] := String.toList_append
  have hliteral : Style.ofText (s ++ "\n") = .literal := by
    rw [Style.ofText, hlist]
    simp [literalAllowed_append_newline hspec.2]
  rw [Yaml.text, Yaml.text, hliteral, hstyle, hlist]
  exact literal_append_newline hkeep indent

/-! ### Trees -/

/-- Whether the second tree is the first one with a line end added to its last text, which keeps
it. -/
inductive Longer : Tree → Tree → Prop
  | text {s : String} (keeps : KeepsBreaks s) : Longer (.text s) (.text (s ++ "\n"))
  | list (init : List Tree) {t t' : Tree} (h : Longer t t') :
      Longer (.list (init ++ [t])) (.list (init ++ [t']))
  | record (init : List (String × Tree)) (key : String) {t t' : Tree} (h : Longer t t') :
      Longer (.record (init ++ [(key, t)])) (.record (init ++ [(key, t')]))

theorem writeItems_append_last {t t' : Tree} {cs : List Char}
    (h : ∀ p indent, write p indent t' = write p indent t ++ cs) (indent : Nat)
    (init : List Tree) :
    writeItems indent (init ++ [t']) = writeItems indent (init ++ [t]) ++ cs := by
  induction init with
  | nil => simp [writeItems, h]
  | cons item rest ih => simp [writeItems, ih]

theorem writeMembers_append_last {key : String} {t t' : Tree} {cs : List Char}
    (h : ∀ p indent, write p indent t' = write p indent t ++ cs) (indent : Nat)
    (init : List (String × Tree)) :
    writeMembers indent (init ++ [(key, t')]) = writeMembers indent (init ++ [(key, t)]) ++ cs := by
  induction init with
  | nil => simp [writeMembers, h]
  | cons m rest ih => simp [writeMembers, ih]

/-- The line end stands at the end of the document. -/
theorem Longer.write {t t' : Tree} (h : Longer t t') (p : Position) (indent : Nat) :
    write p indent t' = write p indent t ++ ['\n'] := by
  induction h generalizing p indent with
  | text keeps => simp [Yaml.write, keeps.text]
  | list init h ih => simp [Yaml.write, writeItems_append_last ih]
  | record init key h ih => simp [Yaml.write, writeMembers_append_last ih]

/-- The last one of some values. -/
theorem Longer.map {α : Type} (encode : α → Tree) (init : List α) {a a' : α}
    (h : Longer (encode a) (encode a')) :
    Longer (.list ((init ++ [a]).map encode)) (.list ((init ++ [a']).map encode)) := by
  rw [List.map_append, List.map_append]
  exact .list _ h

theorem Longer.cons (m : String × Tree) {ms ms' : List (String × Tree)}
    (h : Longer (.record ms) (.record ms')) : Longer (.record (m :: ms)) (.record (m :: ms')) := by
  cases h with
  | record init key h => exact .record (m :: init) key h

theorem Longer.last (key : String) {t t' : Tree} (h : Longer t t') :
    Longer (.record [(key, t)]) (.record [(key, t')]) := .record [] key h

/-- A member that differs after a first one, whether that is hidden or not. -/
theorem Longer.later {α σ β : Type} {field : Field α} {s : Shape α} {rest : Fields σ β} {a : α}
    {b b' : β} (h : Longer (.record (rest.encode b)) (.record (rest.encode b'))) :
    Longer (.record ((Fields.cons field s rest).encode (a, b)))
      (.record ((Fields.cons field s rest).encode (a, b'))) := by
  rw [Fields.encode, Fields.encode]
  split
  · exact h
  · exact h.cons _

theorem lastItem?_eq (items : List Tree) : lastItem? items = items.getLast?.bind lastText? := by
  induction items with
  | nil => rfl
  | cons item rest ih =>
    rw [lastItem?, ih]
    cases rest <;> simp [List.getLast?_cons]

end Yaml

/-! ### Models -/

/-- The version, unless the flag stands after it. -/
def Marker.lastText? (k : Marker) : Option String :=
  if k.forRemoval.isSome then none else k.since

/-- The name, unless a marker stands after it. -/
def SourceElement.lastText? (e : SourceElement) : Option String :=
  match e.deprecated with
  | some k => k.lastText?
  | none => some e.name

/-- The last documentation line, unless an origin stands after it. -/
def Endpoint.lastText? (e : Endpoint) : Option String :=
  match e.origin with
  | some o => o.lastText?
  | none => e.comments.getLast?

/-- That of the last endpoint. -/
def Application.lastText? (a : Application) : Option String :=
  a.endpoints.getLast?.bind Endpoint.lastText?

/-- The last scalar of a model's document, if it is a text. -/
def Model.lastText? (m : Model) : Option String :=
  m.applications.getLast?.bind Application.lastText?

theorem Marker.lastText?_encode (k : Marker) :
    Yaml.lastText? (shape.encode k) = k.lastText? := by
  rcases k with ⟨_ | s, _ | b⟩ <;> rfl

theorem SourceElement.lastText?_encode (e : SourceElement) :
    Yaml.lastText? (shape.encode e) = e.lastText? := by
  rcases e with ⟨name, _ | k⟩
  · rfl
  · exact k.lastText?_encode

theorem Endpoint.lastText?_encode (e : Endpoint) :
    Yaml.lastText? (shape.encode e) = e.lastText? := by
  have hcomments (comments : List String) :
      Yaml.lastItem? (comments.map .text) = comments.getLast? := by
    rw [Yaml.lastItem?_eq, List.getLast?_map]
    cases comments.getLast? <;> rfl
  rcases e with ⟨_, _, _, _, _, _, _, _ | p, comments, _ | o⟩
  · exact hcomments comments
  · exact o.lastText?_encode
  · exact hcomments comments
  · exact o.lastText?_encode

theorem Application.lastText?_encode (a : Application) :
    Yaml.lastText? (shape.encode a) = a.lastText? := by
  have hendpoints (endpoints : List Endpoint) :
      Yaml.lastItem? (endpoints.map Endpoint.shape.encode) =
        endpoints.getLast?.bind Endpoint.lastText? := by
    rw [Yaml.lastItem?_eq, List.getLast?_map, Option.bind_map]
    exact congrArg _ (funext Endpoint.lastText?_encode)
  rcases a with ⟨_, _ | p, _ | n, endpoints⟩ <;> exact hendpoints endpoints

theorem Model.lastText?_encode (m : Model) : Yaml.lastText? (shape.encode m) = m.lastText? := by
  show Yaml.lastItem? (m.applications.map Application.shape.encode) = _
  rw [Yaml.lastItem?_eq, List.getLast?_map, Option.bind_map]
  exact congrArg _ (funext Application.lastText?_encode)

theorem Marker.exists_longer {k : Marker} {s : String} (h : k.lastText? = some s)
    (keeps : Yaml.KeepsBreaks s) :
    ∃ k', k' ≠ k ∧ Yaml.Longer (shape.encode k) (shape.encode k') := by
  rcases k with ⟨_ | r, _ | b⟩
  · exact absurd h (by simp [lastText?])
  · exact absurd h (by simp [lastText?])
  · obtain rfl := Option.some.inj h
    exact ⟨{ since := some (r ++ "\n") }, by simp, .last _ (.text keeps)⟩
  · exact absurd h (by simp [lastText?])

theorem SourceElement.exists_longer {e : SourceElement} {s : String} (h : e.lastText? = some s)
    (keeps : Yaml.KeepsBreaks s) :
    ∃ e', e' ≠ e ∧ Yaml.Longer (shape.encode e) (shape.encode e') := by
  rcases e with ⟨name, _ | k⟩
  · obtain rfl := Option.some.inj h
    exact ⟨{ name := name ++ "\n" }, by simp, .last _ (.text keeps)⟩
  · obtain ⟨k', hne, hk'⟩ := Marker.exists_longer h keeps
    exact ⟨⟨name, some k'⟩, by simpa using hne, .cons _ (.last _ hk')⟩

/-- The documentation and the origin of an endpoint stand at the end of its record. -/
theorem Endpoint.longer_of_members (e : Endpoint) (comments comments' : List String)
    (origin origin' : Option SourceElement)
    (h : Yaml.Longer
      (.record ((Fields.cons commentsField commentsShape
        (.cons originField originShape .nil)).encode (comments, origin, ())))
      (.record ((Fields.cons commentsField commentsShape
        (.cons originField originShape .nil)).encode (comments', origin', ())))) :
    Yaml.Longer (shape.encode { e with comments, origin })
      (shape.encode { e with comments := comments', origin := origin' }) :=
  .later (.later (.later (.later (.later (.later (.later (.later h)))))))

theorem Endpoint.exists_longer {e : Endpoint} {s : String} (h : e.lastText? = some s)
    (keeps : Yaml.KeepsBreaks s) :
    ∃ e', e' ≠ e ∧ Yaml.Longer (shape.encode e) (shape.encode e') := by
  rw [lastText?] at h
  split at h
  · rename_i o ho
    obtain ⟨o', hne, ho'⟩ := SourceElement.exists_longer h keeps
    refine ⟨{ e with origin := some o' }, fun he => hne ?_, ?_⟩
    · have := congrArg Endpoint.origin he
      rw [ho] at this
      exact Option.some.inj this
    · have := e.longer_of_members e.comments e.comments (some o) (some o')
        (.cons _ (.last _ ho'))
      rwa [← ho] at this
  · rename_i ho
    obtain ⟨init, hinit⟩ := List.getLast?_eq_some_iff.mp h
    refine ⟨{ e with comments := init ++ [s ++ "\n"] }, fun he => ?_, ?_⟩
    · have := congrArg Endpoint.comments he
      simp [hinit] at this
    · have hlast : Yaml.Longer (commentsShape.encode (init ++ [s]))
          (commentsShape.encode (init ++ [s ++ "\n"])) :=
        .map (Shape.text.encode ·) init (.text keeps)
      have := e.longer_of_members _ _ none none (.last _ hlast)
      rwa [← hinit, ← ho] at this

theorem Application.exists_longer {a : Application} {s : String} (h : a.lastText? = some s)
    (keeps : Yaml.KeepsBreaks s) :
    ∃ a', a' ≠ a ∧ Yaml.Longer (shape.encode a) (shape.encode a') := by
  obtain ⟨e, he, h⟩ := Option.bind_eq_some_iff.mp h
  obtain ⟨e', hne, he'⟩ := Endpoint.exists_longer h keeps
  obtain ⟨init, hinit⟩ := List.getLast?_eq_some_iff.mp he
  refine ⟨{ a with endpoints := init ++ [e'] }, fun ha => hne ?_, ?_⟩
  · have := congrArg Application.endpoints ha
    rw [hinit] at this
    simpa using this
  · have hlast : Yaml.Longer (.list (a.endpoints.map (Endpoint.shape.encode ·)))
        (.list ((init ++ [e']).map (Endpoint.shape.encode ·))) := by
      rw [hinit]
      exact .map _ init he'
    exact .later (.later (.later (.last _ hlast)))

/-- If the last text of a model keeps the line ends after it, the document of another model has one
line end more. -/
theorem Model.exists_longer {m : Model} {s : String} (h : m.lastText? = some s)
    (keeps : Yaml.KeepsBreaks s) :
    ∃ m', m' ≠ m ∧ m'.enums = m.enums ∧ Yaml.Longer (shape.encode m) (shape.encode m') := by
  obtain ⟨a, ha, h⟩ := Option.bind_eq_some_iff.mp h
  obtain ⟨a', hne, ha'⟩ := Application.exists_longer h keeps
  obtain ⟨init, hinit⟩ := List.getLast?_eq_some_iff.mp ha
  refine ⟨{ m with applications := init ++ [a'] }, fun hm => hne ?_, rfl, ?_⟩
  · have := congrArg Model.applications hm
    rw [hinit] at this
    simpa using this
  · have hlast : Yaml.Longer (.list (m.applications.map (Application.shape.encode ·)))
        (.list ((init ++ [a']).map (Application.shape.encode ·))) := by
      rw [hinit]
      exact .map _ init ha'
    exact .later (.later (.last _ hlast))

theorem Model.render_yaml_append_newline (m : Model) :
    m.render .yaml ++ "\n" = String.ofList (Yaml.write .top 0 (shape.encode m) ++ ['\n']) := by
  rw [render, Yaml.document, String.ofList_append]

/-- A model is read back from its document and a line break, unless its last text is a literal
block that keeps the line ends after it; then another model is read. -/
theorem Model.parse_render_break {m : Model} (whole : m.IsWhole) :
    Model.parse .yaml (m.render .yaml ++ "\n") = .ok m ↔
      ∀ s, m.lastText? = some s → ¬ Yaml.KeepsBreaks s := by
  rw [Model.parse, Shape.parse, render_yaml_append_newline]
  constructor
  · -- The text is also that of another model, and would have to be read as both.
    intro h s hs keeps
    obtain ⟨m', hne, henums, hlonger⟩ := Model.exists_longer hs keeps
    have whole' : m'.IsWhole := by rwa [IsWhole, henums]
    have hread := Yaml.decode_document Model.isUntagged_shape
      (Model.keeps_shape (n := 9) (by decide) m' whole') (by decide)
    rw [Yaml.document, hlonger.write] at hread
    rw [hread] at h
    exact hne (Except.ok.inj h)
  · intro h
    have hend : ¬ Yaml.KeepsEnd (shape.encode m) := by
      rintro ⟨s, hs, keeps⟩
      rw [lastText?_encode] at hs
      exact h s hs keeps
    have hread := Yaml.decode_write Model.isUntagged_shape
      (Model.keeps_shape (n := 9) (by decide) m whole) (by decide) (j := 1)
      fun keeps => absurd keeps hend
    rw [show Yaml.margin 1 0 = ['\n'] from rfl] at hread
    simp only [hread]
    rfl

end ApiSurface
