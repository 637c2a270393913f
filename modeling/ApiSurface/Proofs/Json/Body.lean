/-
Strings of the grammar, read and stepped over.

`textOf?` is what the inside of a string stands for, if it pairs up its surrogates; `gives_string`
says that it is what a string reader makes of it, whatever follows. A reader that succeeds has taken
a spelled string away (`isBody_of_string`, `isBody_of_skipString`).
-/
import ApiSurface.Proofs.Json.Grammar
import ApiSurface.Proofs.Json.Outcome

namespace ApiSurface.Json

/-! ### What a string stands for -/

theorem hexUnit_cons {a b c d : Char} {n : Nat} (h : Text.number? 16 [a, b, c, d] = some n)
    (rest : List Char) : hexUnit (a :: b :: c :: d :: rest) = .ok (n, rest) := by
  simp only [hexUnit, h]

theorem shortEscape?_ne_u {c : Char} (h : (shortEscape? c).isSome = true) : c ≠ 'u' := by
  rintro rfl
  exact absurd h (by decide)

theorem escape_short {c d : Char} (h : shortEscape? c = some d) (rest : List Char) :
    escape (c :: rest) = .ok (d, rest) := by
  simp only [escape, if_neg (shortEscape?_ne_u (h ▸ rfl : (shortEscape? c).isSome = true)), h]

/-- An escape by code point that is not the first half of a pair. -/
theorem escape_unit {a b c d : Char} {n : Nat} (h : Text.number? 16 [a, b, c, d] = some n)
    (high : n < 0xd800 ∨ 0xdbff < n) (rest : List Char) :
    escape ('u' :: a :: b :: c :: d :: rest) =
      if 0xdc00 ≤ n ∧ n ≤ 0xdfff then .error ⟨.loneSurrogate, ⟨rest, 0⟩⟩
      else .ok (Char.ofNat n, rest) := by
  simp only [escape, unicodeEscape, if_true, hexUnit_cons h, bind, Except.bind, if_pos high]
  split <;> rfl

/-- An escape by code point that is the first half of a pair. -/
theorem escape_high {a b c d : Char} {n : Nat} (h : Text.number? 16 [a, b, c, d] = some n)
    (high : ¬ (n < 0xd800 ∨ 0xdbff < n)) (rest : List Char) :
    escape ('u' :: a :: b :: c :: d :: rest) = pairWith n rest := by
  simp only [escape, unicodeEscape, if_true, hexUnit_cons h, bind, Except.bind, if_neg high]
  rw [if_neg (by omega)]

/-- The second half of a pair. -/
theorem pairWith_unit (n : Nat) {a b c d : Char} {k : Nat}
    (h : Text.number? 16 [a, b, c, d] = some k) (rest : List Char) :
    pairWith n ('\\' :: 'u' :: a :: b :: c :: d :: rest) =
      if k < 0xdc00 ∨ 0xdfff < k then .error ⟨.loneSurrogate, ⟨rest, 0⟩⟩
      else .ok (Char.ofNat ((n - 0xd800) * 0x400 + (k - 0xdc00) + 0x10000), rest) := by
  simp only [pairWith, ne_eq, not_true_eq_false, if_false, hexUnit_cons h, bind, Except.bind]
  split <;> rfl

/-- Whether a result is what was read before and certain characters, or a failure. -/
inductive Yields (read rest : List Char) :
    Option (List Char) → Except TextFault (List Char × List Char) → Prop
  | ok (cs : List Char) : Yields read rest (some cs) (.ok (read.reverse ++ cs, rest))
  | error (e : TextFault) : Yields read rest none (.error e)

theorem Yields.cons {c : Char} {read rest : List Char} {o : Option (List Char)}
    {r : Except TextFault (List Char × List Char)} (h : Yields (c :: read) rest o r) :
    Yields read rest (o.map (c :: ·)) r := by
  cases h with
  | ok cs =>
    have : Yields read rest (some (c :: cs)) _ := .ok (c :: cs)
    rwa [List.reverse_cons, List.append_assoc]
  | error e => exact .error e

/-- Whether the inside of a string is read as certain characters, or refused, whatever was read
before it and whatever follows. -/
def BodyYields (body : List Char) (o : Option (List Char)) : Prop :=
  ∀ fuel read rest : List Char, body.length < fuel.length →
    Yields read rest o (stringBody fuel read (body ++ '"' :: rest))

namespace BodyYields

variable {cs : List Char} {o : Option (List Char)}

theorem nil : BodyYields [] (some []) := by
  intro fuel read rest hf
  obtain ⟨f, fuel, rfl⟩ := List.exists_cons_of_length_pos hf
  have hread : stringBody (f :: fuel) read ('"' :: rest) = .ok (read.reverse ++ [], rest) := by
    simp [stringBody]
  rw [List.nil_append, hread]
  exact .ok []

theorem char {c : Char} (quote : c ≠ '"') (backslash : c ≠ '\\') (control : ¬ c.toNat < 0x20)
    (h : BodyYields cs o) : BodyYields (c :: cs) (o.map (c :: ·)) := by
  intro fuel read rest hf
  obtain ⟨f, fuel, rfl⟩ := List.exists_cons_of_length_pos (Nat.zero_lt_of_lt hf)
  have hrest := (h fuel (c :: read) rest (Nat.lt_of_succ_lt_succ hf)).cons
  simpa [stringBody, quote, backslash, control] using hrest

/-- An escape that is read as a character, and what follows it. -/
theorem escape (taken : List Char) {c : Char}
    (hc : ∀ rest, Json.escape (taken ++ rest) = .ok (c, rest)) (h : BodyYields cs o) :
    BodyYields ('\\' :: (taken ++ cs)) (o.map (c :: ·)) := by
  intro fuel read rest hf
  obtain ⟨f, fuel, rfl⟩ := List.exists_cons_of_length_pos (Nat.zero_lt_of_lt hf)
  have hfuel : cs.length < fuel.length := by
    simp only [List.length_cons, List.length_append] at hf
    omega
  have hrest := (h fuel (c :: read) rest hfuel).cons
  simpa [stringBody, hc] using hrest

/-- An escape that is refused. -/
theorem refuse (h : ∀ rest, ∃ e, Json.escape (cs ++ '"' :: rest) = .error e) :
    BodyYields ('\\' :: cs) none := by
  intro fuel read rest hf
  obtain ⟨f, fuel, rfl⟩ := List.exists_cons_of_length_pos (Nat.zero_lt_of_lt hf)
  obtain ⟨e, he⟩ := h rest
  have hread : stringBody (f :: fuel) read ('\\' :: (cs ++ '"' :: rest)) = .error e := by
    simp [stringBody, he]
  rw [List.cons_append, hread]
  exact .error e

end BodyYields

/-- The outcome on the inside of a string depends neither on what was read before nor on what
follows. -/
theorem exists_yields {body : List Char} (h : IsBody body) : ∃ o, BodyYields body o := by
  -- A pair of surrogates takes two escapes at once, so the induction is on the length.
  induction hn : body.length using Nat.strongRecOn generalizing body with
  | ind n ih =>
    cases h with
    | nil => exact ⟨_, .nil⟩
    | @char c cs quote backslash control h =>
      obtain ⟨o, ho⟩ := ih cs.length (by simp [← hn]) h rfl
      exact ⟨_, ho.char quote backslash control⟩
    | @short c cs hc h =>
      obtain ⟨d, hd⟩ := Option.isSome_iff_exists.mp hc
      obtain ⟨o, ho⟩ := ih cs.length (by simp only [← hn, List.length_cons]; omega) h rfl
      exact ⟨_, ho.escape [c] (escape_short hd)⟩
    | @unit a b c d cs hex h =>
      obtain ⟨k, hk⟩ := Option.isSome_iff_exists.mp hex
      by_cases single : k < 0xd800 ∨ 0xdbff < k
      · by_cases low : 0xdc00 ≤ k ∧ k ≤ 0xdfff
        · exact ⟨none, .refuse fun rest => ⟨_, (escape_unit hk single _).trans (if_pos low)⟩⟩
        · obtain ⟨o, ho⟩ := ih cs.length (by simp only [← hn, List.length_cons]; omega) h rfl
          exact ⟨_, ho.escape ['u', a, b, c, d] fun rest =>
            (escape_unit hk single rest).trans (if_neg low)⟩
      · -- The first half of a pair, which the next escape has to complete.
        have refused (hp : ∀ rest, ∃ e, pairWith k (cs ++ '"' :: rest) = .error e) :
            ∃ o, BodyYields ('\\' :: 'u' :: a :: b :: c :: d :: cs) o :=
          ⟨none, .refuse fun rest => (hp rest).imp fun e he => (escape_high hk single _).trans he⟩
        cases h with
        | nil => exact refused fun rest => ⟨_, rfl⟩
        | @char x xs quote backslash => exact refused fun rest => by simp [pairWith, backslash]
        | @short x xs hx => exact refused fun rest => by simp [pairWith, shortEscape?_ne_u hx]
        | @unit x y z w xs hex' h =>
          obtain ⟨j, hj⟩ := Option.isSome_iff_exists.mp hex'
          by_cases lone : j < 0xdc00 ∨ 0xdfff < j
          · exact refused fun rest => ⟨_, (pairWith_unit k hj _).trans (if_pos lone)⟩
          · obtain ⟨o, ho⟩ := ih xs.length (by simp only [← hn, List.length_cons]; omega) h rfl
            exact ⟨_, ho.escape ['u', a, b, c, d, '\\', 'u', x, y, z, w] fun rest =>
              ((escape_high hk single _).trans (pairWith_unit k hj rest)).trans (if_neg lone)⟩

/-- What the inside of a string stands for, if its surrogates are paired up. -/
def textOf? (body : List Char) : Option String :=
  match stringBody ('"' :: (body ++ ['"'])) [] (body ++ ['"']) with
  | .ok (cs, _) => some (String.ofList cs)
  | .error _ => none

/-- A string is read as what its inside stands for, whatever follows. -/
theorem Reader.gives_string {body : List Char} (h : IsBody body) (rest : List Char)
    (ignored : Nat) :
    Gives rest (textOf? body) (string ⟨'"' :: (body ++ '"' :: rest), ignored⟩) := by
  obtain ⟨o, ho⟩ := exists_yields h
  have fuel (rest : List Char) : body.length < ('"' :: (body ++ '"' :: rest)).length := by
    simp only [List.length_append, List.length_cons]
    omega
  have alone := ho ('"' :: (body ++ ['"'])) [] [] (fuel [])
  have whole := ho ('"' :: (body ++ '"' :: rest)) [] rest (fuel rest)
  simp only [textOf?, string, List.tail_cons]
  generalize stringBody ('"' :: (body ++ ['"'])) [] (body ++ ['"']) = r at alone
  generalize stringBody ('"' :: (body ++ '"' :: rest)) [] (body ++ '"' :: rest) = r' at whole
  cases alone with
  | ok cs =>
    cases whole
    exact .ok _ ignored
  | error e =>
    cases whole
    exact .error _ _

/-- Whether a text is the inside of a string with no half of a surrogate pair on its own. -/
inductive IsPaired : List Char → Prop
  | nil : IsPaired []
  | char {c : Char} {cs : List Char} (quote : c ≠ '"') (backslash : c ≠ '\\')
      (control : ¬ c.toNat < 0x20) (h : IsPaired cs) : IsPaired (c :: cs)
  | short {c : Char} {cs : List Char} (hc : (shortEscape? c).isSome = true) (h : IsPaired cs) :
      IsPaired ('\\' :: c :: cs)
  | unit {a b c d : Char} {cs : List Char} {n : Nat} (hex : Text.number? 16 [a, b, c, d] = some n)
      (single : n < 0xd800 ∨ 0xdfff < n) (h : IsPaired cs) :
      IsPaired ('\\' :: 'u' :: a :: b :: c :: d :: cs)
  | pair {a b c d x y z w : Char} {cs : List Char} {n k : Nat}
      (hex : Text.number? 16 [a, b, c, d] = some n) (high : 0xd800 ≤ n ∧ n ≤ 0xdbff)
      (hex' : Text.number? 16 [x, y, z, w] = some k) (low : 0xdc00 ≤ k ∧ k ≤ 0xdfff)
      (h : IsPaired cs) :
      IsPaired ('\\' :: 'u' :: a :: b :: c :: d :: '\\' :: 'u' :: x :: y :: z :: w :: cs)

theorem IsPaired.isBody {body : List Char} (h : IsPaired body) : IsBody body := by
  induction h with
  | nil => exact .nil
  | char quote backslash control _ ih => exact .char quote backslash control ih
  | short hc _ ih => exact .short hc ih
  | unit hex _ _ ih => exact .unit (by rw [hex]; rfl) ih
  | pair hex _ hex' _ _ ih => exact .unit (by rw [hex]; rfl) (.unit (by rw [hex']; rfl) ih)

/-- What has nothing to escape stands in a string as it is. -/
theorem isPaired_of_plain {cs : List Char}
    (h : ∀ c ∈ cs, c ≠ '"' ∧ c ≠ '\\' ∧ ¬ c.toNat < 0x20) : IsPaired cs := by
  induction cs with
  | nil => exact .nil
  | cons c cs ih =>
    obtain ⟨⟨quote, backslash, control⟩, hcs⟩ := List.forall_mem_cons.mp h
    exact .char quote backslash control (ih hcs)

theorem IsPaired.exists_yields {body : List Char} (h : IsPaired body) :
    ∃ cs, BodyYields body (some cs) := by
  induction h with
  | nil => exact ⟨_, .nil⟩
  | char quote backslash control _ ih =>
    obtain ⟨ds, hds⟩ := ih
    exact ⟨_, hds.char quote backslash control⟩
  | @short c cs hc _ ih =>
    obtain ⟨d, hd⟩ := Option.isSome_iff_exists.mp hc
    obtain ⟨ds, hds⟩ := ih
    exact ⟨_, hds.escape [c] (escape_short hd)⟩
  | @unit a b c d cs n hex single _ ih =>
    obtain ⟨ds, hds⟩ := ih
    exact ⟨_, hds.escape ['u', a, b, c, d] fun rest =>
      (escape_unit hex (by omega) rest).trans (if_neg (by omega))⟩
  | @pair a b c d x y z w cs n k hex high hex' low _ ih =>
    obtain ⟨ds, hds⟩ := ih
    exact ⟨_, hds.escape ['u', a, b, c, d, '\\', 'u', x, y, z, w] fun rest =>
      ((escape_high hex (by omega) _).trans (pairWith_unit n hex' rest)).trans (if_neg (by omega))⟩

/-- A string whose surrogates are paired up stands for a text. -/
theorem IsPaired.exists_text {body : List Char} (h : IsPaired body) :
    ∃ s, textOf? body = some s := by
  obtain ⟨cs, hcs⟩ := h.exists_yields
  have hread := hcs ('"' :: (body ++ ['"'])) [] []
    (by simp only [List.length_append, List.length_cons]; omega)
  rw [textOf?]
  generalize stringBody ('"' :: (body ++ ['"'])) [] (body ++ ['"']) = r at hread
  cases hread
  exact ⟨_, rfl⟩

/-! ### Strings that are stepped over -/

theorem skipStringBody_body {body : List Char} (h : IsBody body) {fuel : List Char}
    (hf : body.length < fuel.length) (rest : List Char) :
    skipStringBody fuel (body ++ '"' :: rest) = .ok rest := by
  induction h generalizing fuel with
  | nil =>
    cases fuel with
    | nil => simp at hf
    | cons f fuel => simp [skipStringBody]
  | char quote backslash control _ ih =>
    cases fuel with
    | nil => simp at hf
    | cons f fuel =>
      simpa [skipStringBody, quote, backslash, control] using ih (by simpa using hf)
  | short hc _ ih =>
    cases fuel with
    | nil => simp at hf
    | cons f fuel =>
      have := @ih fuel (by simp at hf; omega)
      simpa [skipStringBody, skipEscape, shortEscape?_ne_u hc, hc] using this
  | unit hex _ ih =>
    obtain ⟨n, hn⟩ := Option.isSome_iff_exists.mp hex
    cases fuel with
    | nil => simp at hf
    | cons f fuel =>
      have := @ih fuel (by simp at hf; omega)
      simpa [skipStringBody, skipEscape, hexUnit_cons hn, Except.map] using this

theorem Reader.skipString_body {body : List Char} (h : IsBody body) (rest : List Char)
    (ignored : Nat) :
    skipString ⟨'"' :: (body ++ '"' :: rest), ignored⟩ = .ok () ⟨rest, ignored⟩ := by
  simp only [skipString, List.tail_cons]
  rw [skipStringBody_body h (by simp only [List.length_append, List.length_cons]; omega)]

/-! ### What a string that was read is spelled like -/

theorem exists_hexUnit {cs rest : List Char} {n : Nat} (h : hexUnit cs = .ok (n, rest)) :
    ∃ a b c d, cs = a :: b :: c :: d :: rest ∧ Text.number? 16 [a, b, c, d] = some n := by
  rcases cs with _ | ⟨a, _ | ⟨b, _ | ⟨c, _ | ⟨d, more⟩⟩⟩⟩
  case cons.cons.cons.cons =>
    cases hn : Text.number? 16 [a, b, c, d] with
    | some k =>
      simp only [hexUnit, hn] at h
      cases h
      exact ⟨a, b, c, d, rfl, hn⟩
    | none =>
      simp only [hexUnit, hn] at h
      split at h <;> cases h
  all_goals
    simp only [hexUnit] at h
    split at h <;> cases h

theorem exists_pairWith {cs rest : List Char} {n : Nat} {c : Char}
    (h : pairWith n cs = .ok (c, rest)) :
    ∃ x y z w, cs = '\\' :: 'u' :: x :: y :: z :: w :: rest ∧
      (Text.number? 16 [x, y, z, w]).isSome = true := by
  -- the second unit of a pair stands right after the first, as an escape of its own
  rcases cs with _ | ⟨d, _ | ⟨e, cs⟩⟩
  · cases h
  · simp only [pairWith] at h
    split at h <;> cases h
  · simp only [pairWith] at h
    split at h
    · cases h
    · rename_i hd
      split at h
      · cases h
      · rename_i he
        cases hlow : hexUnit cs with
        | error f =>
          rw [hlow] at h
          cases h
        | ok r =>
          obtain ⟨low, more⟩ := r
          obtain ⟨x, y, z, w, rfl, hk⟩ := exists_hexUnit hlow
          simp only [hlow, bind, Except.bind] at h
          split at h
          · cases h
          · simp only [pure, Except.pure, Except.ok.injEq, Prod.mk.injEq] at h
            obtain ⟨-, rfl⟩ := h
            exact ⟨x, y, z, w, by simp_all, by rw [hk]; rfl⟩

/-- An escape that was read goes before any inside of a string. -/
theorem isBody_of_escape {cs rest : List Char} {c : Char} (h : escape cs = .ok (c, rest)) :
    ∃ taken, cs = taken ++ rest ∧ ∀ body, IsBody body → IsBody ('\\' :: (taken ++ body)) := by
  rcases cs with _ | ⟨x, more⟩
  · cases h
  by_cases hu : x = 'u'
  · subst hu
    simp only [escape, if_true, unicodeEscape] at h
    cases hn : hexUnit more with
    | error f =>
      rw [hn] at h
      cases h
    | ok r =>
      obtain ⟨n, tail⟩ := r
      obtain ⟨a, b, c', d, rfl, hk⟩ := exists_hexUnit hn
      have hex : (Text.number? 16 [a, b, c', d]).isSome = true := by rw [hk]; rfl
      simp only [hn, bind, Except.bind] at h
      split at h
      · cases h
      split at h
      · cases h
        exact ⟨['u', a, b, c', d], rfl, fun body hb => .unit hex hb⟩
      · obtain ⟨x, y, z, w, rfl, hex'⟩ := exists_pairWith h
        exact ⟨['u', a, b, c', d, '\\', 'u', x, y, z, w], rfl, fun body hb =>
          .unit hex (.unit hex' hb)⟩
  · simp only [escape, if_neg hu] at h
    cases hd : shortEscape? x with
    | none =>
      rw [hd] at h
      cases h
    | some d =>
      rw [hd] at h
      cases h
      exact ⟨[x], rfl, fun body hb => .short (by rw [hd]; rfl) hb⟩

theorem isBody_of_stringBody {fuel read cs taken rest : List Char}
    (h : stringBody fuel read cs = .ok (taken, rest)) :
    ∃ body, cs = body ++ '"' :: rest ∧ IsBody body := by
  induction fuel generalizing read cs with
  | nil => cases h
  | cons f fuel ih =>
    rcases cs with _ | ⟨c, more⟩
    · cases h
    simp only [stringBody] at h
    split at h
    · rename_i hquote
      cases h
      exact ⟨[], by simp [hquote], .nil⟩
    split at h
    · rename_i hback
      cases he : escape more with
      | error e =>
        rw [he] at h
        cases h
      | ok r =>
        obtain ⟨d, tail⟩ := r
        rw [he] at h
        obtain ⟨escaped, rfl, hbody⟩ := isBody_of_escape he
        obtain ⟨body, rfl, hb⟩ := ih h
        exact ⟨'\\' :: (escaped ++ body), by simp [hback], hbody body hb⟩
    split at h
    · cases h
    · rename_i hquote hback hcontrol
      obtain ⟨body, rfl, hb⟩ := ih h
      exact ⟨c :: body, rfl, .char hquote hback hcontrol hb⟩

/-- A string that was read is spelled like one. -/
theorem Reader.isBody_of_string {text : String} {cs : List Char} {ignored : Nat} {s : State}
    (h : string ⟨'"' :: cs, ignored⟩ = .ok text s) :
    ∃ body, cs = body ++ '"' :: s.rest ∧ IsBody body := by
  simp only [string, List.tail_cons] at h
  cases hr : stringBody ('"' :: cs) [] cs with
  | error e =>
    rw [hr] at h
    cases h
  | ok r =>
    obtain ⟨taken, rest⟩ := r
    rw [hr] at h
    cases h
    exact isBody_of_stringBody hr

theorem isBody_of_skipEscape {cs rest : List Char} (h : skipEscape cs = .ok rest) :
    ∃ taken, cs = taken ++ rest ∧ ∀ body, IsBody body → IsBody ('\\' :: (taken ++ body)) := by
  rcases cs with _ | ⟨x, more⟩
  · cases h
  by_cases hu : x = 'u'
  · subst hu
    simp only [skipEscape, if_true] at h
    cases hn : hexUnit more with
    | error f =>
      rw [hn] at h
      cases h
    | ok r =>
      obtain ⟨n, tail⟩ := r
      obtain ⟨a, b, c, d, rfl, hk⟩ := exists_hexUnit hn
      rw [hn] at h
      cases h
      exact ⟨['u', a, b, c, d], rfl, fun body hb => .unit (by rw [hk]; rfl) hb⟩
  · simp only [skipEscape, if_neg hu] at h
    split at h
    · rename_i hc
      cases h
      exact ⟨[x], rfl, fun body hb => .short hc hb⟩
    · cases h

theorem isBody_of_skipStringBody {fuel cs rest : List Char}
    (h : skipStringBody fuel cs = .ok rest) : ∃ body, cs = body ++ '"' :: rest ∧ IsBody body := by
  induction fuel generalizing cs with
  | nil => cases h
  | cons f fuel ih =>
    rcases cs with _ | ⟨c, more⟩
    · cases h
    simp only [skipStringBody] at h
    split at h
    · rename_i hquote
      cases h
      exact ⟨[], by simp [hquote], .nil⟩
    split at h
    · rename_i hback
      cases he : skipEscape more with
      | error e =>
        rw [he] at h
        cases h
      | ok tail =>
        rw [he] at h
        obtain ⟨escaped, rfl, hbody⟩ := isBody_of_skipEscape he
        obtain ⟨body, rfl, hb⟩ := ih h
        exact ⟨'\\' :: (escaped ++ body), by simp [hback], hbody body hb⟩
    split at h
    · cases h
    · rename_i hquote hback hcontrol
      obtain ⟨body, rfl, hb⟩ := ih h
      exact ⟨c :: body, rfl, .char hquote hback hcontrol hb⟩

/-- A string that was stepped over is spelled like one. -/
theorem Reader.isBody_of_skipString {cs : List Char} {ignored : Nat} {s : State}
    (h : skipString ⟨'"' :: cs, ignored⟩ = .ok () s) :
    ∃ body, cs = body ++ '"' :: s.rest ∧ IsBody body := by
  simp only [skipString, List.tail_cons] at h
  cases hr : skipStringBody ('"' :: cs) cs with
  | error e =>
    rw [hr] at h
    cases h
  | ok rest =>
    rw [hr] at h
    cases h
    exact isBody_of_skipStringBody hr

end ApiSurface.Json
