/-
What a JSON reader makes of a text, whether it accepts it or not.

`Gives rest o` says of the result of a reader that it is the value `o` with the text `rest` left, or
any failure if `o` is `none`. `Means r cs o` says that the reader `r` takes the text `cs` away with
this outcome, whatever follows it; unlike `Reads` it speaks of failures too, so that a reader whose
outcomes on all texts of a grammar are known accepts no others.
-/
import ApiSurface.Proofs.Json.Reading

namespace ApiSurface.Json.Reader

variable {α β : Type}

/-- Whether a result is a value with a certain text left, or a failure. -/
inductive Gives (rest : List Char) : Option α → EStateM.Result Failure State α → Prop
  | ok (a : α) (ignored : Nat) : Gives rest (some a) (.ok a ⟨rest, ignored⟩)
  | error (f : Failure) (s : State) : Gives rest none (.error f s)

/-- Whether a reader takes a text away and gives a value, or fails, whatever follows. -/
def Means (r : Reader α) (cs : List Char) (o : Option α) : Prop :=
  ∀ rest ignored, Ends rest → Gives rest o (r ⟨cs ++ rest, ignored⟩)

/-- Whether a reader fails at a text. -/
def Fails (r : Reader α) (s : State) : Prop := ∃ f s', r s = .error f s'

theorem Fails.gives {r : Reader α} {s : State} (h : Fails r s) (rest : List Char) :
    Gives rest none (r s) := by
  obtain ⟨f, s', hr⟩ := h
  rw [hr]
  exact .error f s'

theorem Fails.of_eq {r r' : Reader α} {s s' : State} (h : Fails r' s') (he : r s = r' s') :
    Fails r s := by
  rwa [Fails, he]

theorem bind_error {r : Reader α} {s s' : State} {f : Failure} (h : r s = .error f s')
    (k : α → Reader β) : (r >>= k) s = .error f s' := by
  show EStateM.bind r k s = _
  rw [EStateM.bind, h]

/-- A bind fails where its first reader fails or its second one fails at every value. -/
theorem Fails.bind {r : Reader α} {k : α → Reader β} {s : State} (h : ∀ a s', Fails (k a) s') :
    Fails (r >>= k) s := by
  cases hr : r s with
  | error f s' => exact ⟨f, s', bind_error hr k⟩
  | ok a s' =>
    obtain ⟨f, s'', hk⟩ := h a s'
    exact ⟨f, s'', (bind_ok hr k).trans hk⟩

/-- A bind fails where its first reader does. -/
theorem Fails.bind_left {r : Reader α} {s : State} (h : Fails r s) (k : α → Reader β) :
    Fails (r >>= k) s := by
  obtain ⟨f, s', hr⟩ := h
  exact ⟨f, s', bind_error hr k⟩

/-- A value comes from a value of each of the two readers. -/
theorem bind_eq_ok {r : Reader α} {k : α → Reader β} {s s' : State} {b : β} :
    (r >>= k) s = .ok b s' ↔ ∃ a t, r s = .ok a t ∧ k a t = .ok b s' := by
  constructor
  · intro h
    cases hr : r s with
    | error f t =>
      rw [bind_error hr] at h
      cases h
    | ok a t => exact ⟨a, t, rfl, (bind_ok hr k).symm.trans h⟩
  · rintro ⟨a, t, hr, hk⟩
    rw [bind_ok hr, hk]

theorem Gives.bind {r : Reader α} {k : α → Reader β} {s : State} {m rest : List Char}
    {o : Option α} {p : α → Option β} (h : Gives m o (r s))
    (h' : ∀ a ignored, o = some a → Gives rest (p a) (k a ⟨m, ignored⟩)) :
    Gives rest (o.bind p) ((r >>= k) s) := by
  generalize hr : r s = result at h
  cases h with
  | ok a ignored =>
    rw [bind_ok hr]
    exact h' a ignored rfl
  | error f s' =>
    rw [bind_error hr]
    exact .error f s'

/-- What is read after the value leaves it as it is. -/
theorem Gives.bind_same {r : Reader α} {k : α → Reader α} {s : State} {m rest : List Char}
    {o : Option α} (h : Gives m o (r s))
    (h' : ∀ a ignored, Gives rest (some a) (k a ⟨m, ignored⟩)) : Gives rest o ((r >>= k) s) := by
  rw [← Option.bind_fun_some o]
  exact h.bind fun a ignored _ => h' a ignored

theorem Gives.bind_none {r : Reader α} {k : α → Reader β} {s : State} {m : List Char}
    {o : Option α} (h : Gives m o (r s)) (h' : ∀ a ignored, Fails (k a) ⟨m, ignored⟩)
    (rest : List Char) : Gives rest none ((r >>= k) s) := by
  rw [← Option.bind_fun_none o]
  exact h.bind fun a ignored _ => (h' a ignored).gives rest

/-- What is read last decides the value. -/
theorem Gives.map {r : Reader α} {s : State} {rest : List Char} {o : Option α}
    (h : Gives rest o (r s)) (f : α → β) :
    Gives rest (o.map f) ((do return f (← r) : Reader β) s) := by
  rw [Option.map_eq_bind]
  exact h.bind fun a ignored _ => .ok (f a) ignored

theorem Gives.located {r : Reader α} {s : State} {rest : List Char} {o : Option α}
    (h : Gives rest o (r s)) : Gives rest o (located r s) := by
  rw [Reader.located]
  generalize r s = result at h
  cases h with
  | ok a ignored => exact .ok a ignored
  | error f s' => exact .error _ _

theorem Gives.eq {rest : List Char} {o o' : Option α} {r : EStateM.Result Failure State α}
    (h : Gives rest o r) (h' : Gives rest o' r) : o = o' := by
  cases h <;> cases h' <;> rfl

theorem fails_refuse (m : Mismatch) (s : State) : Fails (refuse m : Reader α) s := ⟨_, _, rfl⟩

theorem fails_failAhead (fault : Fault) (s : State) : Fails (failAhead fault : Reader α) s :=
  ⟨_, _, rfl⟩

theorem Fails.located {r : Reader α} {s : State} (h : Fails r s) : Fails (located r) s := by
  obtain ⟨f, s', hr⟩ := h
  exact ⟨_, s', by rw [Reader.located, hr]⟩

/-- A value that is refused is refused, whatever it is. -/
theorem fails_refuseNext (expected : String) (s : State) :
    Fails (refuseNext expected : Reader α) s := by
  rw [refuseNext]
  refine Fails.located ?_
  refine Fails.bind fun c s => ?_
  cases c with
  | none => exact fails_failAhead _ _
  | some c =>
    dsimp only
    repeat' split
    · exact Fails.bind fun _ _ => Fails.bind fun _ _ => fails_refuse _ _
    · exact Fails.bind fun _ _ => Fails.bind fun _ _ => fails_refuse _ _
    · exact Fails.bind fun _ _ => Fails.bind fun _ _ => fails_refuse _ _
    · exact Fails.bind fun _ _ => Fails.bind fun _ _ => fails_refuse _ _
    · exact Fails.bind fun _ _ => fails_refuse _ _
    · exact Fails.bind fun _ _ => fails_refuse _ _
    · exact fails_refuse _ _
    · exact fails_refuse _ _
    · exact fails_failAhead _ _

end ApiSurface.Json.Reader
