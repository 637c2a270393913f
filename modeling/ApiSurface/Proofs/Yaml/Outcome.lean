/-
What a YAML reader makes of events, whether it accepts them or not.

`Takes d r es o` says that a reader takes some events of a document away and gives a certain value,
or fails, whatever follows; a document with aliases may be refused for following too many of them.
-/
import ApiSurface.Proofs.Yaml.Meaning
import ApiSurface.Proofs.Yaml.Reading

namespace ApiSurface.Yaml

/-- Whether a document has an alias. -/
def Document.HasAlias (d : Document) : Prop := ∃ n, .alias n ∈ d.events.map (·.event)

namespace Reader

variable {α β : Type}

/-- Whether a result is a value with certain events left, or a failure. -/
inductive Gives (d : Document) (after : List Event) :
    Option α → EStateM.Result Error State α → Prop
  | ok {a : α} {s : State} (within : s.rest ⊆ d.events) (hrest : s.rest.map (·.event) = after) :
      Gives d after (some a) (.ok a s)
  | error (e : Error) (s : State) : Gives d after none (.error e s)
  | crowded (h : d.HasAlias) (o : Option α) (s : State) :
      Gives d after o (.error .tooManyAliases s)

/-- Whether a reader takes some events away and gives a value, or fails, whatever follows. -/
def Takes (d : Document) (r : Reader α) (es : List Event) (o : Option α) : Prop :=
  ∀ ⦃s : State⦄ ⦃after : List Event⦄, s.rest ⊆ d.events → s.rest.map (·.event) = es ++ after →
    Gives d after o (r s)

/-- Whether a reader makes of a node a certain value, or fails. -/
def Denotes (d : Document) (r : Scope → Reader α) (t : Node) (o : Option α) : Prop :=
  ∀ ⦃sc : Scope⦄, sc.document = d → Takes d (r sc) t.events o

/-- Whether a reader fails. -/
def Fails (r : Reader α) : Prop := ∀ s, ∃ e s', r s = .error e s'

variable {d : Document} {sc : Scope} {e : Event} {es fs : List Event} {o : Option α}

theorem bind_error {r : Reader α} {s s' : State} {f : Error} (h : r s = .error f s')
    (k : α → Reader β) : (r >>= k) s = .error f s' := by
  show EStateM.bind r k s = _
  rw [EStateM.bind, h]

theorem Fails.takes {r : Reader α} (h : Fails r) (es : List Event) : Takes d r es none := by
  intro s after _ _
  obtain ⟨e, s', hr⟩ := h s
  rw [hr]
  exact .error e s'

theorem fails_throw (e : Error) : Fails (throw e : Reader α) := fun s => ⟨e, s, rfl⟩

theorem fails_refuse (m : Mismatch) : Fails (refuse m : Reader α) := fails_throw _

theorem Fails.bind {r : Reader α} {k : α → Reader β} (h : ∀ a, Fails (k a)) :
    Fails (r >>= k) := by
  intro s
  cases hr : r s with
  | error e s' => exact ⟨e, s', bind_error hr k⟩
  | ok a s' =>
    rw [bind_ok hr]
    exact h a s'

theorem fails_refuseEvent (e : Event) (expected : String) :
    Fails (refuseEvent e expected : Reader α) := by
  cases e with
  | scalar s style tag =>
    rw [refuseEvent]
    split
    · exact fails_refuse _
    · exact fails_refuse _
  | _ => exact fails_throw _

theorem takes_pure (a : α) : Takes d (pure a) [] (some a) := fun _ _ within hs => .ok within hs

theorem Takes.bind {r : Reader α} {k : α → Reader β} {p : α → Option β} (h : Takes d r es o)
    (h' : ∀ a, o = some a → Takes d (k a) fs (p a)) : Takes d (r >>= k) (es ++ fs) (o.bind p) := by
  intro s after within hs
  rw [List.append_assoc] at hs
  have hr := h within hs
  generalize hres : r s = result at hr
  cases hr with
  | ok within' hrest =>
    rw [bind_ok hres]
    exact h' _ rfl within' hrest
  | error e s' =>
    rw [bind_error hres]
    exact .error e s'
  | crowded hd o s' =>
    rw [bind_error hres]
    exact .crowded hd _ s'

/-- What is read last decides the value. -/
theorem Takes.map {r : Reader α} (h : Takes d r es o) (f : α → β) :
    Takes d (do return f (← r)) es (o.map f) := by
  have := Takes.bind (k := fun a => (pure (f a) : Reader β)) h fun a _ => takes_pure (f a)
  rw [Option.map_eq_bind]
  rwa [List.append_nil] at this

/-- Nothing is read after the value. -/
theorem Takes.then {r : Reader α} {k : α → Reader β} {p : α → Option β} (h : Takes d r es o)
    (h' : ∀ a, Takes d (k a) [] (p a)) : Takes d (r >>= k) es (o.bind p) := by
  have := h.bind fun a _ => h' a
  rwa [List.append_nil] at this

theorem takes_accept (x : Except Mismatch α) : Takes d (accept x) [] x.toOption := by
  cases x with
  | ok a => exact takes_pure a
  | error m => exact (fails_refuse m).takes _

theorem takes_ite {c : Prop} [Decidable c] {r r' : Reader α} {o' : Option α} (h : Takes d r es o)
    (h' : Takes d r' es o') : Takes d (if c then r else r') es (if c then o else o') := by
  by_cases hc : c
  · rwa [if_pos hc, if_pos hc]
  · rwa [if_neg hc, if_neg hc]

theorem takes_peek {f : MarkedEvent → Reader α}
    (h : ∀ x : MarkedEvent, x.event = e → Takes d (f x) (e :: es) o) :
    Takes d (do f (← peek sc)) (e :: es) o := by
  intro s after within hs
  obtain ⟨x, xs, hx, hevent, -⟩ := List.map_eq_cons_iff.mp hs
  have hpeek : peek sc s = .ok x s := by rw [peek, hx]
  rw [bind_ok hpeek]
  exact h x hevent within hs

theorem takes_skip (e : Event) : Takes d skip [e] (some ()) := by
  intro s after within hs
  refine .ok (List.Subset.trans (List.tail_sublist _).subset within) ?_
  rw [List.map_tail, hs]
  rfl

theorem takes_skip_bind {k : Unit → Reader α} (h : Takes d (k ()) es o) :
    Takes d (skip >>= k) (e :: es) o :=
  (takes_skip e).bind fun _ _ => h

theorem takes_next {f : MarkedEvent → Reader α}
    (h : ∀ x : MarkedEvent, x.event = e → Takes d (f x) es o) :
    Takes d (do f (← next sc)) (e :: es) o := by
  intro s after within hs
  obtain ⟨x, xs, hx, hevent, htail⟩ := List.map_eq_cons_iff.mp hs
  have hnext : next sc s = .ok x { s with rest := xs } := by
    have hpeek : peek sc s = .ok x s := by rw [peek, hx]
    rw [next, bind_ok hpeek]
    show EStateM.Result.ok x { s with rest := s.rest.tail } = _
    rw [hx]
    rfl
  rw [bind_ok hnext]
  refine h x hevent (List.Subset.trans ?_ within) htail
  rw [hx]
  exact List.subset_cons_self _ _

theorem takes_rest {f : List MarkedEvent → Reader α}
    (h : ∀ l : List MarkedEvent, es.length ≤ l.length → Takes d (f l) es o) :
    Takes d (do f (← rest)) es o := by
  intro s after within hs
  have hlen := congrArg List.length hs
  simp only [List.length_map, List.length_append] at hlen
  exact h s.rest (by omega) within hs

theorem takes_located {r : Reader α} (h : Takes d r es o) (m : Mark) (path : Path) :
    Takes d (located m path r) es o := by
  intro s after within hs
  have hr := h within hs
  rw [located]
  generalize r s = result at hr
  cases hr with
  | ok within' hrest => exact .ok within' hrest
  | crowded hd o s' => exact .crowded hd o s'
  | error e s' => split <;> exact .error _ _

end Reader

end ApiSurface.Yaml
