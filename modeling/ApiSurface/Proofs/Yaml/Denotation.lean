/-
Readers read what a node stands for.

An alias is read as the node that it leads to (`takes_following`), and a member that nobody asked for
is stepped over whole (`takes_ignore`), so what a reader makes of a node is what the node stands for
(`denotes_content`, and `denotes_read` by recursion on the shape). A text that is read is a document
of one node (`exists_isDocument`), and is read as what that node stands for (`ofNode?_of_decode`).
-/
import ApiSurface.Proofs.Yaml.Outcome

namespace ApiSurface.Yaml

namespace Reader

/-! ### Nodes -/

section Nodes

variable {α : Type} {d : Document} {anchors : Anchors} {sc : Scope} {o : Option α}

theorem jump_eq (sc : Scope) (anchor : Nat) (r : Reader α) (s : State) :
    jump sc anchor r s =
      if jumpsPerEvent * sc.document.events.length < s.jumps + 1 then
        .error .tooManyAliases { s with jumps := s.jumps + 1 }
      else match r { s with jumps := s.jumps + 1, rest := sc.document.anchored anchor } with
        | .ok a s' => .ok a { s' with rest := s.rest }
        | .error e s' => .error e s' := by
  let u : State := { s with jumps := s.jumps + 1 }
  let v : State := { u with rest := sc.document.anchored anchor }
  have hmodify : (modify fun s : State => { s with jumps := s.jumps + 1 } : Reader PUnit) s
    = .ok () u := rfl
  have hget : (get : Reader State) u = .ok u u := rfl
  have hset : (set v : Reader PUnit) u = .ok () v := rfl
  unfold jump
  refine (bind_ok hmodify _).trans ((bind_ok hget _).trans ?_)
  dsimp only
  split
  · rfl
  · refine (bind_ok hset _).trans ?_
    cases hr : r v with
    | ok a s' => exact bind_ok hr _
    | error e s' => exact bind_error hr _

/-- What follows an alias is read after the node that it leads to. -/
theorem takes_jump (hd : d.Resolves anchors) (hsc : sc.document = d) {n : Nat}
    (hn : .alias n ∈ d.events.map (·.event)) {r : Reader α} (h : Takes d r (anchors.node n).events o) :
    Takes d (jump sc n r) [] o := by
  intro s after within hs
  subst hsc
  rw [jump_eq]
  split
  · exact .crowded ⟨n, hn⟩ _ _
  · obtain ⟨after', hanchored⟩ := hd n hn
    have hr := @h { s with jumps := s.jumps + 1, rest := sc.document.anchored n } after'
      (List.drop_subset _ _) hanchored
    generalize r _ = result at hr ⊢
    cases hr with
    | ok _ _ => exact .ok within hs
    | error e s' => exact .error _ _
    | crowded hd o s' => exact .crowded hd _ _

/-- An alias is read as the node that it leads to. -/
theorem takes_following (hd : d.Resolves anchors) (hsc : sc.document = d) {t : Node}
    {r : Reader α} (h : Takes d r (t.target anchors).events o) :
    Takes d (following sc r) t.events o := by
  cases t with
  | link n =>
    intro s after within hs
    -- The alias is one of the document.
    have hn : .alias n ∈ d.events.map (·.event) := List.map_subset _ within (by simp [hs, Node.events])
    have hread : Takes d (following sc r) [.alias n] o := takes_peek fun x hx => by
      rw [hx]
      exact takes_skip_bind (takes_jump hd hsc hn h)
    exact hread within hs
  | _ =>
    exact takes_peek fun x hx => by
      rw [hx]
      exact h

/-- Reading an event and what it starts, by the kinds of nodes. -/
theorem takes_onEvent (hd : d.Resolves anchors) (hsc : sc.document = d) {t : Node}
    {r : MarkedEvent → Reader α}
    (scalar : ∀ text style tag, t.target anchors = .scalar text style tag →
      ∀ x : MarkedEvent, x.event = .scalar text style tag → Takes d (r x) [] o)
    (sequence : ∀ tag ts, t.target anchors = .sequence tag ts →
      ∀ x : MarkedEvent, x.event = .sequenceStart tag →
        Takes d (r x) (Node.allEvents ts ++ [.sequenceEnd]) o)
    (mapping : ∀ tag ms, t.target anchors = .mapping tag ms →
      ∀ x : MarkedEvent, x.event = .mappingStart tag →
        Takes d (r x) (Node.pairEvents ms ++ [.mappingEnd]) o) :
    Takes d (onEvent sc r) t.events o := by
  have body := Node.isLink_target anchors t
  refine takes_following hd hsc ?_
  cases ht : t.target anchors with
  | scalar text style tag =>
    exact takes_next fun x hx => takes_located (scalar _ _ _ ht x hx) _ _
  | sequence tag ts =>
    exact takes_next fun x hx => takes_located (sequence _ _ ht x hx) _ _
  | mapping tag ms =>
    exact takes_next fun x hx => takes_located (mapping _ _ ht x hx) _ _
  | link n =>
    rw [ht] at body
    cases body

end Nodes

/-! ### Scalars -/

section Scalars

variable {α : Type} {d : Document} {anchors : Anchors} {sc : Scope}

theorem takes_text (hd : d.Resolves anchors) (hsc : sc.document = d) (expected : String)
    (t : Node) : Takes d (text sc expected) t.events (t.target anchors).text? := by
  refine takes_onEvent hd hsc (fun s style tag ht x hx => ?_) (fun tag ts ht x hx => ?_)
    fun tag ms ht x hx => ?_
  · simp only [ht, hx]
    exact takes_pure s
  · simp only [ht, hx]
    exact (fails_refuseEvent _ _).takes _
  · simp only [ht, hx]
    exact (fails_refuseEvent _ _).takes _

theorem takes_flag (hd : d.Resolves anchors) (hsc : sc.document = d) (t : Node) :
    Takes d (flag sc) t.events (t.target anchors).flag? := by
  refine takes_onEvent hd hsc (fun s style tag ht x hx => ?_) (fun tag ts ht x hx => ?_)
    fun tag ms ht x hx => ?_
  · simp only [ht, hx, Node.flag?]
    split
    · rename_i b hb
      rw [hb]
      exact takes_pure b
    · rename_i hb
      rw [hb]
      exact (fails_refuseEvent _ _).takes _
  · simp only [ht, hx]
    exact (fails_refuseEvent _ _).takes _
  · simp only [ht, hx]
    exact (fails_refuseEvent _ _).takes _

theorem takes_null (hd : d.Resolves anchors) (hsc : sc.document = d) (t : Node) :
    Takes d (null sc) t.events (t.target anchors).null? := by
  refine takes_onEvent hd hsc (fun s style tag ht x hx => ?_) (fun tag ts ht x hx => ?_)
    fun tag ms ht x hx => ?_
  · simp only [ht, hx, Node.null?]
    split
    · exact takes_pure ()
    · exact (fails_refuse _).takes _
  · simp only [ht, hx]
    exact (fails_refuseEvent _ _).takes _
  · simp only [ht, hx]
    exact (fails_refuseEvent _ _).takes _

theorem takes_optional (hd : d.Resolves anchors) (hsc : sc.document = d) {value : Reader α}
    {t : Node} {o : Option α} (h : Takes d value (t.target anchors).events o) :
    Takes d (optional sc value) t.events
      ((t.target anchors).absent?.bind fun absent => if absent then some none else o.map some) := by
  have body := Node.isLink_target anchors t
  refine takes_following hd hsc ?_
  cases ht : t.target anchors with
  | scalar s style tag =>
    refine takes_peek fun x hx => ?_
    rw [hx]
    refine (takes_accept (isAbsent (.scalar s style tag))).bind fun absent _ => ?_
    cases absent with
    | true => exact takes_skip_bind (takes_pure none)
    | false =>
      rw [ht] at h
      exact h.map some
  | sequence tag ts =>
    refine takes_peek fun x hx => ?_
    rw [hx]
    rw [ht] at h
    refine (takes_pure false).bind fun absent habsent => ?_
    cases habsent
    exact h.map some
  | mapping tag ms =>
    refine takes_peek fun x hx => ?_
    rw [hx]
    rw [ht] at h
    refine (takes_pure false).bind fun absent habsent => ?_
    cases habsent
    exact h.map some
  | link n =>
    rw [ht] at body
    cases body

end Scalars

/-! ### Collections -/

/-- The first event of a node is not the end of a collection. -/
theorem exists_events_eq_cons (t : Node) :
    ∃ e es, t.events = e :: es ∧ e ≠ .sequenceEnd ∧ e ≠ .mappingEnd := by
  cases t <;> exact ⟨_, _, rfl, by simp, by simp⟩

theorem length_le_allEvents (ts : List Node) : ts.length ≤ (Node.allEvents ts).length := by
  induction ts with
  | nil => exact Nat.zero_le _
  | cons t ts ih =>
    obtain ⟨e, es, he, -⟩ := exists_events_eq_cons t
    simp only [Node.allEvents, he, List.length_cons, List.length_append]
    omega

theorem length_le_pairEvents (ms : List (Node × Node)) :
    ms.length ≤ (Node.pairEvents ms).length := by
  induction ms with
  | nil => exact Nat.zero_le _
  | cons m ms ih =>
    obtain ⟨e, es, he, -⟩ := exists_events_eq_cons m.1
    simp only [Node.pairEvents, he, List.length_cons, List.length_append]
    omega

section Collections

variable {α σ : Type} {d : Document} {sc : Scope}

/-- The items of a sequence, each as its reader reads it. -/
theorem takes_items (hsc : sc.document = d) {item : Scope → Reader α} {f : Node → Option α}
    {ts : List Node} (h : ∀ t ∈ ts, Denotes d item t (f t)) {fuel : List MarkedEvent}
    (hf : ts.length < fuel.length) (index : Nat) :
    Takes d (items sc item fuel index) (Node.allEvents ts ++ [.sequenceEnd]) (ts.mapM f) := by
  induction ts generalizing fuel index with
  | nil =>
    obtain ⟨f, fuel, rfl⟩ := List.exists_cons_of_length_pos hf
    rw [items]
    refine takes_peek fun x hx => ?_
    rw [hx]
    exact takes_skip_bind (takes_pure [])
  | cons t ts ih =>
    obtain ⟨g, fuel, rfl⟩ := List.exists_cons_of_length_pos (Nat.zero_lt_of_lt hf)
    have hitem := @h t List.mem_cons_self { sc with path := sc.path.item index } hsc
    have hrest := ih (fun u hu => h u (List.mem_cons_of_mem t hu)) (by simpa using hf) (index + 1)
    have hread : Takes d (do
        let a ← item { sc with path := sc.path.item index }
        return a :: (← items sc item fuel (index + 1)))
        (t.events ++ (Node.allEvents ts ++ [.sequenceEnd])) ((t :: ts).mapM f) := by
      rw [List.mapM_cons]
      refine hitem.bind fun a _ => ?_
      have := hrest.map (a :: ·)
      rw [Option.map_eq_bind] at this
      exact this
    -- The item does not start with the end of the sequence.
    obtain ⟨e, es, he, hend, -⟩ := exists_events_eq_cons t
    rw [Node.allEvents, List.append_assoc]
    rw [he] at hread ⊢
    rw [items]
    refine takes_peek fun x hx => ?_
    rw [hx]
    cases e with
    | sequenceEnd => exact absurd rfl hend
    | _ => exact hread

theorem document_memberScope (sc : Scope) (key : Event) :
    (memberScope sc key).document = sc.document := by
  cases key <;> rfl

/-- The members of a mapping, each as a step reads its key and its value. -/
theorem takes_members {step : σ → Scope → Reader σ} {put : σ → Node × Node → Option σ}
    {ms : List (Node × Node)}
    (h : ∀ m ∈ ms, ∀ acc inner, inner.document = sc.document →
      Takes d (step acc inner) (m.1.events ++ m.2.events) (put acc m))
    {fuel : List MarkedEvent} (hf : ms.length < fuel.length) (acc : σ) :
    Takes d (members sc step fuel acc) (Node.pairEvents ms ++ [.mappingEnd])
      (ms.foldlM put acc) := by
  induction ms generalizing fuel acc with
  | nil =>
    -- the fuel outlasts the members, so there is some left for the end
    obtain ⟨f, fuel, rfl⟩ := List.exists_cons_of_length_pos hf
    rw [members]
    refine takes_peek fun x hx => ?_
    rw [hx]
    exact takes_skip_bind (takes_pure acc)
  | cons m ms ih =>
    obtain ⟨g, fuel, rfl⟩ := List.exists_cons_of_length_pos (Nat.zero_lt_of_lt hf)
    have hrest := ih (fun n hn => h n (List.mem_cons_of_mem m hn)) (by simpa using hf)
    have hread (key : Event) : Takes d (do
        members sc step fuel (← step acc (memberScope sc key)))
        (m.1.events ++ m.2.events ++ (Node.pairEvents ms ++ [.mappingEnd]))
        ((m :: ms).foldlM put acc) := by
      rw [List.foldlM_cons]
      exact (h m List.mem_cons_self acc _ (document_memberScope sc key)).bind fun a _ => hrest a
    -- a key does not start with the end of the mapping, so another member is read
    obtain ⟨e, es, he, -, hend⟩ := exists_events_eq_cons m.1
    simp only [Node.pairEvents, List.append_assoc] at hread ⊢
    rw [he] at hread ⊢
    rw [members]
    refine takes_peek fun x hx => ?_
    rw [hx]
    cases e with
    | mappingEnd => exact absurd rfl hend
    | _ => exact hread _

theorem Takes.deeper {m : Mark} {depth : Nat} {r : Nat → Reader α} {es : List Event}
    {f : Nat → Option α} (h : ∀ depth, Takes d (r depth) es (f depth)) :
    Takes d (deeper m depth r) es (below depth f) := by
  cases depth with
  | zero => exact (fails_throw _).takes _
  | succ depth => exact h depth

end Collections

/-! ### Members that nobody asked for -/

section Ignored

variable {d : Document} {sc : Scope} {e : Event} {es fs : List Event} {fuel : List MarkedEvent}

/-- The number of collections that are open after an event. -/
def levelAfter (e : Event) (level : Nat) : Nat :=
  match e with
  | .sequenceStart _ | .mappingStart _ => level + 1
  | .sequenceEnd | .mappingEnd => level - 1
  | _ => level

theorem takes_skipNode {o : Option Unit} {level : Nat} (hf : (e :: es).length ≤ fuel.length)
    (h : ∀ fuel : List MarkedEvent, es.length ≤ fuel.length →
      Takes d (if levelAfter e level = 0 then pure () else skipNode sc fuel (levelAfter e level))
        es o) :
    Takes d (skipNode sc fuel level) (e :: es) o := by
  obtain ⟨f, fuel, rfl⟩ := List.exists_cons_of_length_pos (Nat.zero_lt_of_lt hf)
  rw [skipNode]
  refine takes_next fun x hx => ?_
  rw [hx]
  exact h fuel (by simpa using hf)

/-- Whether some events are stepped over as long as a collection is open. -/
def Skips (d : Document) (sc : Scope) (es : List Event) : Prop :=
  ∀ ⦃level : Nat⦄ ⦃fs : List Event⦄ ⦃o : Option Unit⦄, 0 < level →
    (∀ ⦃fuel : List MarkedEvent⦄, fs.length ≤ fuel.length →
      Takes d (skipNode sc fuel level) fs o) →
    ∀ ⦃fuel : List MarkedEvent⦄, (es ++ fs).length ≤ fuel.length →
      Takes d (skipNode sc fuel level) (es ++ fs) o

theorem skips_nil : Skips d sc [] := fun _ _ _ _ h _ hf => h hf

theorem Skips.append (h : Skips d sc es) (h' : Skips d sc fs) : Skips d sc (es ++ fs) := by
  intro level gs o hlevel hcont fuel hf
  rw [List.append_assoc] at hf ⊢
  exact h hlevel (h' hlevel hcont) hf

theorem skips_single (he : ∀ level, levelAfter e level = level) : Skips d sc [e] := by
  intro level gs o hlevel hcont fuel hf
  refine takes_skipNode hf fun fuel hf => ?_
  rw [he, if_neg (by omega)]
  exact hcont hf

theorem Skips.collection {start last : Event} (h : Skips d sc es)
    (hstart : ∀ level, levelAfter start level = level + 1)
    (hlast : ∀ level, levelAfter last level = level - 1) :
    Skips d sc (start :: (es ++ [last])) := by
  intro level gs o hlevel hcont fuel hf
  refine takes_skipNode hf fun fuel hf => ?_
  rw [hstart, if_neg (by omega)]
  have hend ⦃fuel : List MarkedEvent⦄ (hf : (last :: gs).length ≤ fuel.length) :
      Takes d (skipNode sc fuel (level + 1)) (last :: gs) o := by
    refine takes_skipNode hf fun fuel hf => ?_
    rw [hlast, Nat.add_sub_cancel, if_neg (by omega)]
    exact hcont hf
  simp only [List.append_eq, List.append_assoc, List.singleton_append] at hf ⊢
  exact h (Nat.succ_pos level) hend hf

theorem skips_allEvents {ts : List Node} (h : ∀ t ∈ ts, Skips d sc t.events) :
    Skips d sc (Node.allEvents ts) := by
  induction ts with
  | nil => exact skips_nil
  | cons t ts ih =>
    obtain ⟨ht, hts⟩ := List.forall_mem_cons.mp h
    exact ht.append (ih hts)

theorem skips_pairEvents {ms : List (Node × Node)}
    (h : ∀ m ∈ ms, Skips d sc m.1.events ∧ Skips d sc m.2.events) :
    Skips d sc (Node.pairEvents ms) := by
  induction ms with
  | nil => exact skips_nil
  | cons m ms ih =>
    obtain ⟨⟨hkey, hvalue⟩, hms⟩ := List.forall_mem_cons.mp h
    exact hkey.append (hvalue.append (ih hms))

theorem skips_node (t : Node) : Skips d sc t.events := by
  induction t using Node.induct with
  | scalar => exact skips_single fun _ => rfl
  | link => exact skips_single fun _ => rfl
  | sequence tag ts ih => exact (skips_allEvents ih).collection (fun _ => rfl) fun _ => rfl
  | mapping tag ms ih => exact (skips_pairEvents ih).collection (fun _ => rfl) fun _ => rfl

/-- The event that closes everything ends the skipping. -/
theorem takes_skipNode_last {level : Nat} (he : levelAfter e level = 0)
    (hf : [e].length ≤ fuel.length) : Takes d (skipNode sc fuel level) [e] (some ()) := by
  refine takes_skipNode hf fun fuel _ => ?_
  rw [he]
  exact takes_pure ()

theorem Skips.takes {start last : Event} (h : Skips d sc es) (hstart : levelAfter start 0 = 1)
    (hlast : levelAfter last 1 = 0) (hf : (start :: (es ++ [last])).length ≤ fuel.length) :
    Takes d (skipNode sc fuel 0) (start :: (es ++ [last])) (some ()) := by
  refine takes_skipNode hf fun fuel hf => ?_
  rw [hstart]
  exact h Nat.one_pos (fun _ => takes_skipNode_last hlast) hf

/-- A node is stepped over, whatever it is. -/
theorem takes_ignore (sc : Scope) (t : Node) : Takes d (ignore sc) t.events (some ()) := by
  refine takes_rest fun l hl => ?_
  cases t with
  | scalar => exact takes_skipNode_last rfl hl
  | link => exact takes_skipNode_last rfl hl
  | sequence tag ts => exact (skips_allEvents fun t _ => skips_node t).takes rfl rfl hl
  | mapping tag ms =>
    exact (skips_pairEvents fun m _ => ⟨skips_node m.1, skips_node m.2⟩).takes rfl rfl hl

end Ignored

/-! ### Values of any kind -/

section Contents

variable {d : Document} {anchors : Anchors}

/-- The entries of a mapping are gathered in front. -/
theorem foldlM_pair? {content? : Node → Option Content} (ms : List (Node × Node))
    (acc : List (Content × Content)) :
    ms.foldlM (fun acc m => (Node.pair? content? m).map (· :: acc)) acc
      = (ms.mapM (Node.pair? content?)).map (·.reverse ++ acc) := by
  induction ms generalizing acc with
  | nil => rfl
  | cons m ms ih =>
    rw [List.foldlM_cons, List.mapM_cons]
    cases Node.pair? content? m with
    | none => rfl
    | some entry =>
      show List.foldlM _ (entry :: acc) ms = _
      rw [ih]
      cases List.mapM (Node.pair? content?) ms <;> simp

/-- The entries of a mapping, each after its key. -/
theorem takes_entries {sc : Scope} (hsc : sc.document = d) {content? : Node → Option Content}
    {value : Scope → Reader Content} (h : ∀ t, Denotes d value t (content? t))
    (ms : List (Node × Node)) {fuel : List MarkedEvent} (hf : ms.length < fuel.length) :
    Takes d (do
        let entries ← members sc (fun entries inner => do
          let key ← value sc
          return (key, ← value inner) :: entries) fuel []
        return Content.map entries.reverse)
      (Node.pairEvents ms ++ [.mappingEnd]) ((ms.mapM (Node.pair? content?)).map Content.map) := by
  have hstep : ∀ m ∈ ms, ∀ (acc : List (Content × Content)) (inner : Scope),
      inner.document = sc.document →
        Takes d (do
          let key ← value sc
          return (key, ← value inner) :: acc) (m.1.events ++ m.2.events)
          ((Node.pair? content? m).map (· :: acc)) := by
    intro m _ acc inner hinner
    have hvalue (key : Content) := (h m.2 (hinner.trans hsc)).map fun v => (key, v) :: acc
    have := (h m.1 hsc).bind fun key _ => hvalue key
    simpa [Node.pair?, Option.map_bind, Function.comp_def] using this
  have hread := takes_members hstep hf []
  rw [foldlM_pair?] at hread
  have := hread.map fun entries => Content.map entries.reverse
  simpa [Function.comp_def] using this

/-- Any value is read as its content. -/
theorem denotes_content (hd : d.Resolves anchors) (t : Node) (depth : Nat) :
    Denotes d (content depth) t (t.content? anchors depth) := by
  intro sc hsc
  -- on the levels that are left, since an alias leads to a node that is no part of this one
  induction depth using Nat.strongRecOn generalizing t sc with
  | ind depth ih =>
    rw [content_eq]
    refine takes_onEvent hd hsc (fun s style tag ht x hx => ?_) (fun tag ts ht x hx => ?_)
      fun tag ms ht x hx => ?_
    all_goals
      rw [Node.content?, Node.isTagged, ht, hx]
      refine takes_ite ((fails_refuse _).takes _) ?_
    · dsimp only
      rw [Node.scalarContent?]
      cases Scalar.ofEvent s style tag with
      | error m => exact (fails_refuse m).takes _
      | ok v => exact takes_accept v.content
    · cases depth with
      | zero => exact (fails_throw _).takes _
      | succ depth =>
        refine takes_rest fun l hl => Takes.map (takes_items hsc (fun t _ => ih _ ?_ t) ?_ 0) _
        · exact Nat.lt_succ_self _
        · -- the events that are left are more than the items
          have := length_le_allEvents ts
          simp only [List.length_append, List.length_singleton] at hl
          omega
    · cases depth with
      | zero => exact (fails_throw _).takes _
      | succ depth =>
        refine takes_rest fun l hl => takes_entries hsc (fun t => ih _ (Nat.lt_succ_self _) t) ms ?_
        have := length_le_pairEvents ms
        simp only [List.length_append, List.length_singleton] at hl
        omega

end Contents

/-! ### Choices -/

section Choices

variable {α β : Type} {d : Document} {anchors : Anchors} {choice : Alternatives α β}

theorem toOption_find (choice : Alternatives α β) (name : String) :
    (choice.find name).toOption = choice.variants.lookup name := by
  rw [Alternatives.find]
  cases choice.variants.lookup name <;> rfl

theorem takes_find (name : String) :
    Takes d (accept (choice.find name)) [] (choice.variants.lookup name) := by
  rw [← toOption_find]
  exact takes_accept _

theorem takes_bareName (name : String) :
    Takes d (bareName choice name) [] (Node.bare? choice name) := by
  refine (takes_find name).then fun v => ?_
  cases v with
  | bare b => exact takes_pure b
  | carrying make => exact (fails_refuse _).takes _

theorem tagOf_head {t : Node} {e : Event} {es : List Event} (h : t.events = e :: es) :
    tagOf e = t.tag := by
  cases t <;>
  · cases h
    rfl

theorem takes_tagged (hd : d.Resolves anchors) {sc : Scope} (hsc : sc.document = d)
    {value : Scope → Reader α} {value? : Node → Option α} (h : ∀ t, Denotes d value t (value? t))
    (t : Node) :
    Takes d (Reader.tagged sc choice value) t.events
      ((t.target anchors).tagged? choice value?) := by
  refine takes_following hd hsc ?_
  have hself := Node.target_target anchors t
  obtain ⟨e, es, he, -⟩ := exists_events_eq_cons (t.target anchors)
  have hnull := takes_null hd hsc (t.target anchors)
  have hvalue := h (t.target anchors) hsc
  rw [hself, he] at hnull
  rw [he] at hvalue ⊢
  refine takes_peek fun x hx => ?_
  rw [hx, tagOf_head he, Node.tagged?]
  -- a tag names the alternative, and without one only the name of a bare one is taken
  cases alternativeTag? (t.target anchors).tag with
  | some name =>
    refine (takes_find name).bind fun v _ => ?_
    cases v with
    | bare b => exact hnull.map fun _ => b
    | carrying make => exact hvalue.map make
  | none =>
    rw [← he]
    refine takes_onEvent hd hsc (fun s style tag ht x hx => ?_) (fun tag ts ht x hx => ?_)
      fun tag ms ht x hx => ?_
    · rw [hself] at ht
      simp only [ht, hx]
      exact takes_bareName s
    · rw [hself] at ht
      simp only [ht, hx]
      exact (fails_refuseEvent _ _).takes _
    · rw [hself] at ht
      simp only [ht, hx]
      exact (fails_refuseEvent _ _).takes _

variable (choice) in
/-- The name of a member tells the alternative. -/
theorem takes_variant (hd : d.Resolves anchors) {sc : Scope} (hsc : sc.document = d) (key : Node) :
    Takes d (onEvent sc fun e =>
        match e.event with
        | .scalar s _ _ => accept (choice.find s)
        | other => refuseEvent other "variant identifier") key.events
      ((key.target anchors).text?.bind fun name => choice.variants.lookup name) := by
  refine takes_onEvent hd hsc (fun s style tag ht x hx => ?_) (fun tag ts ht x hx => ?_)
    fun tag ms ht x hx => ?_
  · simp only [ht, hx]
    exact takes_find s
  · simp only [ht, hx]
    exact (fails_refuseEvent _ _).takes _
  · simp only [ht, hx]
    exact (fails_refuseEvent _ _).takes _

/-- A mapping that stands for a choice ends after its first member. -/
theorem takes_mappingEnd (sc : Scope) (b : β) (ms : List (Node × Node)) :
    Takes d (do
        match (← peek sc).event with
        | .mappingEnd =>
          skip
          return b
        | _ =>
          ignore sc
          refuse (.wrongValue .map "map with a single key"))
      (Node.pairEvents ms ++ [.mappingEnd]) (if ms.isEmpty then some b else none) := by
  cases ms with
  | nil =>
    refine takes_peek fun x hx => ?_
    rw [hx]
    exact takes_skip_bind (takes_pure b)
  | cons m ms =>
    obtain ⟨e, es, he, -, hend⟩ := exists_events_eq_cons m.1
    rw [Node.pairEvents, he]
    refine takes_peek fun x hx => ?_
    rw [hx]
    have hfails : Fails (do
        ignore sc
        refuse (.wrongValue .map "map with a single key") : Reader β) :=
      Fails.bind fun _ => fails_refuse _
    cases e with
    | mappingEnd => exact absurd rfl hend
    | _ => exact hfails.takes _

/-- The one member of a mapping that stands for a choice. -/
theorem takes_singleMember (hd : d.Resolves anchors) {sc : Scope} (hsc : sc.document = d)
    {value : Scope → Reader α} {value? : Node → Option α} (h : ∀ t, Denotes d value t (value? t))
    (ms : List (Node × Node)) :
    Takes d (singleMember sc choice value) (Node.pairEvents ms ++ [.mappingEnd])
      (Node.member? anchors choice value? ms) := by
  cases ms with
  | nil =>
    refine takes_peek fun x hx => ?_
    rw [hx]
    exact (fails_refuse _).takes _
  | cons m ms =>
    have hvariant := takes_variant choice hd hsc m.1
    have hvalue (key : Event) (make : α → β) :=
      (h m.2 ((document_memberScope sc key).trans hsc)).bind fun a _ =>
        takes_mappingEnd sc (make a) ms
    obtain ⟨e, es, he, -, hkey⟩ := exists_events_eq_cons m.1
    rw [Node.pairEvents, List.append_assoc, List.append_assoc, Node.member?]
    rw [he] at hvariant ⊢
    refine takes_peek fun x hx => ?_
    rw [hx]
    cases e with
    | mappingEnd => exact absurd rfl hkey
    | _ =>
      refine hvariant.bind fun v _ => ?_
      cases v with
      | bare b => exact (fails_refuse _).takes _
      | carrying make => exact hvalue _ make

theorem takes_keyed (hd : d.Resolves anchors) {sc : Scope} (hsc : sc.document = d)
    {value : Nat → Scope → Reader α} {value? : Nat → Node → Option α}
    (h : ∀ depth t, Denotes d (value depth) t (value? depth t)) (depth : Nat) (t : Node) :
    Takes d (Reader.keyed sc choice depth value) t.events
      (below depth fun depth => (t.target anchors).keyed? anchors choice value? depth) := by
  obtain ⟨e, es, he, -⟩ := exists_events_eq_cons t
  rw [he]
  refine takes_peek fun x hx => ?_
  rw [← he]
  refine Takes.deeper fun depth => ?_
  refine takes_onEvent hd hsc (fun s style tag ht x hx => ?_) (fun tag ts ht x hx => ?_)
    fun tag ms ht x hx => ?_
  all_goals
    rw [ht, hx]
    unfold Node.keyed?
    refine takes_ite ((fails_refuse _).takes _) ?_
    dsimp only
  · cases Scalar.ofEvent s style tag with
    | error m => exact (fails_refuse m).takes _
    | ok v =>
      cases v with
      | text name => exact takes_bareName name
      | _ => exact (fails_refuse _).takes _
  · cases depth with
    | zero => exact (fails_throw _).takes _
    | succ depth => exact (fails_refuse _).takes _
  · exact Takes.deeper fun depth => takes_singleMember hd hsc (h depth) ms

end Choices

theorem takes_interpreted {α : Type} {d : Document} (i : Interpreted α) :
    Takes d (interpreted i) [] i.result.toOption := by
  intro s after within hs
  exact takes_accept i.result within hs

/-! ### Values of a known shape -/

section Shapes

variable {d : Document} {anchors : Anchors}

mutual

/-- A reader of a shape reads the value that a node stands for. -/
theorem denotes_read (hd : d.Resolves anchors) : {α : Type} → (s : Shape α) → (depth : Nat) → (t : Node) →
    Denotes d (read s depth) t (s.ofNode? anchors depth t)
  | _, .text, depth, t => fun sc hsc => takes_text hd hsc _ t
  | _, .flag, depth, t => fun sc hsc => takes_flag hd hsc t
  | _, .nothing, depth, t => fun sc hsc => by
    refine takes_onEvent hd hsc (fun _ _ _ _ _ _ => ?_) (fun _ _ _ _ _ => ?_)
      fun _ _ _ _ _ => ?_
    · exact (fails_refuseEvent _ _).takes _
    · exact (fails_refuseEvent _ _).takes _
    · exact (fails_refuseEvent _ _).takes _
  | _, .optional s, depth, t => fun sc hsc =>
    takes_optional hd hsc (denotes_read hd s depth (t.target anchors) hsc)
  | _, .list item, depth, t => fun sc hsc => by
    refine takes_onEvent hd hsc (fun s style tag ht x hx => ?_) (fun tag ts ht x hx => ?_)
      fun tag ms ht x hx => ?_
    all_goals
      rw [Shape.ofNode?, ht]
      simp only [hx]
    · -- an empty scalar stands for an empty list
      exact takes_ite (takes_pure []) ((fails_refuseEvent _ _).takes _)
    · refine Takes.deeper fun depth => takes_rest fun l hl => ?_
      refine takes_items hsc (fun t _ => denotes_read hd item depth t) ?_ 0
      have := length_le_allEvents ts
      simp only [List.length_append, List.length_singleton] at hl
      omega
    · simp only [isEmptyNode, Node.isEmpty, Bool.false_eq_true, if_false]
      exact (fails_refuseEvent _ _).takes _
  | _, .record label fields, depth, t => fun sc hsc => by
    refine takes_onEvent hd hsc (fun s style tag ht x hx => ?_) (fun tag ts ht x hx => ?_)
      fun tag ms ht x hx => ?_
    all_goals
      rw [Shape.ofNode?, ht]
      simp only [hx]
    · -- an empty scalar stands for a record of defaults
      exact takes_ite (takes_accept _) ((fails_refuseEvent _ _).takes _)
    · simp only [isEmptyNode, Node.isEmpty, Bool.false_eq_true, if_false]
      exact (fails_refuseEvent _ _).takes _
    · refine Takes.deeper fun depth => takes_rest fun l hl => ?_
      have := length_le_pairEvents ms
      simp only [List.length_append, List.length_singleton] at hl
      refine (takes_members (fun m _ slots inner hinner => ?_) ?_ fields.empty).then fun slots => takes_accept _
      · exact (takes_text hd hsc _ m.1).bind fun key _ => denotes_readMember hd fields depth slots key m.2 (hinner.trans hsc)
      · omega
  | _, .tagged choice s, depth, t => fun sc hsc =>
    takes_tagged hd hsc (fun t => denotes_read hd s depth t) t
  | _, .keyed choice s, depth, t => fun sc hsc =>
    takes_keyed hd hsc (fun depth t => denotes_read hd s depth t) depth t
  | _, .buffered interpret write, depth, t => fun sc hsc =>
    (denotes_content hd t depth hsc).then fun c => takes_interpreted (interpret c)
  | _, .view there back s, depth, t => fun sc hsc => (denotes_read hd s depth t hsc).map there

/-- A member is read into its slot. -/
theorem denotes_readMember (hd : d.Resolves anchors) : {σ α : Type} → (fields : Fields σ α) →
    (depth : Nat) → (slots : σ) → (key : String) → (t : Node) →
    Denotes d (readMember fields depth slots key) t (fields.putNode? anchors depth slots key t)
  | _, _, .nil, depth, (), key, t => fun sc hsc => takes_ignore sc t
  | _, _, .cons field s rest, depth, (slot, slots), key, t => fun sc hsc => by
    by_cases hkey : key = field.name
    · cases slot with
      | some a =>
        rw [Fields.putNode?_twice hkey, readMember, if_pos hkey]
        exact (fails_refuse _).takes _
      | none =>
        rw [Fields.putNode?_same hkey, readMember, if_pos hkey]
        exact (denotes_read hd s depth t hsc).map fun a => (some a, slots)
    · rw [Fields.putNode?_other hkey]
      have hrest := denotes_readMember hd rest depth slots key t hsc
      cases slot <;>
      · rw [readMember, if_neg hkey]
        exact hrest.map _

end

end Shapes

end Reader

/-! ### Documents -/

section Documents

variable {α : Type} {s : Shape α} {t : Node} {anchors : Anchors} {text : String}

theorem gives_decode (h : t.IsDocument anchors text) :
    Reader.Gives (Document.ofText text) [] (s.ofNode? anchors depthLimit t)
      (read s depthLimit ⟨Document.ofText text, .top⟩ ⟨(Document.ofText text).events, 0, 0⟩) := by
  refine Reader.denotes_read h.resolves s depthLimit t rfl (List.Subset.refl _) ?_
  rw [List.append_nil]
  exact h.events

theorem Node.IsDocument.complete (h : t.IsDocument anchors text) (a : α) :
    (Document.ofText text).complete a = .ok a := by
  simp only [Document.complete, h.whole, h.alone, Bool.false_eq_true, if_false]

/-- A document is read as what its node stands for, unless too many aliases are followed. -/
theorem decode_some (h : t.IsDocument anchors text) {a : α}
    (ha : s.ofNode? anchors depthLimit t = some a) :
    (decode s text).result = .ok a ∨
      (Document.ofText text).HasAlias ∧ (decode s text).result = .error .tooManyAliases := by
  have hread := @gives_decode α s t anchors text h
  rw [ha] at hread
  simp only [decode]
  generalize read s depthLimit _ _ = result at hread ⊢
  cases hread with
  | ok _ _ => exact .inl (h.complete a)
  | crowded hd _ _ => exact .inr ⟨hd, rfl⟩

theorem decode_none (h : t.IsDocument anchors text) (ha : s.ofNode? anchors depthLimit t = none) :
    ∃ e, (decode s text).result = .error e := by
  have hread := @gives_decode α s t anchors text h
  rw [ha] at hread
  simp only [decode]
  generalize read s depthLimit _ _ = result at hread ⊢
  cases hread with
  | error e _ => exact ⟨e, rfl⟩
  | crowded _ _ _ => exact ⟨_, rfl⟩

/-- What a document is read as is what its node stands for. -/
theorem ofNode?_of_decode (h : t.IsDocument anchors text) {a : α}
    (ha : (decode s text).result = .ok a) : s.ofNode? anchors depthLimit t = some a := by
  cases hnode : s.ofNode? anchors depthLimit t with
  | none =>
    obtain ⟨e, he⟩ := decode_none h hnode
    rw [he] at ha
    cases ha
  | some b =>
    obtain hb | ⟨-, he⟩ := decode_some h hnode
    · rw [hb] at ha
      cases ha
      rfl
    · rw [he] at ha
      cases ha

/-- A text that is read is a document, unless it is empty. -/
theorem exists_isDocument {a : α} (ha : (decode s text).result = .ok a) :
    (Document.ofText text).events.map (·.event) = [.void] ∨
      ∃ (t : Node) (anchors : Anchors), t.IsDocument anchors text := by
  have hdocument : (Document.ofText text).defect = none ∧
      (Document.ofText text).continued = false := by
    simp only [decode] at ha
    split at ha
    · simp only [Document.complete] at ha
      split at ha
      · cases ha
      · rename_i hwhole
        split at ha
        · cases ha
        · rename_i halone
          exact ⟨hwhole, by simpa using halone⟩
    · cases ha
  obtain ⟨whole, alone⟩ := hdocument
  obtain hvoid | ⟨t, anchors, hevents, hresolves⟩ := Document.exists_node text whole
  · exact .inl hvoid
  · exact .inr ⟨t, anchors, hevents, hresolves, whole, alone⟩

/-- The anchors of a document that has none. -/
def Anchors.unused : Anchors := ⟨fun _ => .scalar "" .plain none, fun _ => rfl⟩

/-- A text whose events are those of a node without aliases. -/
theorem Node.isDocument_of_ofText
    (h : (fun d : Document => (d.events.map (·.event), d.defect, d.continued))
      (Document.ofText text) = (t.events, none, false))
    (plain : ∀ n, .alias n ∉ t.events) : t.IsDocument Anchors.unused text := by
  simp only [Prod.mk.injEq] at h
  obtain ⟨events, whole, alone⟩ := h
  exact ⟨events, fun n hn => absurd (events ▸ hn) (plain n), whole, alone⟩

/-- A document without aliases is read as what its node stands for. -/
theorem Node.IsDocument.decode_eq (h : t.IsDocument anchors text)
    (plain : ∀ n, .alias n ∉ t.events) {a : α} (ha : s.ofNode? anchors depthLimit t = some a) :
    (decode s text).result = .ok a := by
  obtain hok | ⟨⟨n, hn⟩, -⟩ := decode_some h ha
  · exact hok
  · exact absurd (h.events ▸ hn) (plain n)

end Documents

end ApiSurface.Yaml
