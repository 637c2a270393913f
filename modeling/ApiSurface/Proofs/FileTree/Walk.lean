/-
Where the steps of a path lead.

A step starts at a directory, and a step to a name at one that holds it. So a walk leads to the same
place in a tree that has more (`Covers.walk`), and steps to the directory itself can be left out
(`walk_components`). Since the entries of a tree all lie in directories, a path to a file ends with
the name of the file (`exists_name`).
-/
import ApiSurface.FileTree

namespace ApiSurface

namespace FilePath

/-- The steps that count: a first step to the directory itself, or none to it. -/
theorem components_eq (p : FilePath) :
    (∃ rest, p.absolute = false ∧ p.components = .here :: rest ∧ ∀ s ∈ rest, s ≠ .here) ∨
      ∀ s ∈ p.components, s ≠ .here := by
  rw [components]
  split
  · refine .inl ⟨_, ‹_›, rfl, by simp⟩
  · exact .inr (by simp)

theorem components_of_forall_ne {p : FilePath} (h : ∀ s ∈ p.steps, s ≠ .here) :
    p.components = p.steps := by
  have hfilter : p.steps.filter (· ≠ .here) = p.steps := List.filter_eq_self.mpr (by simpa using h)
  rw [components]
  split
  · rename_i hsteps
    exact absurd rfl (h .here (by simp [hsteps]))
  · exact hfilter

theorem components_here {p : FilePath} {rest : List PathStep} (relative : p.absolute = false)
    (h : p.steps = .here :: rest) (hrest : ∀ s ∈ rest, s ≠ .here) : p.components = p.steps := by
  have hfilter : rest.filter (· ≠ .here) = rest := List.filter_eq_self.mpr (by simpa using hrest)
  simp only [components, relative, h, hfilter]

/-- The path around a path has its steps that count but for the last one. -/
theorem exists_of_parent {p q : FilePath} (h : p.parent? = some q) :
    ∃ steps s, p.components = steps ++ [s] ∧ q = { absolute := p.absolute, steps } := by
  rw [parent?] at h
  split at h
  · exact absurd h (by simp)
  rename_i nonempty
  have hne : p.components ≠ [] := by simpa using nonempty
  exact ⟨_, _, (List.dropLast_concat_getLast hne).symm, (Option.some.inj h).symm⟩

theorem components_parent {p q : FilePath} (h : p.parent? = some q) : q.components = q.steps := by
  obtain ⟨steps, s, hcomponents, rfl⟩ := exists_of_parent h
  obtain ⟨rest, relative, hrest, hall⟩ | hall := p.components_eq
  · cases steps with
    | nil => exact components_of_forall_ne (by simp)
    | cons step steps =>
      rw [hcomponents, List.cons_append, List.cons.injEq] at hrest
      obtain ⟨rfl, rfl⟩ := hrest
      exact components_here relative rfl fun x hx => hall x (List.mem_append_left _ hx)
  · exact components_of_forall_ne fun x hx => hall x (hcomponents ▸ List.mem_append_left _ hx)

end FilePath

namespace FileTree

variable {t u : FileTree} {l : Location}

/-! ### Entries -/

theorem put_eq (hdir : t.lookup l.dropLast = some .directory) (file : t.lookup l ≠ some .directory)
    (e : Entry) : t.put l e = { t with
      entries := withEntry t.entries l e, inside := t.inside_withEntry hdir file e } :=
  dif_pos ⟨hdir, file⟩

@[simp] theorem current_put (t : FileTree) (l : Location) (e : Entry) :
    (t.put l e).current = t.current := by
  rw [put]
  split <;> rfl

theorem lookup_put {n : String} (hdir : t.lookup l = some .directory)
    (file : t.lookup (l ++ [n]) ≠ some .directory) (e : Entry) (k : Location) :
    (t.put (l ++ [n]) e).lookup k = if k = l ++ [n] then some e else t.lookup k := by
  rw [put_eq (by rwa [List.dropLast_concat]) file]
  exact entryAt_withEntry _ (by simp) e k

theorem put_put (t : FileTree) (l : Location) (e : Entry) : (t.put l e).put l e = t.put l e := by
  by_cases h : t.lookup l.dropLast = some .directory ∧ t.lookup l ≠ some .directory
  · rw [put_eq h.1 h.2, put]
    split
    · simp [withEntry, List.filter_append]
    · rfl
  · have hput : t.put l e = t := dif_neg h
    rw [hput, hput]

theorem requireDirectory_eq_ok : t.requireDirectory l = .ok () ↔ t.lookup l = some .directory := by
  rw [requireDirectory]
  split <;> simp_all

/-! ### Walks -/

theorem walk_cons (step : PathStep) (rest : List PathStep) :
    t.walk l (step :: rest) = (t.requireDirectory l >>= fun _ => match step with
      | .here => t.walk l rest
      | .up => t.walk l.dropLast rest
      | .name n =>
        if longestName < n.utf8ByteSize then .error .nameTooLong
        else if (t.lookup (l ++ [n])).isNone then .error .notFound
        else t.walk (l ++ [n]) rest) :=
  walk.eq_def t l (step :: rest)

/-- One step starts at a directory. -/
theorem walk_cons_eq_ok {step : PathStep} {rest : List PathStep} {r : Location} :
    t.walk l (step :: rest) = .ok r ↔ t.lookup l = some .directory ∧
      match step with
      | .here => t.walk l rest = .ok r
      | .up => t.walk l.dropLast rest = .ok r
      | .name n => n.utf8ByteSize ≤ longestName ∧ (t.lookup (l ++ [n])).isSome ∧
          t.walk (l ++ [n]) rest = .ok r := by
  rw [walk_cons, ← requireDirectory_eq_ok]
  cases hd : t.requireDirectory l with
  | error e => simp [bind, Except.bind]
  | ok a =>
    cases step with
    | here => simp [bind, Except.bind]
    | up => simp [bind, Except.bind]
    | name n =>
      by_cases hn : longestName < n.utf8ByteSize
      · simp [bind, Except.bind, hn, Nat.not_le.mpr hn]
      · cases hl : t.lookup (l ++ [n]) <;> simp [bind, Except.bind, hn, Nat.not_lt.mp hn, hl]

theorem walk_append (t : FileTree) (l : Location) (steps rest : List PathStep) :
    t.walk l (steps ++ rest) = t.walk l steps >>= fun r => t.walk r rest := by
  induction steps generalizing l with
  | nil => rfl
  | cons step steps ih =>
    rw [List.cons_append, walk_cons, walk_cons]
    cases t.requireDirectory l with
    | error e => rfl
    | ok a =>
      cases step with
      | here => exact ih l
      | up => exact ih l.dropLast
      | name n =>
        simp only [bind, Except.bind]
        split
        · rfl
        · split
          · rfl
          · exact ih (l ++ [n])

theorem walk_append_eq_ok {steps rest : List PathStep} {r : Location} :
    t.walk l (steps ++ rest) = .ok r ↔ ∃ k, t.walk l steps = .ok k ∧ t.walk k rest = .ok r := by
  rw [walk_append]
  cases t.walk l steps <;> simp [bind, Except.bind]

/-- Steps to the directory itself can be left out. -/
theorem walk_filter {steps : List PathStep} {r : Location} (h : t.walk l steps = .ok r) :
    t.walk l (steps.filter (· ≠ .here)) = .ok r := by
  induction steps generalizing l with
  | nil => exact h
  | cons step steps ih =>
    rw [walk_cons_eq_ok] at h
    cases step with
    | here => simpa using ih h.2
    | up => simpa [walk_cons_eq_ok, h.1] using ih h.2
    | name n => simpa [walk_cons_eq_ok, h.1, h.2.1, h.2.2.1] using ih h.2.2.2

theorem walk_components {p : FilePath} {r : Location} (h : t.walk l p.steps = .ok r) :
    t.walk l p.components = .ok r := by
  rw [FilePath.components]
  split
  · rename_i hsteps
    rw [hsteps, walk_cons_eq_ok] at h
    exact walk_cons_eq_ok.mpr ⟨h.1, walk_filter h.2⟩
  · exact walk_filter h

/-! ### Targets and entries -/

/-- The target of a path: a name, and the directory that the steps before it lead to. -/
theorem target_eq_ok {p : FilePath} {d : SystemError} {n : String} :
    t.target p d = .ok (l, n) ↔ ∃ steps, p.steps = steps ++ [.name n] ∧
      t.walk (t.start p) steps = .ok l ∧ t.lookup l = some .directory ∧
        n.utf8ByteSize ≤ longestName := by
  rw [target]
  constructor
  · intro h
    split at h
    · simp [bind, Except.bind] at h
    simp only [bind, Except.bind] at h
    split at h
    · rename_i m hlast
      obtain ⟨steps, hsteps⟩ := List.getLast?_eq_some_iff.mp hlast
      -- each guard that let the path through is one of the facts
      rw [hsteps, List.dropLast_concat] at h
      split at h
      · exact absurd h (by simp)
      rename_i k hwalk
      split at h
      · exact absurd h (by simp)
      rename_i hdir
      split at h
      · exact absurd h (by simp)
      rename_i hlong
      obtain ⟨rfl, rfl⟩ := Prod.mk.inj (Except.ok.inj h)
      exact ⟨steps, hsteps, hwalk, requireDirectory_eq_ok.mp hdir, Nat.not_lt.mp hlong⟩
    · split at h <;> exact absurd h (by simp)
  · rintro ⟨steps, hsteps, hwalk, hdir, hlong⟩
    have hempty : p.isEmpty = false := by simp [FilePath.isEmpty, hsteps]
    rw [hempty, hsteps]
    simp [bind, Except.bind, hwalk, requireDirectory_eq_ok.mpr hdir, Nat.not_lt.mpr hlong]

/-- A path without a name at its end leads to a directory. -/
theorem target_of_no_name {p : FilePath} (nonempty : p.isEmpty = false)
    (h : ∀ n, p.steps.getLast? ≠ some (.name n)) (hwalk : t.walk (t.start p) p.steps = .ok l)
    (d : SystemError) : t.target p d = .error d := by
  rw [target, nonempty]
  simp only [Bool.false_eq_true, if_false, bind, Except.bind, hwalk]

theorem find_eq_ok {p : FilePath} {e : Entry} :
    t.find p = .ok e ↔ p.isEmpty = false ∧ (p.slash = true → e = .directory) ∧
      ∃ l, t.walk (t.start p) p.steps = .ok l ∧ t.lookup l = some e := by
  rw [find]
  cases p.isEmpty with
  | true => simp [bind, Except.bind]
  | false =>
    simp only [Bool.false_eq_true, if_false, bind, Except.bind]
    cases t.walk (t.start p) p.steps with
    | error e => simp
    | ok l =>
      cases hl : t.lookup l with
      | none => simp [hl]
      | some e' =>
        cases hs : p.slash <;> by_cases he : e' = .directory <;> simp [hl, he]
        · exact Eq.symm
        · rintro rfl
          exact he

theorem isDirectory_eq_true {p : FilePath} :
    t.isDirectory p = true ↔ t.find p = .ok .directory := by
  rw [isDirectory]
  split <;> simp_all

theorem pathOf_eq_ok {path : String} {p : FilePath} (h : pathOf path = .ok p) :
    p = .ofText path := by
  rw [pathOf] at h
  split at h
  · exact absurd h (by simp)
  split at h
  · exact absurd h (by simp)
  · exact (Except.ok.inj h).symm

theorem readText_eq_ok {path s : String} :
    t.readText path = .ok s ↔
      pathOf path = .ok (.ofText path) ∧ t.find (.ofText path) = .ok (.text s) := by
  rw [readText]
  cases hpath : pathOf path with
  | error e => simp [bind, Except.bind]
  | ok p =>
    obtain rfl := pathOf_eq_ok hpath
    simp only [bind, Except.bind, true_and]
    split <;> simp_all

theorem isPresent_of_readText {t : FileTree} {path s : String} (h : t.readText path = .ok s) :
    t.isPresent path = true := by
  obtain ⟨hpath, hfind⟩ := readText_eq_ok.mp h
  simp [isPresent, hpath, hfind, Except.toBool]

/-! ### Trees that have more -/

/-- Whether a tree has all the directories of another one, and something wherever that one has. -/
structure Covers (t u : FileTree) : Prop where
  current : u.current = t.current
  directories : ∀ l, t.lookup l = some .directory → u.lookup l = some .directory
  present : ∀ l, (t.lookup l).isSome → (u.lookup l).isSome

theorem Covers.start (h : Covers t u) (p : FilePath) : u.start p = t.start p := by
  rw [FileTree.start, FileTree.start, h.current]

/-- A walk leads to the same place in a tree that has more. -/
theorem Covers.walk (h : Covers t u) {steps : List PathStep} {r : Location}
    (hwalk : t.walk l steps = .ok r) : u.walk l steps = .ok r := by
  induction steps generalizing l with
  | nil => exact hwalk
  | cons step steps ih =>
    rw [walk_cons_eq_ok] at hwalk ⊢
    refine hwalk.imp (h.directories l) fun hwalk => ?_
    cases step with
    | here => exact ih hwalk
    | up => exact ih hwalk
    | name n => exact ⟨hwalk.1, h.present _ hwalk.2.1, ih hwalk.2.2⟩

theorem Covers.isDirectory (h : Covers t u) {p : FilePath} (hp : t.isDirectory p = true) :
    u.isDirectory p = true := by
  rw [isDirectory_eq_true, find_eq_ok] at hp ⊢
  obtain ⟨nonempty, slash, l, hwalk, hl⟩ := hp
  exact ⟨nonempty, slash, l, by rw [h.start]; exact h.walk hwalk, h.directories l hl⟩

/-- An entry may be new, or take the place of a file. -/
theorem covers_put {n : String} (hdir : t.lookup l = some .directory)
    (file : t.lookup (l ++ [n]) ≠ some .directory) (e : Entry) : Covers t (t.put (l ++ [n]) e) := by
  refine ⟨current_put t _ e, fun k hk => ?_, fun k hk => ?_⟩ <;> rw [lookup_put hdir file]
  · rw [if_neg, hk]
    rintro rfl
    exact file hk
  · split
    · rfl
    · exact hk

/-- A path leads to what is put where its name belongs. -/
theorem walk_put {p : FilePath} {n : String} {d : SystemError}
    (htarget : t.target p d = .ok (l, n)) (file : t.lookup (l ++ [n]) ≠ some .directory)
    (e : Entry) : (t.put (l ++ [n]) e).walk (t.start p) p.steps = .ok (l ++ [n]) := by
  obtain ⟨steps, hsteps, hwalk, hdir, hlong⟩ := target_eq_ok.mp htarget
  have hcovers := covers_put hdir file e
  rw [hsteps, walk_append_eq_ok]
  refine ⟨l, hcovers.walk hwalk, walk_cons_eq_ok.mpr ⟨hcovers.directories l hdir, hlong, ?_, rfl⟩⟩
  rw [lookup_put hdir file, if_pos rfl]
  rfl

/-- A walk to a file ends with a step to its name. -/
theorem exists_name {steps : List PathStep} {r : Location} (hwalk : t.walk l steps = .ok r)
    (nonempty : steps ≠ []) {e : Entry}
    (hfile : t.lookup r = some e) (file : e ≠ .directory) :
    ∃ init n k, steps = init ++ [.name n] ∧ t.walk l init = .ok k ∧
      t.lookup k = some .directory ∧ n.utf8ByteSize ≤ longestName ∧ r = k ++ [n] := by
  obtain rfl | ⟨init, step, rfl⟩ := List.eq_nil_or_concat steps
  · exact absurd rfl nonempty
  rw [List.concat_eq_append, walk_append_eq_ok] at hwalk
  obtain ⟨k, hinit, hlast⟩ := hwalk
  rw [walk_cons_eq_ok] at hlast
  obtain ⟨hdir, hlast⟩ := hlast
  cases step with
  | here =>
    obtain rfl := Except.ok.inj hlast
    exact absurd (Option.some.inj (hfile.symm.trans hdir)) file
  | up =>
    obtain rfl := Except.ok.inj hlast
    exact absurd (Option.some.inj (hfile.symm.trans (t.inside k _ hdir))) file
  | name n =>
    obtain ⟨hlong, -, hlast⟩ := hlast
    exact ⟨init, n, k, by simp, hinit, hdir, hlong, (Except.ok.inj hlast).symm⟩

end FileTree

end ApiSurface
