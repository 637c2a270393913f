/-
What saving a file does to a tree.

Making directories only adds directories on the way of a path, and keeps all that was there, whether
it succeeds or fails (`createDirectories_makes`, `Makes.grows`). A save makes directories and then
fails or writes its file (`save_cases`). One that succeeds changes nothing but its file and the
directories around it (`save_eq_ok`). One that fails keeps all files, but the one to be written may
have lost what it held: if the device failed after the file was opened, only some first bytes of the
new content are in it (`save_eq_error`). A save over a file that is there already makes no directory
and comes to nothing but that write (`save_over`).
-/
import ApiSurface.Proofs.FileTree.Walk

namespace ApiSurface.FileTree

variable {t u v : FileTree} {d : Device} {p : FilePath} {l : Location}

/-- Whether some first steps of a path lead to a location. -/
def OnTheWay (t : FileTree) (p : FilePath) (l : Location) : Prop :=
  ∃ steps, steps <+: p.components ∧ t.walk (t.start p) steps = .ok l

theorem OnTheWay.of_parent {q : FilePath} (hq : p.parent? = some q) (h : t.OnTheWay q l) :
    t.OnTheWay p l := by
  obtain ⟨steps, hsteps, hwalk⟩ := h
  rw [FilePath.components_parent hq] at hsteps
  obtain ⟨init, s, hp, rfl⟩ := FilePath.exists_of_parent hq
  refine ⟨steps, ?_, hwalk⟩
  rw [hp]
  exact hsteps.trans (List.prefix_append _ _)

theorem OnTheWay.of_covers (hu : Covers t u) (h : t.OnTheWay p l) : u.OnTheWay p l := by
  obtain ⟨steps, hsteps, hwalk⟩ := h
  exact ⟨steps, hsteps, by rw [hu.start]; exact hu.walk hwalk⟩

/-- Whether a tree has all that another one has, and otherwise only directories at certain
locations. -/
structure Grows (new : Location → Prop) (t u : FileTree) : Prop where
  current : u.current = t.current
  kept : ∀ l e, t.lookup l = some e → u.lookup l = some e
  added : ∀ l, t.lookup l = none → u.lookup l = none ∨ u.lookup l = some .directory ∧ new l

namespace Grows

variable {new new' : Location → Prop}

theorem refl (new : Location → Prop) (t : FileTree) : Grows new t t :=
  ⟨rfl, fun _ _ h => h, fun _ h => .inl h⟩

theorem covers (h : Grows new t u) : Covers t u := by
  refine ⟨h.current, fun l hl => h.kept l _ hl, fun l hl => ?_⟩
  obtain ⟨e, he⟩ := Option.isSome_iff_exists.mp hl
  exact Option.isSome_iff_exists.mpr ⟨e, h.kept l e he⟩

theorem trans (h : Grows new t u) (h' : Grows new' u v) (sub : ∀ l, new l → new' l) :
    Grows new' t v := by
  refine ⟨h'.current.trans h.current, fun l e hl => h'.kept l e (h.kept l e hl), fun l hl => ?_⟩
  obtain hnone | ⟨hdir, hnew⟩ := h.added l hl
  · exact h'.added l hnone
  · exact .inr ⟨h'.kept l _ hdir, sub l hnew⟩

end Grows

/-! ### Directories -/

theorem exists_of_makeDirectory (h : t.makeDirectory d p = .ok u) :
    ∃ l n, t.target p .alreadyExists = .ok (l, n) ∧ t.lookup (l ++ [n]) = none ∧
      u = t.put (l ++ [n]) .directory := by
  rw [makeDirectory] at h
  cases htarget : t.target p .alreadyExists with
  | error e => simp [htarget, bind, Except.bind] at h
  | ok a =>
    obtain ⟨l, n⟩ := a
    simp only [htarget, bind, Except.bind] at h
    split at h
    · exact absurd h (by simp)
    rename_i hnone
    split at h
    · exact absurd h (by simp)
    · exact ⟨l, n, rfl, by simpa using hnone, (Except.ok.inj h).symm⟩

/-- A path leads to the directory that is made for it, and nothing else is new. -/
theorem makeDirectory_grows (hp : p.components = p.steps) (h : t.makeDirectory d p = .ok u) :
    Grows (u.OnTheWay p) t u ∧ u.isDirectory p = true := by
  obtain ⟨l, n, htarget, hnone, rfl⟩ := exists_of_makeDirectory h
  obtain ⟨steps, hsteps, -, hdir, -⟩ := target_eq_ok.mp htarget
  have file : t.lookup (l ++ [n]) ≠ some .directory := by simp [hnone]
  have hput := lookup_put hdir file .directory
  have hwalk := walk_put htarget file .directory
  have hstart := (covers_put hdir file .directory).start p
  refine ⟨⟨current_put t _ _, fun k e hk => ?_, fun k hk => ?_⟩,
    isDirectory_eq_true.mpr (find_eq_ok.mpr ?_)⟩
  · rw [hput, if_neg, hk]
    rintro rfl
    exact absurd hk (by simp [hnone])
  · rw [hput]
    split
    · rename_i hkl
      exact .inr ⟨rfl, p.steps, hp ▸ List.prefix_rfl, by rw [hstart, hkl, hwalk]⟩
    · exact .inl hk
  · exact ⟨by simp [FilePath.isEmpty, hsteps], fun _ => rfl, _, by rw [hstart, hwalk],
      by rw [hput, if_pos rfl]⟩

theorem isDirectory_of_orDirectory {e : IoError}
    (h : (if t.isDirectory p then .ok () else .error e : Except IoError Unit) = .ok ()) :
    t.isDirectory p = true := by
  split at h
  · assumption
  · exact absurd h (by simp)

/-- Whether a tree comes from another one by making the directory of a path, or some around it. -/
inductive Makes (d : Device) : FilePath → FileTree → FileTree → Prop
  | nothing {p : FilePath} {t : FileTree} : Makes d p t t
  | around {p q : FilePath} {t u : FileTree} (parent : p.parent? = some q) (made : Makes d q t u) :
      Makes d p t u
  | directory {p : FilePath} {t u v : FileTree} (made : Makes d p t u)
      (make : u.makeDirectory d p = .ok v) : Makes d p t v

/-- What `createDirectories` does, whether it succeeds or fails; if it succeeds the path leads to a
directory. -/
theorem createDirectories_makes (d : Device) (fuel : Nat) (t : FileTree) {p : FilePath}
    (hp : p.components = p.steps) :
    Makes d p t (createDirectories d fuel t p).2 ∧
      ((createDirectories d fuel t p).1 = .ok () → p.isEmpty = false →
        (createDirectories d fuel t p).2.isDirectory p = true) := by
  induction fuel generalizing t p with
  | zero => exact ⟨.nothing, fun h => absurd h (by simp [createDirectories])⟩
  | succ fuel ih =>
    rw [createDirectories]
    split
    · rename_i hempty
      exact ⟨.nothing, fun _ h => absurd hempty (by simp [h])⟩
    split
    · rename_i u hmake
      exact ⟨.directory .nothing hmake, fun _ _ => (makeDirectory_grows hp hmake).2⟩
    · split
      · exact ⟨.nothing, fun h => absurd h (by simp)⟩
      rename_i q hq
      -- the directory around is missing too and is made first
      obtain ⟨made, -⟩ := ih t (FilePath.components_parent hq)
      split
      · rename_i e u hcreate
        rw [hcreate] at made
        exact ⟨.around hq made, fun h => absurd h (by simp)⟩
      · rename_i u hcreate
        rw [hcreate] at made
        split
        · rename_i v hmake
          exact ⟨.directory (.around hq made) hmake, fun _ _ => (makeDirectory_grows hp hmake).2⟩
        · exact ⟨.around hq made, fun h _ => isDirectory_of_orDirectory h⟩
    · exact ⟨.nothing, fun h _ => isDirectory_of_orDirectory h⟩

/-- Making directories keeps all that is there, and adds only directories on the way. -/
theorem Makes.grows (h : Makes d p t u) (hp : p.components = p.steps) :
    Grows (u.OnTheWay p) t u := by
  induction h with
  | nothing => exact Grows.refl _ _
  | around parent made ih =>
    exact (ih (FilePath.components_parent parent)).trans (Grows.refl _ _) fun l =>
      OnTheWay.of_parent parent
  | directory made make ih =>
    obtain ⟨hgrows, -⟩ := makeDirectory_grows hp make
    exact (ih hp).trans hgrows fun l => OnTheWay.of_covers hgrows.covers

/-! ### Files -/

/-- A file is opened in a directory, and is none itself. -/
theorem openFile_eq_ok : t.openFile d p = .ok l ↔
    ∃ k n, t.target p .isADirectory = .ok (k, n) ∧ p.slash = false ∧
      t.lookup (k ++ [n]) ≠ some .directory ∧ d.refusal (k ++ [n]) = none ∧ l = k ++ [n] := by
  rw [openFile]
  constructor
  · intro h
    cases htarget : t.target p .isADirectory with
    | error e => simp [htarget, bind, Except.bind] at h
    | ok a =>
      obtain ⟨k, n⟩ := a
      -- each guard that let the file be opened is one of the facts
      simp only [htarget, bind, Except.bind] at h
      split at h
      · exact absurd h (by simp)
      rename_i slash
      split at h
      · exact absurd h (by simp)
      rename_i file
      split at h
      · exact absurd h (by simp)
      rename_i ready
      exact ⟨k, n, rfl, by simpa using slash, file, ready, (Except.ok.inj h).symm⟩
  · rintro ⟨k, n, htarget, slash, file, ready, rfl⟩
    simp [htarget, slash, file, ready, bind, Except.bind]

/-- Writes a file whose directory is there. -/
def writeAt (t : FileTree) (d : Device) (path content : String) : Except IoError Unit × FileTree :=
  match pathOf path with
  | .error e => (.error e, t)
  | .ok p =>
    match t.writeFile d p content with
    | (.ok (), u) => (.ok (), u)
    | (.error e, u) => (.error (.system e), u)

theorem save_eq (t : FileTree) (d : Device) (path content : String) :
    t.save d path content =
      match (FilePath.ofText path).parent? with
      | none => t.writeAt d path content
      | some q =>
        match createDirectories d (q.steps.length + 2) t q with
        | (.ok (), u) => u.writeAt d path content
        | (.error e, u) => (.error e, u) := rfl

/-- Whether the device failed while the file of a path was written, and the file is at a location:
it holds the bytes that the device took before. -/
def CutAt (u : FileTree) (d : Device) (path content : String) (e : IoError) (l : Location) : Prop :=
  u.walk (u.start (.ofText path)) (FilePath.ofText path).steps = .ok l ∧
    ∃ taken failure, d.fault l (bytesOf content) = some (taken, failure) ∧ e = .system failure ∧
      u.lookup l = some (.ofBytes ((bytesOf content).take taken))

section

variable {path content : String}

theorem writeAt_of_refused {e : SystemError} (hpath : pathOf path = .ok p)
    (h : t.openFile d p = .error e) : t.writeAt d path content = (.error (.system e), t) := by
  simp only [writeAt, hpath, writeFile, h]

theorem writeAt_of_taken (hpath : pathOf path = .ok p) (h : t.openFile d p = .ok l)
    (taken : d.fault l (bytesOf content) = none) :
    t.writeAt d path content = (.ok (), t.put l (.text content)) := by
  simp only [writeAt, hpath, writeFile, h, taken]

theorem writeAt_of_fault {taken : Fin (bytesOf content).length} {e : SystemError}
    (hpath : pathOf path = .ok p) (h : t.openFile d p = .ok l)
    (fault : d.fault l (bytesOf content) = some (taken, e)) :
    t.writeAt d path content =
      (.error (.system e), t.put l (.ofBytes ((bytesOf content).take taken))) := by
  simp only [writeAt, hpath, writeFile, h, fault]

end

/-- A write of a file whose directory is there succeeds, or fails before the file is open, or fails
after that, when the file has taken some first bytes. -/
theorem writeAt_cases (t : FileTree) (d : Device) (path content : String) :
    (∃ l, pathOf path = .ok (.ofText path) ∧ t.openFile d (.ofText path) = .ok l ∧
      t.writeAt d path content = (.ok (), t.put l (.text content))) ∨
    (∃ e, t.writeAt d path content = (.error e, t)) ∨
    ∃ l taken e, t.openFile d (.ofText path) = .ok l ∧
      d.fault l (bytesOf content) = some (taken, e) ∧
      t.writeAt d path content =
        (.error (.system e), t.put l (.ofBytes ((bytesOf content).take taken))) := by
  cases hpath : pathOf path with
  | error e => exact .inr (.inl ⟨e, by simp only [writeAt, hpath]⟩)
  | ok p =>
    obtain rfl := pathOf_eq_ok hpath
    cases hopen : t.openFile d (.ofText path) with
    | error e => exact .inr (.inl ⟨_, writeAt_of_refused hpath hopen⟩)
    | ok l =>
      cases hfault : d.fault l (bytesOf content) with
      | none => exact .inl ⟨l, rfl, rfl, writeAt_of_taken hpath hopen hfault⟩
      | some a => exact .inr (.inr ⟨l, a.1, a.2, rfl, hfault, writeAt_of_fault hpath hopen hfault⟩)

/-- Whether a tree differs from another one in the file at a location, which a path leads to, and
otherwise only in new directories on the way of the path. -/
structure Replaces (p : FilePath) (l : Location) (e : Entry) (t u : FileTree) : Prop where
  current : u.current = t.current
  leads : u.walk (u.start p) p.steps = .ok l
  file : t.lookup l ≠ some .directory
  lookup : u.lookup l = some e
  frame : ∀ k, k ≠ l → u.lookup k = t.lookup k ∨
    t.lookup k = none ∧ u.lookup k = some .directory ∧ u.OnTheWay p k

/-- What is put where a file is opened, in a tree where only directories on its way are new. -/
theorem Grows.replaces (h : Grows (u.OnTheWay p) t u) (hopen : u.openFile d p = .ok l)
    (e : Entry) : Covers u (u.put l e) ∧ Replaces p l e t (u.put l e) := by
  obtain ⟨k, n, htarget, -, file, -, rfl⟩ := openFile_eq_ok.mp hopen
  obtain ⟨-, -, -, hdir, -⟩ := target_eq_ok.mp htarget
  have hput := lookup_put hdir file e
  have hcovers := covers_put hdir file e
  refine ⟨hcovers, hcovers.current.trans h.current, ?_, fun hl => file (h.kept _ _ hl),
    by rw [hput, if_pos rfl], fun j hj => ?_⟩
  · rw [hcovers.start]
    exact walk_put htarget file e
  · rw [hput, if_neg hj]
    cases hlookup : t.lookup j with
    | some f => exact .inl (h.kept j f hlookup)
    | none =>
      obtain hnone | ⟨hnew, hway⟩ := h.added j hlookup
      · exact .inl hnone
      · exact .inr ⟨rfl, hnew, hway.of_covers hcovers⟩

/-! ### Saves -/

/-- What a tree is after a file was saved in it: the path leads to the file, the directory around it
is there, and all else is as before but for new directories on the way. -/
structure Saved (t u : FileTree) (path content : String) : Prop where
  read : u.readText path = .ok content
  around : ∀ q, (FilePath.ofText path).parent? = some q → q.isEmpty = false → u.isDirectory q = true
  frame : ∃ l, Replaces (.ofText path) l (.text content) t u

/-- What a tree is after a save that failed. -/
structure Interrupted (t u : FileTree) (d : Device) (path content : String) (e : IoError) :
    Prop where
  current : u.current = t.current
  /-- Every file is still there. -/
  files : ∀ l f, t.lookup l = some f → f ≠ .directory → ∃ g, u.lookup l = some g ∧ g ≠ .directory
  /-- All is as it was, but for the file that the device failed to write. -/
  kept : ∀ l f, t.lookup l = some f →
    u.lookup l = some f ∨ f ≠ .directory ∧ u.CutAt d path content e l
  /-- Only directories on the way of the path are new, and that file. -/
  added : ∀ l, t.lookup l = none → u.lookup l = none ∨
    u.lookup l = some .directory ∧ u.OnTheWay (.ofText path) l ∨ u.CutAt d path content e l

/-- A save makes directories on the way of its path, and fails at that or writes the file. -/
theorem save_cases (t : FileTree) (d : Device) (path content : String) :
    ∃ u, Grows (u.OnTheWay (.ofText path)) t u ∧
      ((∃ e, t.save d path content = (.error e, u)) ∨
        (∀ q, (FilePath.ofText path).parent? = some q → q.isEmpty = false →
          u.isDirectory q = true) ∧ t.save d path content = u.writeAt d path content) := by
  rw [save_eq]
  split
  · rename_i hparent
    exact ⟨t, Grows.refl _ t, .inr ⟨fun q hq => by simp [hparent] at hq, rfl⟩⟩
  · rename_i q hparent
    have hq := FilePath.components_parent hparent
    obtain ⟨made, hdir⟩ := createDirectories_makes d (q.steps.length + 2) t hq
    have hgrows := (made.grows hq).trans (Grows.refl _ _) fun l => OnTheWay.of_parent hparent
    refine ⟨_, hgrows, ?_⟩
    split
    · rename_i u hcreate
      rw [hcreate] at hdir ⊢
      refine .inr ⟨fun q' hq' => ?_, rfl⟩
      obtain rfl := Option.some.inj (hparent.symm.trans hq')
      exact hdir rfl
    · rename_i e u hcreate
      rw [hcreate]
      exact .inl ⟨e, rfl⟩

/-- A save that succeeds changes its file and makes the directories around it. -/
theorem save_eq_ok {path content : String} (h : t.save d path content = (.ok (), u)) :
    Saved t u path content := by
  obtain ⟨v, hgrows, ⟨e, hfail⟩ | ⟨around, hwrite⟩⟩ := t.save_cases d path content
  · exact absurd (Prod.mk.inj (hfail.symm.trans h)).1 (by simp)
  rw [h] at hwrite
  obtain ⟨l, hpath, hopen, hat⟩ | ⟨e, hat⟩ | ⟨l, taken, e, -, -, hat⟩ :=
    v.writeAt_cases d path content
  · obtain rfl := (Prod.mk.inj (hwrite.trans hat)).2
    obtain ⟨hcovers, hreplaces⟩ := hgrows.replaces hopen (.text content)
    obtain ⟨k, n, htarget, slash, -⟩ := openFile_eq_ok.mp hopen
    obtain ⟨steps, hsteps, -⟩ := target_eq_ok.mp htarget
    have hfind := find_eq_ok.mpr ⟨by simp [FilePath.isEmpty, hsteps], by simp [slash], l,
      hreplaces.leads, hreplaces.lookup⟩
    exact ⟨readText_eq_ok.mpr ⟨hpath, hfind⟩,
      fun q hq hne => hcovers.isDirectory (around q hq hne), l, hreplaces⟩
  · exact absurd (Prod.mk.inj (hwrite.trans hat)).1 (by simp)
  · exact absurd (Prod.mk.inj (hwrite.trans hat)).1 (by simp)

theorem Grows.interrupted {path : String} (h : Grows (u.OnTheWay (.ofText path)) t u) (d : Device)
    (content : String) (e : IoError) : Interrupted t u d path content e where
  current := h.current
  files l f hl file := ⟨f, h.kept l f hl, file⟩
  kept l f hl := .inl (h.kept l f hl)
  added l hl := (h.added l hl).imp id .inl

theorem ofBytes_ne_directory (bytes : List UInt8) : Entry.ofBytes bytes ≠ .directory := by
  rw [Entry.ofBytes]
  split <;> simp

/-- The file that the device failed to write is the only one that has changed. -/
theorem Replaces.interrupted {path content : String} {taken : Fin (bytesOf content).length}
    {e : SystemError}
    (h : Replaces (.ofText path) l (.ofBytes ((bytesOf content).take taken)) t u)
    (fault : d.fault l (bytesOf content) = some (taken, e)) :
    Interrupted t u d path content (.system e) := by
  have cut : u.CutAt d path content (.system e) l := ⟨h.leads, taken, e, fault, rfl, h.lookup⟩
  have kept (k : Location) (f : Entry) (hk : t.lookup k = some f) (hkl : k ≠ l) :
      u.lookup k = some f := by
    obtain hframe | ⟨hnone, -⟩ := h.frame k hkl
    · exact hframe.trans hk
    · exact absurd (hnone.symm.trans hk) (by simp)
  refine ⟨h.current, fun k f hk file => ?_, fun k f hk => ?_, fun k hk => ?_⟩
  · by_cases hkl : k = l
    · exact ⟨_, hkl ▸ h.lookup, ofBytes_ne_directory _⟩
    · exact ⟨f, kept k f hk hkl, file⟩
  · by_cases hkl : k = l
    · subst hkl
      refine .inr ⟨?_, cut⟩
      rintro rfl
      exact h.file hk
    · exact .inl (kept k f hk hkl)
  · by_cases hkl : k = l
    · exact .inr (.inr (hkl ▸ cut))
    · obtain hframe | ⟨-, hdir, hway⟩ := h.frame k hkl
      · exact .inl (hframe.trans hk)
      · exact .inr (.inl ⟨hdir, hway⟩)

/-- A save that fails keeps all that is there, except that the file to be written may be cut off. -/
theorem save_eq_error {path content : String} {e : IoError}
    (h : t.save d path content = (.error e, u)) : Interrupted t u d path content e := by
  obtain ⟨v, hgrows, ⟨e', hfail⟩ | ⟨-, hwrite⟩⟩ := t.save_cases d path content
  · rw [(Prod.mk.inj (h.symm.trans hfail)).2]
    exact hgrows.interrupted d content e
  rw [h] at hwrite
  obtain ⟨l, -, -, hat⟩ | ⟨e', hat⟩ | ⟨l, taken, e', hopen, hfault, hat⟩ :=
    v.writeAt_cases d path content
  · exact absurd (Prod.mk.inj (hwrite.trans hat)).1 (by simp)
  · rw [(Prod.mk.inj (hwrite.trans hat)).2]
    exact hgrows.interrupted d content e
  · obtain ⟨he, rfl⟩ := Prod.mk.inj (hwrite.trans hat)
    rw [Except.error.inj he]
    exact (hgrows.replaces hopen _).2.interrupted hfault

/-! ### Files that are there already -/

/-- A directory that is there already is not made again. -/
theorem makeDirectory_of_present (nonempty : p.isEmpty = false)
    (hwalk : t.walk (t.start p) p.steps = .ok l) (hdir : t.lookup l = some .directory) :
    t.makeDirectory d p = .error .alreadyExists := by
  rw [makeDirectory]
  by_cases hname : ∃ n, p.steps.getLast? = some (.name n)
  · obtain ⟨n, hlast⟩ := hname
    obtain ⟨steps, hsteps⟩ := List.getLast?_eq_some_iff.mp hlast
    rw [hsteps, walk_append_eq_ok] at hwalk
    obtain ⟨k, hinit, hwalk⟩ := hwalk
    obtain ⟨hk, hlong, -, hwalk⟩ := walk_cons_eq_ok.mp hwalk
    obtain rfl := Except.ok.inj hwalk
    rw [target_eq_ok.mpr ⟨steps, hsteps, hinit, hk, hlong⟩]
    simp [bind, Except.bind, hdir]
  · rw [target_of_no_name nonempty (fun n hn => hname ⟨n, hn⟩) hwalk]
    rfl

theorem createDirectories_of_present (fuel : Nat) (slash : p.slash = false)
    (hwalk : t.walk (t.start p) p.steps = .ok l) (hdir : t.lookup l = some .directory) :
    createDirectories d (fuel + 1) t p = (.ok (), t) := by
  rw [createDirectories]
  cases hempty : p.isEmpty with
  | true => rfl
  | false =>
    have hpresent : t.isDirectory p = true :=
      isDirectory_eq_true.mpr (find_eq_ok.mpr ⟨hempty, by simp [slash], l, hwalk, hdir⟩)
    rw [makeDirectory_of_present hempty hwalk hdir]
    simp [hpresent]

/-- A save over a file that can be read comes to writing that file, and makes no directory. -/
theorem save_over (d : Device) {path s : String} (h : t.readText path = .ok s) (content : String) :
    ∃ l, t.walk (t.start (.ofText path)) (FilePath.ofText path).steps = .ok l ∧
      (∀ e, Covers t (t.put l e)) ∧
      (d.refusal l = none → t.openFile d (.ofText path) = .ok l) ∧
      t.save d path content = t.writeAt d path content := by
  obtain ⟨hpath, hfind⟩ := readText_eq_ok.mp h
  obtain ⟨hempty, slash, l, hwalk, hfile⟩ := find_eq_ok.mp hfind
  have hslash : (FilePath.ofText path).slash = false := by simpa using slash
  have nonempty : (FilePath.ofText path).steps ≠ [] := by
    intro hnil
    rw [hnil] at hwalk
    obtain rfl := Except.ok.inj hwalk
    -- Without a step the path leads to the root, which is no file.
    have absolute : (FilePath.ofText path).absolute = true := by
      simpa [FilePath.isEmpty, hnil] using hempty
    simp [start, absolute, lookup, entryAt] at hfile
  obtain ⟨init, n, k, hsteps, hinit, hk, hlong, rfl⟩ :=
    exists_name hwalk nonempty hfile (by simp)
  have file : t.lookup (k ++ [n]) ≠ some .directory := by simp [hfile]
  have htarget := target_eq_ok (d := .isADirectory).mpr ⟨init, hsteps, hinit, hk, hlong⟩
  refine ⟨_, hwalk, covers_put hk file,
    fun ready => openFile_eq_ok.mpr ⟨k, n, htarget, hslash, file, ready, rfl⟩, ?_⟩
  rw [save_eq]
  split
  · rfl
  · rename_i q hq
    -- The directory around the file is there already.
    obtain ⟨steps, step, hcomponents, rfl⟩ := FilePath.exists_of_parent hq
    obtain ⟨init', n', k', hsteps', hinit', hk', -, hl⟩ :=
      exists_name (walk_components hwalk) (by simp [hcomponents]) hfile (by simp)
    obtain ⟨rfl, -⟩ := List.append_inj' (hcomponents.symm.trans hsteps') rfl
    rw [createDirectories_of_present _ rfl hinit' hk']

end ApiSurface.FileTree
