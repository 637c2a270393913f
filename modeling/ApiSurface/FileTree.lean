/-
A tree of files and directories, and what can be done with it.

A path is followed step by step; every step starts at a directory. What makes a directory or writes
a file does so on a `Device`, which may refuse to, or fail while a file is written. A refused
operation leaves the tree as it is, except that `createDirectories` keeps the directories it made
before. A file is emptied when it is opened to be written, so a failure after that leaves the first
bytes of the new content in it, and nothing of the old one.

Assumed of the machine: the tree is only changed by the program, it has no links and no special
files, every directory can be searched, and reading a file that is there does not fail.
-/
import ApiSurface.FilePath
import ApiSurface.IoError

namespace ApiSurface

/-- The names on the way from the root to a file or directory. -/
abbrev Location : Type := List String

/-- A file or a directory. -/
inductive Entry where
  | text (content : String)
  /-- A file that is no text. -/
  | binary (content : List UInt8)
  | directory
  deriving DecidableEq

/-- The bytes of a text in a file. -/
def bytesOf (content : String) : List UInt8 := content.toUTF8.data.toList

/-- The file that holds certain bytes. -/
def Entry.ofBytes (bytes : List UInt8) : Entry :=
  match String.fromUTF8? ⟨bytes.toArray⟩ with
  | some content => .text content
  | none => .binary bytes

/-- Entries by their locations. -/
abbrev Entries : Type := List (Location × Entry)

/-- What entries say is at a location. The root is a directory without an entry. -/
def entryAt (entries : Entries) (l : Location) : Option Entry :=
  if l = [] then some .directory else entries.lookup l

/-- Entries with another one at a location. -/
def withEntry (entries : Entries) (l : Location) (e : Entry) : Entries :=
  entries.filter (·.1 ≠ l) ++ [(l, e)]

theorem lookup_filter_ne {k l : Location} (h : k ≠ l) (entries : Entries) :
    (entries.filter (·.1 ≠ l)).lookup k = entries.lookup k := by
  induction entries with
  | nil => rfl
  | cons p entries ih =>
    obtain ⟨j, e⟩ := p
    by_cases hj : j = l
    · have hk : (k == j) = false := by simp [hj, h]
      rw [List.filter_cons_of_neg (by simp [hj]), ih, List.lookup_cons, hk]
    · rw [List.filter_cons_of_pos (by simp [hj]), List.lookup_cons, List.lookup_cons, ih]

theorem entryAt_withEntry (entries : Entries) {l : Location} (h : l ≠ []) (e : Entry)
    (k : Location) :
    entryAt (withEntry entries l e) k = if k = l then some e else entryAt entries k := by
  by_cases hk : k = []
  · rw [hk, if_neg (Ne.symm h)]
    rfl
  · rw [entryAt, entryAt, if_neg hk, if_neg hk, withEntry, List.lookup_append]
    by_cases hl : k = l
    · have hnone : (entries.filter (·.1 ≠ l)).lookup k = none := by
        refine List.lookup_eq_none_iff.mpr fun p hp => ?_
        simp only [List.mem_filter, decide_eq_true_eq] at hp
        simpa [hl] using Ne.symm hp.2
      rw [hl] at hnone
      rw [if_pos hl, hl, hnone, Option.none_or, List.lookup_cons_self]
    · have hother : (k == l) = false := by simp [hl]
      rw [lookup_filter_ne hl, if_neg hl, List.lookup_cons, hother, List.lookup_nil, Option.or_none]

/-- The entries of a tree, and the directory that relative paths start from. -/
structure FileTree where
  entries : Entries
  current : Location
  /-- Every entry lies in a directory. -/
  inside : ∀ l e, entryAt entries l = some e → entryAt entries l.dropLast = some .directory

/-- What can go wrong while a file is saved. -/
structure Device where
  /-- The failure with which making a directory, or opening a file to write it, is refused. -/
  refusal : Location → Option SystemError := fun _ => none
  /-- The failure that ends the writing of bytes to an open file, and how many of them the file has
  taken before. -/
  fault : Location → (bytes : List UInt8) → Option (Fin bytes.length × SystemError) :=
    fun _ _ => none

/-- The device on which nothing goes wrong. -/
def Device.reliable : Device := {}

namespace FileTree

/-- What is at a location. -/
def lookup (t : FileTree) (l : Location) : Option Entry := entryAt t.entries l

/-- An entry may be added to a directory, or take the place of a file. -/
theorem inside_withEntry (t : FileTree) {l : Location}
    (hdir : t.lookup l.dropLast = some .directory) (file : t.lookup l ≠ some .directory)
    (e : Entry) (k : Location) (f : Entry) (h : entryAt (withEntry t.entries l e) k = some f) :
    entryAt (withEntry t.entries l e) k.dropLast = some .directory := by
  have hl : l ≠ [] := by
    rintro rfl
    exact file rfl
  rw [entryAt_withEntry _ hl] at h ⊢
  have outside : entryAt t.entries k.dropLast = some .directory := by
    split at h
    · rename_i hk
      rw [hk]
      exact hdir
    · exact t.inside k f h
  rw [if_neg, outside]
  rintro rfl
  exact file outside

/-- The tree with another entry at a location. It must lie in a directory and be none itself, or
else the tree stays as it is. -/
def put (t : FileTree) (l : Location) (e : Entry) : FileTree :=
  if h : t.lookup l.dropLast = some .directory ∧ t.lookup l ≠ some .directory then
    { t with entries := withEntry t.entries l e, inside := t.inside_withEntry h.1 h.2 e }
  else t

/-- The number of bytes of the longest name. -/
def longestName : Nat := 255

/-- The number of bytes of the longest path. -/
def longestPath : Nat := 4095

/-- Requires that a location is a directory. -/
def requireDirectory (t : FileTree) (l : Location) : Except SystemError Unit :=
  match t.lookup l with
  | some .directory => .ok ()
  | some _ => .error .notADirectory
  | none => .error .notFound

/-- Follows steps from a location. -/
def walk (t : FileTree) (l : Location) : List PathStep → Except SystemError Location
  | [] => .ok l
  | step :: rest => do
    t.requireDirectory l
    match step with
    | .here => t.walk l rest
    | .up => t.walk l.dropLast rest
    | .name n =>
      if longestName < n.utf8ByteSize then .error .nameTooLong
      else if (t.lookup (l ++ [n])).isNone then .error .notFound
      else t.walk (l ++ [n]) rest

/-- Where the steps of a path start. -/
def start (t : FileTree) (p : FilePath) : Location := if p.absolute then [] else t.current

/-- What a path leads to. -/
def find (t : FileTree) (p : FilePath) : Except SystemError Entry := do
  if p.isEmpty then .error .notFound
  let l ← t.walk (t.start p) p.steps
  match t.lookup l with
  | none => .error .notFound
  | some e => if p.slash && e != .directory then .error .notADirectory else .ok e

/-- The directory that holds the last name of a path, and that name. A path without a name at its
end leads to a directory, which is an error. -/
def target (t : FileTree) (p : FilePath) (directory : SystemError) :
    Except SystemError (Location × String) := do
  if p.isEmpty then .error .notFound
  match p.steps.getLast? with
  | some (.name n) =>
    let l ← t.walk (t.start p) p.steps.dropLast
    t.requireDirectory l
    if longestName < n.utf8ByteSize then .error .nameTooLong else .ok (l, n)
  | _ =>
    let _ ← t.walk (t.start p) p.steps
    .error directory

/-- Where the file of a path is, if it can be opened to write it. -/
def openFile (t : FileTree) (d : Device) (p : FilePath) : Except SystemError Location := do
  let (l, n) ← t.target p .isADirectory
  if p.slash then .error .isADirectory
  else if t.lookup (l ++ [n]) = some .directory then .error .isADirectory
  else match d.refusal (l ++ [n]) with
    | some e => .error e
    | none => .ok (l ++ [n])

/-- Writes a file, over one that is there already. Of that nothing is left once the file is open,
also if the device fails before it has taken the whole content. -/
def writeFile (t : FileTree) (d : Device) (p : FilePath) (content : String) :
    Except SystemError Unit × FileTree :=
  match t.openFile d p with
  | .error e => (.error e, t)
  | .ok l =>
    match d.fault l (bytesOf content) with
    | none => (.ok (), t.put l (.text content))
    | some (taken, e) => (.error e, t.put l (.ofBytes ((bytesOf content).take taken)))

/-- Makes a directory. -/
def makeDirectory (t : FileTree) (d : Device) (p : FilePath) : Except SystemError FileTree := do
  let (l, n) ← t.target p .alreadyExists
  if (t.lookup (l ++ [n])).isSome then .error .alreadyExists
  else match d.refusal (l ++ [n]) with
    | some e => .error e
    | none => .ok (t.put (l ++ [n]) .directory)

/-- Whether a path leads to a directory. -/
def isDirectory (t : FileTree) (p : FilePath) : Bool :=
  match t.find p with
  | .ok .directory => true
  | _ => false

/-- Makes the directory of a path and those it lies in, as far as they are missing. -/
def createDirectories (d : Device) : Nat → FileTree → FilePath → Except IoError Unit × FileTree
  | 0, t, _ => (.error .noRoot, t)
  | fuel + 1, t, p =>
    let orDirectory (t : FileTree) (e : SystemError) : Except IoError Unit × FileTree :=
      (if t.isDirectory p then .ok () else .error (.system e), t)
    if p.isEmpty then (.ok (), t)
    else match t.makeDirectory d p with
      | .ok t' => (.ok (), t')
      | .error .notFound =>
        match p.parent? with
        | none => (.error .noRoot, t)
        | some parent =>
          match createDirectories d fuel t parent with
          | (.error e, t') => (.error e, t')
          | (.ok (), t') =>
            match t'.makeDirectory d p with
            | .ok t'' => (.ok (), t'')
            | .error e => orDirectory t' e
      | .error e => orDirectory t e

/-- The path of a text, unless no path can be like that. -/
def pathOf (text : String) : Except IoError FilePath :=
  if text.toList.contains '\x00' then .error .zeroInPath
  else if longestPath < text.utf8ByteSize then .error (.system .nameTooLong)
  else .ok (.ofText text)

/-- Whether something is at a path. -/
def isPresent (t : FileTree) (path : String) : Bool :=
  match pathOf path with
  | .ok p => (t.find p).toBool
  | .error _ => false

/-- Reads a file as text. -/
def readText (t : FileTree) (path : String) : Except IoError String := do
  match t.find (← pathOf path) with
  | .ok (.text s) => .ok s
  | .ok (.binary _) => .error .notText
  | .ok .directory => .error (.system .isADirectory)
  | .error e => .error (.system e)

/-- Makes the directories around a file and writes it. -/
def save (t : FileTree) (d : Device) (path content : String) : Except IoError Unit × FileTree :=
  let write (t : FileTree) : Except IoError Unit × FileTree :=
    match pathOf path with
    | .error e => (.error e, t)
    | .ok p =>
      match t.writeFile d p content with
      | (.ok (), t') => (.ok (), t')
      | (.error e, t') => (.error (.system e), t')
  match (FilePath.ofText path).parent? with
  | none => write t
  | some parent =>
    match createDirectories d (parent.steps.length + 2) t parent with
    | (.ok (), t') => write t'
    | (.error e, t') => (.error e, t')

/-- A tree with one empty directory, from which relative paths start. -/
def fresh : FileTree where
  entries := [(["work"], .directory)]
  current := ["work"]
  inside l e h := by
    by_cases hl : l = []
    · rw [hl]
      rfl
    · -- the only entry is one below the root
      rw [entryAt, if_neg hl, List.lookup_cons, List.lookup_nil] at h
      split at h
      · rename_i hwork
        rw [eq_of_beq hwork]
        rfl
      · exact absurd h (by simp)

/-- Adds an entry below the current directory, with the directories around it. -/
def add (t : FileTree) (path : String) (e : Entry) : FileTree :=
  let names := (segments '/' path.toList).filter (· ≠ []) |>.map String.ofList
  let around := (List.range names.length).map fun k => t.current ++ names.take k
  let t := around.foldl (fun t l => if (t.lookup l).isSome then t else t.put l .directory) t
  t.put (t.current ++ names) e

/-- The entries below the current directory, by their paths from there. -/
def listing (t : FileTree) : List (String × Entry) :=
  t.entries.filterMap fun (l, e) =>
    let n := t.current.length
    if l.take n = t.current ∧ n < l.length then some (String.intercalate "/" (l.drop n), e)
    else none

end FileTree

end ApiSurface
