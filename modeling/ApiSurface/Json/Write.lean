/-
Writing trees as JSON text.

There are two layouts: one line without blanks, and one member a line, indented by two spaces a
level. Only quotes, backslashes and control characters are escaped.
-/
import ApiSurface.Text.Digits
import ApiSurface.Wire.Tree

namespace ApiSurface.Json

/-- A character of a string as it is written. -/
def escaped (c : Char) : List Char :=
  if c = '"' then ['\\', '"']
  else if c = '\\' then ['\\', '\\']
  else if c = '\x08' then ['\\', 'b']
  else if c = '\x0c' then ['\\', 'f']
  else if c = '\n' then ['\\', 'n']
  else if c = '\r' then ['\\', 'r']
  else if c = '\t' then ['\\', 't']
  else if c.toNat < 0x20 then '\\' :: 'u' :: Text.hexDigits 4 c.toNat
  else [c]

/-- A string in quotes. -/
def quoted (s : String) : List Char := '"' :: (s.toList.flatMap escaped ++ ['"'])

/-- How the parts of lists and objects are set apart. -/
structure Layout where
  /-- What stands before an item, an item's end or a bracket at a level. -/
  newLine : Nat → List Char
  /-- What stands between a key and its value. -/
  colon : List Char

namespace Layout

/-- Everything on one line. -/
def compact : Layout := ⟨fun _ => [], [':']⟩

/-- One item a line. -/
def pretty : Layout := ⟨fun level => '\n' :: List.replicate (2 * level) ' ', [':', ' ']⟩

end Layout

mutual

/-- The text of a tree at a level. -/
def write (l : Layout) (level : Nat) : Tree → List Char
  | .null => ['n', 'u', 'l', 'l']
  | .bool true => ['t', 'r', 'u', 'e']
  | .bool false => ['f', 'a', 'l', 's', 'e']
  | .number n => n.write Notation.json
  | .text s => quoted s
  | .list items =>
    if items.isEmpty then ['[', ']']
    else '[' :: (writeItems l (level + 1) items ++ l.newLine level ++ [']'])
  | .record members =>
    if members.isEmpty then ['{', '}']
    else '{' :: (writeMembers l (level + 1) members ++ l.newLine level ++ ['}'])
  | .tagged tag value =>
    '{' :: (l.newLine (level + 1) ++ quoted tag ++ l.colon ++ write l (level + 1) value
      ++ l.newLine level ++ ['}'])

/-- The items of a list. -/
def writeItems (l : Layout) (level : Nat) : List Tree → List Char
  | [] => []
  | item :: rest =>
    l.newLine level ++ write l level item ++
      if rest.isEmpty then [] else ',' :: writeItems l level rest

/-- The members of an object. -/
def writeMembers (l : Layout) (level : Nat) : List (String × Tree) → List Char
  | [] => []
  | (key, value) :: rest =>
    l.newLine level ++ quoted key ++ l.colon ++ write l level value ++
      if rest.isEmpty then [] else ',' :: writeMembers l level rest

end

/-- A tree on one line. -/
def compact (t : Tree) : String := String.ofList (write .compact 0 t)

/-- A tree over several lines. -/
def pretty (t : Tree) : String := String.ofList (write .pretty 0 t)

end ApiSurface.Json
