/-
Writing trees as YAML text.

Collections are blocks, indented by two spaces a level; a list that is the value of a member is not
indented. Empty collections are written in brackets.
-/
import ApiSurface.Wire.Tree
import ApiSurface.Yaml.Style

namespace ApiSurface.Yaml

/-- Some spaces. -/
def spaces (n : Nat) : List Char := List.replicate n ' '

/-- The lines of a literal block, indented; `fresh` says whether a line is to be begun. -/
def literalLines (indent : Nat) (fresh : Bool) : List Char → List Char
  | [] => []
  | c :: cs =>
    if isBreak c then c :: literalLines indent true cs
    else (if fresh then spaces indent else []) ++ c :: literalLines indent false cs

/-- The indicators of a literal block: an indentation where the first line hides it, and what
becomes of the line ends at the end. -/
def literalIndicators (cs : List Char) : List Char :=
  let indentation := if cs.head?.any fun c => c == ' ' || isBreak c then ['2'] else []
  let chomping := match cs.reverse with
    | [] => ['-']
    | [c] => if isBreak c then ['+'] else ['-']
    | c :: d :: _ => if !isBreak c then ['-'] else if isBreak d then ['+'] else []
  indentation ++ chomping

/-- A literal block with its last line end. -/
def literal (indent : Nat) (cs : List Char) : List Char :=
  '|' :: (literalIndicators cs ++ '\n' :: (literalLines indent true cs ++
    if cs.getLast?.any isBreak then [] else ['\n']))

/-- The inside of single quotes; `fresh` says whether a line has just ended. -/
def singleQuotedBody (indent : Nat) (fresh : Bool) : List Char → List Char
  | [] => if fresh then spaces indent else []
  | c :: cs =>
    if isBreak c then c :: singleQuotedBody indent true cs
    else (if fresh then spaces indent else []) ++
      (if c = '\'' then ['\'', '\''] else [c]) ++ singleQuotedBody indent false cs

/-- The code point of a character in a given count of digits with uppercase letters. -/
def codePoint (count : Nat) (c : Char) : List Char :=
  (Text.hexDigits count c.toNat).map Char.toUpper

/-- The escapes of one letter. -/
def shortEscape? (c : Char) : Option Char :=
  [('\x00', '0'), ('\x07', 'a'), ('\x08', 'b'), ('\t', 't'), ('\n', 'n'), ('\x0b', 'v'),
    ('\x0c', 'f'), ('\r', 'r'), ('\x1b', 'e'), ('"', '"'), ('\\', '\\'), ('\u0085', 'N'),
    ('\u2028', 'L'), ('\u2029', 'P')].lookup c

/-- A character inside double quotes. -/
def doubleQuotedChar (c : Char) : List Char :=
  match shortEscape? c with
  | some d => ['\\', d]
  | none =>
    if Style.isPrintable c then [c]
    else if c.toNat ≤ 0xff then '\\' :: 'x' :: codePoint 2 c
    else if c.toNat ≤ 0xffff then '\\' :: 'u' :: codePoint 4 c
    else '\\' :: 'U' :: codePoint 8 c

/-- A text as a scalar up to the end of its last line; further lines are indented. -/
def text (indent : Nat) (s : String) : List Char :=
  let cs := s.toList
  match Style.ofText s with
  | .literal => literal indent cs
  | .singleQuoted => '\'' :: (singleQuotedBody indent false cs ++ ['\'', '\n'])
  | .doubleQuoted => '"' :: (cs.flatMap doubleQuotedChar ++ ['"', '\n'])
  | _ => cs ++ ['\n']

/-- Where a node stands: at the top, after a key, or after the hyphen of an item. -/
inductive Position where
  | top
  | afterKey
  | afterHyphen
  deriving DecidableEq

namespace Position

/-- What stands before a node on the same line. -/
def gap : Position → List Char
  | .top => []
  | _ => [' ']

/-- What stands before the first line of a block, and the indentation of the block. -/
def opening (p : Position) (indent : Nat) (isList : Bool) : List Char × Nat :=
  match p with
  | .top => ([], 0)
  | .afterHyphen => ([' '], indent + 2)
  | .afterKey =>
    if isList then ('\n' :: spaces indent, indent) else ('\n' :: spaces (indent + 2), indent + 2)

/-- What stands before the first line of a block that has a tag, and its indentation. -/
def tagged (p : Position) (indent : Nat) : List Char × Nat :=
  let inner := if p = .top then 0 else indent + 2
  ('\n' :: spaces inner, inner)

end Position

mutual

/-- The text of a node inside a collection of the given indentation, with its last line end. -/
def write (p : Position) (indent : Nat) : Tree → List Char
  | .null => p.gap ++ ['n', 'u', 'l', 'l', '\n']
  | .bool b => p.gap ++ (if b then ['t', 'r', 'u', 'e', '\n'] else ['f', 'a', 'l', 's', 'e', '\n'])
  | .number n => p.gap ++ n.write Notation.yaml ++ ['\n']
  | .text s => p.gap ++ text (if p = .top then 2 else indent + 2) s
  | .list items =>
    if items.isEmpty then p.gap ++ ['[', ']', '\n']
    else (p.opening indent true).1 ++ writeItems (p.opening indent true).2 items
  | .record members =>
    if members.isEmpty then p.gap ++ ['{', '}', '\n']
    else (p.opening indent false).1 ++ writeMembers (p.opening indent false).2 members
  | .tagged tag value => p.gap ++ '!' :: (tag.toList ++ writeTagged p indent value)

/-- The text of a node after its tag. -/
def writeTagged (p : Position) (indent : Nat) : Tree → List Char
  | .list items =>
    if items.isEmpty then [' ', '[', ']', '\n']
    else (p.tagged indent).1 ++ writeItems (p.tagged indent).2 items
  | .record members =>
    if members.isEmpty then [' ', '{', '}', '\n']
    else (p.tagged indent).1 ++ writeMembers (p.tagged indent).2 members
  | .null => [' ', 'n', 'u', 'l', 'l', '\n']
  | .bool b => if b then [' ', 't', 'r', 'u', 'e', '\n'] else [' ', 'f', 'a', 'l', 's', 'e', '\n']
  | .number n => ' ' :: (n.write Notation.yaml ++ ['\n'])
  | .text s => ' ' :: text (if p = .top then 2 else indent + 2) s
  | .tagged tag value => ' ' :: '!' :: (tag.toList ++ writeTagged p indent value)

/-- The items of a list; the first one stands where the text is. -/
def writeItems (indent : Nat) : List Tree → List Char
  | [] => []
  | item :: rest =>
    '-' :: (write .afterHyphen indent item ++
      if rest.isEmpty then [] else spaces indent ++ writeItems indent rest)

/-- The members of a record; the first one stands where the text is. -/
def writeMembers (indent : Nat) : List (String × Tree) → List Char
  | [] => []
  | (key, value) :: rest =>
    key.toList ++ ':' :: (write .afterKey indent value ++
      if rest.isEmpty then [] else spaces indent ++ writeMembers indent rest)

end

/-- A tree as a document. -/
def document (t : Tree) : String := String.ofList (write .top 0 t)

end ApiSurface.Yaml
