/-
Directives, anchors and tags in YAML text.
-/
import ApiSurface.Text.Digits
import ApiSurface.Yaml.Token

namespace ApiSurface.Yaml.Lexer

/-- Reads one octet that is written as a percent sign and two digits. -/
def octet (activity : Activity) (start : Mark) : Lexer Nat := do
  match ← rest with
  | '%' :: a :: b :: _ =>
    match Text.number? 16 [a, b] with
    | some n =>
      let _ ← take 3
      return n
    | none => fail .badTagEscape activity start
  | _ => fail .badTagEscape activity start

/-- Reads the further octets of a character. -/
def nextOctets (activity : Activity) (start : Mark) : Nat → Nat → Lexer Nat
  | 0, acc => pure acc
  | n + 1, acc => do
    let c ← get
    let o ← octet activity start
    if o / 0x40 = 2 then nextOctets activity start n (acc * 0x40 + o % 0x40)
    else fun _ => .error ⟨.tokens, .badNextOctet, c.mark, some (activity, start)⟩

/-- Reads one character that is written as escaped octets. -/
def escapedChar (activity : Activity) (start : Mark) : Lexer Char := do
  let c ← get
  let o ← octet activity start
  if o < 0x80 then return Char.ofNat o
  else if o / 0x20 = 6 then return Char.ofNat (← nextOctets activity start 1 (o % 0x20))
  else if o / 0x10 = 14 then return Char.ofNat (← nextOctets activity start 2 (o % 0x10))
  else if o / 0x08 = 30 then return Char.ofNat (← nextOctets activity start 3 (o % 0x08))
  else fun _ => .error ⟨.tokens, .badFirstOctet, c.mark, some (activity, start)⟩

/-- The characters of a tag; a tag in angle brackets may also have commas and brackets. -/
def isTagChar (bracketed : Bool) (c : Char) : Bool :=
  isWordChar c || ";/?:@&=+$.%!~*'()".contains c || bracketed && ",[]".contains c

/-- Reads the characters of a tag. -/
def tagChars (bracketed : Bool) (activity : Activity) (start : Mark) :
    List Char → Lexer (List Char)
  | [] => pure []
  | _ :: fuel => do
    match ← peek? with
    | none => return []
    | some c =>
      if c = '%' then
        let d ← escapedChar activity start
        return d :: (← tagChars bracketed activity start fuel)
      else if isTagChar bracketed c then
        skip
        return c :: (← tagChars bracketed activity start fuel)
      else return []

/-- Reads the text of a tag, of which `head` was read with its exclamation mark. -/
def tagText (bracketed : Bool) (activity : Activity) (head : List Char) (start : Mark) :
    Lexer (List Char) := do
  let cs ← tagChars bracketed activity start (← rest)
  if head.isEmpty && cs.isEmpty then fail .missingTagText activity start
  return head.tail ++ cs

/-- Reads a tag handle, or the start of a tag that has none. -/
def tagHandle (directive : Bool) (start : Mark) : Lexer (List Char) := do
  if (← peek?) ≠ some '!' then
    fail .missingTagMark (if directive then .tagDirectiveStart else .tag) start
  skip
  let name ← takeWhile isWordChar
  if (← peek?) = some '!' then
    skip
    return '!' :: (name ++ ['!'])
  else if directive && !name.isEmpty then fail .missingTagMark .tagDirectiveHandle start
  else return '!' :: name

/-- Reads a tag. -/
def tag (inFlow : Bool) : Lexer TokenKind := do
  let start ← mark
  let (handle, suffix) ← do
    match ← rest with
    | '!' :: '<' :: _ =>
      let _ ← take 2
      let suffix ← tagText true .tagText [] start
      if (← peek?) ≠ some '>' then fail .missingTagEnd .tag start
      skip
      pure (([] : List Char), suffix)
    | _ =>
      let handle ← tagHandle false start
      if 1 < handle.length ∧ handle.getLast? = some '!' then
        pure (handle, ← tagText false .tagText [] start)
      else
        let suffix ← tagText false .tagText handle start
        pure (if suffix.isEmpty then ([], ['!']) else (['!'], suffix))
  let next ← peek?
  if !(inFlow && next == some ',') && !isGapOrEnd next then fail .missingSpaceOrBreak .tag start
  return .tag (String.ofList handle) (String.ofList suffix)

/-- Reads an anchor or an alias. -/
def anchor (isAlias : Bool) : Lexer TokenKind := do
  let start ← mark
  skip
  let name ← takeWhile isWordChar
  let next ← peek?
  let ended := isGapOrEnd next || next.any ("?:,]\x7d%@`".contains ·)
  if name.isEmpty || !ended then
    fail .badAnchorName (if isAlias then .alias else .anchor) start
  let name := String.ofList name
  return if isAlias then .alias name else .anchor name

/-- Reads one number of a version. -/
def versionNumber (start : Mark) : Lexer Nat := do
  let digits := (← rest).takeWhile Char.isDigit
  if 9 < digits.length then
    let _ ← take 9
    fail .longVersion .versionDirective start
  else if digits.isEmpty then fail .missingVersion .versionDirective start
  else
    let _ ← take digits.length
    return Text.decimal 0 digits

/-- Reads the version after its directive's name. -/
def version (start : Mark) : Lexer TokenKind := do
  let _ ← takeWhile isBlank
  let major ← versionNumber start
  if (← peek?) ≠ some '.' then fail .badVersionSeparator .versionDirective start
  skip
  return .versionDirective major (← versionNumber start)

/-- Reads a tag handle and its meaning after their directive's name. -/
def tagMeaning (start : Mark) : Lexer TokenKind := do
  let _ ← takeWhile isBlank
  let handle ← tagHandle true start
  if !(← peek?).any isBlank then fail .missingSpace .tagDirective start
  let _ ← takeWhile isBlank
  let leading ← tagText true .tagDirectiveText [] start
  if !isGapOrEnd (← peek?) then fail .missingSpaceOrBreak .tagDirective start
  return .tagDirective (String.ofList handle) (String.ofList leading)

/-- Reads a directive; gives its token and the point where that stops. -/
def directive : Lexer (TokenKind × Mark) := do
  let start ← mark
  skip
  let name ← takeWhile isWordChar
  if name.isEmpty then fail .missingDirectiveName .directive start
  if !isGapOrEnd (← peek?) then fail .badDirectiveName .directive start
  let kind ← if name = "YAML".toList then version start
    else if name = "TAG".toList then tagMeaning start
    else fail .unknownDirective .directive start
  let stop ← mark
  let _ ← takeWhile isBlank
  skipComment
  if !(← peek?).all isBreak then fail .missingCommentOrBreak .directive start
  let _ ← lineBreak
  return (kind, stop)

end ApiSurface.Yaml.Lexer
