/-
How a text is written as a YAML scalar.

A text of several lines is a literal block. A text that would read as something else is quoted, and
any other one is plain if it can be. Where a style cannot hold the text, double quotes can.
-/
import ApiSurface.Yaml.Scalar

namespace ApiSurface.Yaml

namespace Style

/-- Whether a character stands for itself outside double quotes. -/
def isPrintable (c : Char) : Bool :=
  let n := c.toNat
  n == 0x0a || 0x20 ≤ n && n ≤ 0x7e || 0xa0 ≤ n && n ≤ 0xd7ff
    || 0xe000 ≤ n && n ≤ 0xfffd && n != 0xfeff || 0x10000 ≤ n

/-- Whether two neighbours in a text satisfy a relation. -/
def anyPair (r : Char → Char → Bool) : List Char → Bool
  | a :: b :: rest => r a b || anyPair r (b :: rest)
  | _ => false

/-- The characters that no plain scalar may start with. -/
def indicators : String := "#,[]\x7b\x7d&*!|>'\"%@`"

/-- Whether the start of a text looks like the start of something else. -/
def startsLikeOther : List Char → Bool
  | [] => false
  | c :: cs =>
    indicators.contains c || "?:-".contains c && isGapOrEnd cs.head?
      || (c :: cs).take 3 == ['-', '-', '-'] || (c :: cs).take 3 == ['.', '.', '.']

/-- Whether a text holds what would end a plain scalar. -/
def endsEarly (cs : List Char) : Bool :=
  cs.getLast? == some ':' ||
    anyPair (fun a b => a == ':' && isGap b || isGap a && b == '#') cs

/-- Whether a space or a line end stands at one of the ends. -/
def hasLooseEnd (cs : List Char) : Bool :=
  let loose (c : Option Char) := c.any fun c => c == ' ' || isBreak c
  loose cs.head? || loose cs.getLast?

/-- Whether a space stands before a line end. -/
def hasSpaceBreak (cs : List Char) : Bool := anyPair (fun a b => a == ' ' && isBreak b) cs

/-- Whether a space stands after a line end. -/
def hasBreakSpace (cs : List Char) : Bool := anyPair (fun a b => isBreak a && b == ' ') cs

/-- Whether a text may be a literal block. -/
def literalAllowed (cs : List Char) : Bool :=
  cs.all isPrintable && !hasSpaceBreak cs && cs.getLast? != some ' '

/-- Whether a text may stand in single quotes. -/
def singleAllowed (cs : List Char) : Bool :=
  cs.all isPrintable && !hasSpaceBreak cs && !hasBreakSpace cs

/-- Whether a text may be plain. -/
def plainAllowed (cs : List Char) : Bool :=
  cs.all isPrintable && !cs.any isBreak && !hasLooseEnd cs && !startsLikeOther cs && !endsEarly cs

/-- Whether a plain scalar with the text would not be that text, or looks like a number. -/
def isAmbiguous (s : String) : Bool :=
  (match Scalar.ofPlain s with
    | .text _ => false
    | _ => true) || Scalar.hasLeadingZero s.toList

/-- The style in which a text is written. -/
def ofText (s : String) : ScalarStyle :=
  let cs := s.toList
  if cs.contains '\n' then if literalAllowed cs then .literal else .doubleQuoted
  else if !isAmbiguous s && plainAllowed cs then .plain
  else if singleAllowed cs then .singleQuoted
  else .doubleQuoted

end Style

end ApiSurface.Yaml
