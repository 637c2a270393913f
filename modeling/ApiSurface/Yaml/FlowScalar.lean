/-
Plain and quoted scalars in YAML text.

Blanks between words are kept on one line; where a line ends, the line end is folded: one becomes
a space, and of several the first is dropped.
-/
import ApiSurface.Yaml.Name

namespace ApiSurface.Yaml

/-- What stands between two words of a scalar. -/
structure Gap where
  /-- Whether a line has ended. -/
  broken : Bool := false
  /-- The blanks before the first line end. -/
  blanks : List Char := []
  /-- The first line end. -/
  first : List Char := []
  /-- The further line ends. -/
  others : List Char := []

namespace Gap

/-- Line ends as they are read: an ordinary first one folds. -/
def folded (first others : List Char) : List Char :=
  if first = ['\n'] then
    if others.isEmpty then [' '] else others
  else first ++ others

/-- The text that a gap stands for. -/
def text (g : Gap) : List Char := if g.broken then folded g.first g.others else g.blanks

/-- The gap with one more blank; after a line end blanks are indentation. -/
def addBlank (g : Gap) (c : Char) : Gap :=
  if g.broken then g else { g with blanks := g.blanks ++ [c] }

/-- The gap with one more line end; blanks before the first one are dropped. -/
def addBreak (g : Gap) (b : List Char) : Gap :=
  if g.broken then { g with others := g.others ++ b }
  else { g with broken := true, blanks := [], first := b }

end Gap

namespace Lexer

/-- Reads blanks and line ends. In a plain scalar no tab may stand before the indentation. -/
def gap (tabLimit : Option (Nat × Mark)) : List Char → Gap → Lexer Gap
  | [], g => pure g
  | _ :: fuel, g => do
    match ← peek? with
    | none => return g
    | some c =>
      if isBlank c then
        match tabLimit with
        | some (indent, start) =>
          if g.broken && c == '\t' && (← mark).column < indent then
            fail .tabInPlainIndent .plainScalar start
        | none => pure ()
        skip
        gap tabLimit fuel (g.addBlank c)
      else if isBreak c then
        let b ← lineBreak
        gap tabLimit fuel (g.addBreak b)
      else return g

/-- Whether a character belongs to no plain scalar, given the one after it. -/
def endsPlain (inFlow : Bool) (c : Char) (next : Option Char) : Bool :=
  isGap c || c == ':' && isGapOrEnd next || inFlow && ",[]\x7b\x7d".contains c

/-- Whether a colon stands where a flow collection does not allow it. -/
def badColon (inFlow : Bool) (c : Char) (next : Option Char) : Bool :=
  inFlow && c == ':' && next.any (",?[]\x7b\x7d".contains ·)

/-- The length of the word at the start of a text. -/
def plainLength (inFlow : Bool) : List Char → Nat
  | [] => 0
  | c :: cs =>
    if endsPlain inFlow c cs.head? || badColon inFlow c cs.head? then 0
    else plainLength inFlow cs + 1

/-- A plain scalar that was read: its words and what stands between them, last part first, where
its last word stopped, and whether a line ended after that. -/
structure Plain where
  parts : List (List Char)
  stop : Mark
  broken : Bool

/-- The text of a plain scalar. -/
def Plain.text (p : Plain) : List Char := p.parts.reverse.flatten

/-- Reads the words of a plain scalar; `parts` holds what was read, last part first, and
`between` what stands before the next word. -/
def plainWords (inFlow : Bool) (indent : Nat) (start : Mark) :
    List Char → List (List Char) → Gap → Mark → Lexer Plain
  | [], parts, between, stop => pure ⟨parts, stop, between.broken⟩
  | _ :: fuel, parts, between, stop => do
    let c ← get
    let done : Lexer Plain := pure ⟨parts, stop, between.broken⟩
    if c.atDocumentMarker || c.rest.head? == some '#' then done
    else
      let word ← take (plainLength inFlow c.rest)
      match ← rest with
      | x :: xs =>
        if badColon inFlow x xs.head? then fail .misplacedColon .plainScalar start
      | [] => pure ()
      if word.isEmpty then done
      else
        let parts := word :: between.text :: parts
        let stop ← mark
        if !(← peek?).any isGap then return ⟨parts, stop, false⟩
        let between ← gap (some (indent, start)) (← rest) {}
        if !inFlow && (← mark).column < indent then
          return ⟨parts, stop, between.broken⟩
        plainWords inFlow indent start fuel parts between stop

/-- Reads a plain scalar, whose lines are indented at least as given. -/
def plainScalar (inFlow : Bool) (indent : Nat) : Lexer Plain := do
  let start ← mark
  plainWords inFlow indent start (← rest) [] {} start

/-- The character that a letter stands for after a backslash. -/
def shortEscape? (c : Char) : Option Char :=
  [('0', '\x00'), ('a', '\x07'), ('b', '\x08'), ('t', '\t'), ('\t', '\t'), ('n', '\n'),
    ('v', '\x0b'), ('f', '\x0c'), ('r', '\r'), ('e', '\x1b'), (' ', ' '), ('"', '"'), ('/', '/'),
    ('\\', '\\'), ('N', '\u0085'), ('_', '\u00a0'), ('L', '\u2028'), ('P', '\u2029')].lookup c

/-- The number of hexadecimal digits after a letter. -/
def escapeDigits? (c : Char) : Option Nat := [('x', 2), ('u', 4), ('U', 8)].lookup c

/-- Reads an escape, whose backslash and given letter are next. -/
def escape (c : Char) (start : Mark) : Lexer Char := do
  match shortEscape? c, escapeDigits? c with
  | some d, _ =>
    let _ ← take 2
    return d
  | none, some n =>
    let _ ← take 2
    let digits := (← rest).take n
    match Text.number? 16 digits with
    | some v =>
      if digits.length < n then fail .badHexDigit .quotedText start
      else if 0xd800 ≤ v ∧ v ≤ 0xdfff ∨ 0x10ffff < v then fail .badCodePoint .quotedText start
      else
        let _ ← take n
        return Char.ofNat v
    | none => fail .badHexDigit .quotedText start
  | none, none => fail .unknownEscape .quotedText start

/-- Reads a word of a quoted scalar; gives the word and whether an escaped line end follows it.
`read` holds what was read, last character first. -/
def quotedWord (single : Bool) (start : Mark) :
    List Char → List Char → Lexer (List Char × Bool)
  | [], read => pure (read.reverse, false)
  | _ :: fuel, read => do
    match ← rest with
    | [] => return (read.reverse, false)
    | c :: cs =>
      if isGap c then return (read.reverse, false)
      else if single then
        if c = '\'' then
          if cs.head? = some '\'' then
            let _ ← take 2
            quotedWord single start fuel (c :: read)
          else return (read.reverse, false)
        else
          skip
          quotedWord single start fuel (c :: read)
      else if c = '"' then return (read.reverse, false)
      else if c = '\\' then
        match cs with
        | [] => fail .unknownEscape .quotedText start
        | d :: _ =>
          if isBreak d then
            skip
            let _ ← lineBreak
            return (read.reverse, true)
          else
            let e ← escape d start
            quotedWord single start fuel (e :: read)
      else
        skip
        quotedWord single start fuel (c :: read)

/-- Reads the words of a quoted scalar and its last quote. -/
def quotedWords (single : Bool) (start : Mark) :
    List Char → List (List Char) → Lexer (List Char)
  | [], _ => fail .endOfText .quotedScalar start
  | _ :: fuel, parts => do
    let c ← get
    if c.atDocumentMarker then fail .documentMarker .quotedScalar start
    if c.rest.isEmpty then fail .endOfText .quotedScalar start
    let (word, escapedBreak) ← quotedWord single start (← rest) []
    if (← peek?) = some (if single then '\'' else '"') then
      skip
      return (word :: parts).reverse.flatten
    else
      let between ← gap none (← rest) { broken := escapedBreak }
      quotedWords single start fuel (between.text :: word :: parts)

/-- Reads a quoted scalar. -/
def quotedScalar (single : Bool) : Lexer (List Char) := do
  let start ← mark
  skip
  quotedWords single start (← rest) []

end Lexer

end ApiSurface.Yaml
