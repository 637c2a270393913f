/-
Dividing YAML text into tokens.

The indentation of block collections becomes tokens too. A key without an indicator is known only
when its colon is seen, so the places where one may have started are remembered as candidates, and
the tokens of the key are put in there later. A token is released when no candidate that stands
at it or before it is left; when the text turns out to be faulty, only released tokens count.
-/
import ApiSurface.Yaml.BlockScalar
import ApiSurface.Yaml.FlowScalar

namespace ApiSurface.Yaml

/-- A place where a key may have started. -/
structure Candidate where
  /-- Whether nothing but a key may stand there. -/
  required : Bool
  /-- The number of tokens before it. -/
  number : Nat
  mark : Mark

/-- A text in the course of being divided. -/
structure Tokenizer where
  cursor : Cursor
  /-- The tokens so far, last token first. -/
  tokens : List Token := []
  count : Nat := 0
  /-- The column of the innermost block collection. -/
  indent : Int := -1
  /-- The columns of the collections around it. -/
  outer : List Int := []
  /-- Whether a key may start here. -/
  keyAllowed : Bool := true
  /-- The candidates of the flow collections, innermost first, and of the block around them. -/
  candidates : List (Option Candidate) := [none]

namespace Tokenizer

/-- Whether the text is inside a flow collection. -/
def inFlow (s : Tokenizer) : Bool := 1 < s.candidates.length

/-- The current point. -/
def mark (s : Tokenizer) : Mark := s.cursor.mark

/-- The innermost candidate. -/
def candidate? (s : Tokenizer) : Option Candidate := s.candidates.head?.join

/-- Appends a token. -/
def push (s : Tokenizer) (kind : TokenKind) (start stop : Mark) : Tokenizer :=
  { s with tokens := ⟨kind, start, stop⟩ :: s.tokens, count := s.count + 1 }

/-- Puts a token in after a number of others. -/
def insert (s : Tokenizer) (number : Nat) (kind : TokenKind) (m : Mark) : Tokenizer :=
  let later := s.count - number
  { s with
    tokens := s.tokens.take later ++ ⟨kind, m, m⟩ :: s.tokens.drop later
    count := s.count + 1 }

/-- Replaces the innermost candidate. -/
def setCandidate (s : Tokenizer) (c : Option Candidate) : Tokenizer :=
  { s with candidates := c :: s.candidates.tail }

/-- The fault of a required key that has no colon. -/
def missingColon (s : Tokenizer) (c : Candidate) : Fault :=
  ⟨.tokens, .missingColon, s.mark, some (.simpleKey, c.mark)⟩

/-- The fault of a token that is not allowed here. -/
def misplaced (s : Tokenizer) (p : Problem) : Fault := ⟨.tokens, p, s.mark, none⟩

/-- Gives up the innermost candidate. -/
def dropCandidate (s : Tokenizer) : Except Fault Tokenizer :=
  match s.candidate? with
  | some c => if c.required then .error (s.missingColon c) else .ok (s.setCandidate none)
  | none => .ok s

/-- Remembers that a key may start here. -/
def saveCandidate (s : Tokenizer) : Except Fault Tokenizer :=
  if s.keyAllowed then do
    let required := !s.inFlow && s.indent == Int.ofNat s.mark.column
    return (← s.dropCandidate).setCandidate (some ⟨required, s.count, s.mark⟩)
  else .ok s

/-- The number of bytes that a key without an indicator may have. -/
def longestKey : Nat := 1024

/-- Whether the text has gone too far for a key to have started at a candidate. -/
def isStale (s : Tokenizer) (c : Candidate) : Bool :=
  c.mark.line < s.mark.line || c.mark.index + longestKey < s.mark.index

/-- Gives up the candidates that have become too old, outermost first. -/
def dropStale (s : Tokenizer) : Except Fault Tokenizer := do
  let kept ← s.candidates.reverse.mapM fun
    | some c =>
      if s.isStale c then if c.required then .error (s.missingColon c) else .ok none
      else .ok (some c)
    | none => .ok none
  return { s with candidates := kept.reverse }

/-- Opens a block collection at a column, unless one at that column is open; its token is put in
after a number of others if that is given. -/
def openBlock (s : Tokenizer) (column : Nat) (number : Option Nat) (kind : TokenKind) (m : Mark) :
    Tokenizer :=
  if s.inFlow || Int.ofNat column ≤ s.indent then s
  else
    let s := { s with indent := column, outer := s.indent :: s.outer }
    match number with
    | some n => s.insert n kind m
    | none => s.push kind m m

/-- Closes block collections, given the columns around them, down to a column. -/
def closeBlocksFrom (column : Int) : List Int → Tokenizer → Tokenizer
  | [], s => s
  | i :: outer, s =>
    if s.indent ≤ column then s
    else closeBlocksFrom column outer { s.push .blockEnd s.mark s.mark with indent := i, outer }

/-- Closes the block collections that are indented more than a column. -/
def closeBlocks (s : Tokenizer) (column : Int) : Tokenizer :=
  if s.inFlow then s else closeBlocksFrom column s.outer s

/-- Runs a lexer at the cursor. -/
def lex {α : Type} (s : Tokenizer) (l : Lexer α) : Except Fault (α × Tokenizer) :=
  (l s.cursor).map fun (a, cursor) => (a, { s with cursor })

/-- Reads a token with a lexer. -/
def lexToken (s : Tokenizer) (l : Lexer TokenKind) : Except Fault Tokenizer := do
  let (kind, s') ← s.lex l
  return s'.push kind s.mark s'.mark

/-- Reads a token of some characters. -/
def take (s : Tokenizer) (n : Nat) (kind : TokenKind) : Tokenizer :=
  let s' := { s with cursor := s.cursor.advanceBy n }
  s'.push kind s.mark s'.mark

/-- Steps over blanks, comments and line ends to the next token. -/
def skipToToken : List Char → Tokenizer → Tokenizer
  | [], s => s
  | _ :: fuel, s =>
    let tabs := s.inFlow || !s.keyAllowed
    let toBreak : Lexer (Option Char) := do
      if (← Lexer.peek?) = some '\ufeff' ∧ (← Lexer.mark).index = 0 then Lexer.skip
      let _ ← Lexer.takeWhile fun c => c == ' ' || tabs && c == '\t'
      Lexer.skipComment
      Lexer.peek?
    match s.lex toBreak with
    | .ok (next, s) =>
      if next.any isBreak then
        let s := { s with cursor := s.cursor.lineBreak.2 }
        skipToToken fuel (if s.inFlow then s else { s with keyAllowed := true })
      else s
    | .error _ => s

/-- Reads a directive. -/
def directive (s : Tokenizer) : Except Fault Tokenizer := do
  let s ← (s.closeBlocks (-1)).dropCandidate
  let ((kind, stop), s') ← { s with keyAllowed := false }.lex Lexer.directive
  return s'.push kind s.mark stop

/-- Reads the marker of a document's start or end. -/
def documentMarker (s : Tokenizer) (kind : TokenKind) : Except Fault Tokenizer := do
  let s ← (s.closeBlocks (-1)).dropCandidate
  return { s with keyAllowed := false }.take 3 kind

/-- Reads the start of a flow collection. -/
def flowStart (s : Tokenizer) (kind : TokenKind) : Except Fault Tokenizer := do
  let s ← s.saveCandidate
  return { s with candidates := none :: s.candidates, keyAllowed := true }.take 1 kind

/-- Reads the end of a flow collection. -/
def flowEnd (s : Tokenizer) (kind : TokenKind) : Except Fault Tokenizer := do
  let s ← s.dropCandidate
  let candidates := if s.inFlow then s.candidates.tail else s.candidates
  return { s with candidates, keyAllowed := false }.take 1 kind

/-- Reads the comma of a flow collection. -/
def flowEntry (s : Tokenizer) : Except Fault Tokenizer := do
  let s ← s.dropCandidate
  return { s with keyAllowed := true }.take 1 .flowEntry

/-- Reads the hyphen of a block sequence. -/
def blockEntry (s : Tokenizer) : Except Fault Tokenizer := do
  if !s.inFlow && !s.keyAllowed then .error (s.misplaced .misplacedEntry)
  let s ← (s.openBlock s.mark.column none .blockSequenceStart s.mark).dropCandidate
  return { s with keyAllowed := true }.take 1 .blockEntry

/-- Reads the indicator of a key. -/
def key (s : Tokenizer) : Except Fault Tokenizer := do
  if !s.inFlow && !s.keyAllowed then .error (s.misplaced .misplacedKey)
  let s ← (s.openBlock s.mark.column none .blockMappingStart s.mark).dropCandidate
  return { s with keyAllowed := !s.inFlow }.take 1 .key

/-- Reads the colon before a value. The candidate, if there is one, turns out to be a key. -/
def value (s : Tokenizer) : Except Fault Tokenizer :=
  match s.candidate? with
  | some c =>
    let s := (s.insert c.number .key c.mark).openBlock c.mark.column (some c.number)
      .blockMappingStart c.mark
    .ok ({ s.setCandidate none with keyAllowed := false }.take 1 .value)
  | none =>
    if !s.inFlow && !s.keyAllowed then .error (s.misplaced .misplacedValue)
    else
      let s := s.openBlock s.mark.column none .blockMappingStart s.mark
      .ok ({ s with keyAllowed := !s.inFlow }.take 1 .value)

/-- Reads an anchor, an alias or a tag. -/
def nodeProperty (s : Tokenizer) (l : Lexer TokenKind) : Except Fault Tokenizer := do
  let s ← s.saveCandidate
  { s with keyAllowed := false }.lexToken l

/-- Reads a block scalar. -/
def blockScalar (s : Tokenizer) (literal : Bool) : Except Fault Tokenizer := do
  let s ← s.dropCandidate
  { s with keyAllowed := true }.lexToken do
    let text ← Lexer.blockScalar literal s.indent
    return .scalar (String.ofList text) (if literal then .literal else .folded)

/-- Reads a quoted scalar. -/
def quotedScalar (s : Tokenizer) (single : Bool) : Except Fault Tokenizer := do
  let s ← s.saveCandidate
  { s with keyAllowed := false }.lexToken do
    let text ← Lexer.quotedScalar single
    return .scalar (String.ofList text) (if single then .singleQuoted else .doubleQuoted)

/-- Reads a plain scalar; after a line end a key may follow. -/
def plainScalar (s : Tokenizer) : Except Fault Tokenizer := do
  let s ← s.saveCandidate
  let (p, s') ← s.lex (Lexer.plainScalar s.inFlow (s.indent + 1).toNat)
  let kind := .scalar (String.ofList p.text) .plain
  return { s' with keyAllowed := p.broken }.push kind s.mark p.stop

/-- Ends the text; a line that was begun counts as ended. -/
def finish (s : Tokenizer) : Except Fault Tokenizer := do
  let m := s.mark
  let m := if m.column = 0 then m else { m with line := m.line + 1, column := 0 }
  let s ← ({ s with cursor := { s.cursor with mark := m } }.closeBlocks (-1)).dropCandidate
  return { s with keyAllowed := false }.push .streamEnd m m

/-- The characters that no plain scalar starts with. -/
def indicators : String := "-?:,[]\x7b\x7d#&*!|>'\"%@`"

/-- Whether a plain scalar starts with a character, given the one after it. -/
def startsPlain (s : Tokenizer) (c : Char) (next : Option Char) : Bool :=
  !isGap c && !indicators.contains c || c == '-' && !next.any isBlank
    || !s.inFlow && (c == '?' || c == ':') && !isGapOrEnd next

/-- Reads the token that is next. -/
def token (s : Tokenizer) : Except Fault Tokenizer :=
  match s.cursor.rest with
  | [] => s.finish
  | c :: cs =>
    let alone := isGapOrEnd cs.head?
    if s.mark.column = 0 ∧ c = '%' then s.directive
    else if s.cursor.startsMarker '-' then s.documentMarker .documentStart
    else if s.cursor.startsMarker '.' then s.documentMarker .documentEnd
    else if c = '[' then s.flowStart .flowSequenceStart
    else if c = '\x7b' then s.flowStart .flowMappingStart
    else if c = ']' then s.flowEnd .flowSequenceEnd
    else if c = '\x7d' then s.flowEnd .flowMappingEnd
    else if c = ',' then s.flowEntry
    else if c = '-' ∧ alone then s.blockEntry
    else if c = '?' ∧ (s.inFlow ∨ alone) then s.key
    else if c = ':' ∧ (s.inFlow ∨ alone) then s.value
    else if c = '*' then s.nodeProperty (Lexer.anchor true)
    else if c = '&' then s.nodeProperty (Lexer.anchor false)
    else if c = '!' then s.nodeProperty (Lexer.tag s.inFlow)
    else if c = '|' ∧ !s.inFlow then s.blockScalar true
    else if c = '>' ∧ !s.inFlow then s.blockScalar false
    else if c = '\'' then s.quotedScalar true
    else if c = '"' then s.quotedScalar false
    else if s.startsPlain c cs.head? then s.plainScalar
    else .error ⟨.tokens, .unknownToken, s.mark, some (.nextToken, s.mark)⟩

/-- Goes to the next token and reads it. -/
def next (s : Tokenizer) : Except Fault Tokenizer := do
  let s ← (s.skipToToken s.cursor.rest).dropStale
  (← (s.closeBlocks s.mark.column).token).dropStale

/-- The number of tokens before which no candidate is left. -/
def released (s : Tokenizer) : Nat :=
  s.candidates.foldl (fun n c => (c.map (·.number)).elim n (min n)) s.count

end Tokenizer

/-- The tokens of a text, up to a fault. -/
structure TokenStream where
  tokens : List Token
  fault : Option Fault := none

namespace TokenStream

/-- Reads tokens to the end of the text or to a fault. -/
def read : Nat → Tokenizer → TokenStream
  | 0, s => ⟨s.tokens.reverse, none⟩
  | fuel + 1, s =>
    match s.next with
    | .error f => ⟨s.tokens.reverse.take s.released, some f⟩
    | .ok s' =>
      match s'.tokens with
      | ⟨.streamEnd, _, _⟩ :: _ => ⟨s'.tokens.reverse, none⟩
      | _ => read fuel s'

/-- Whether a character may stand in a YAML text. -/
def isAllowed (c : Char) : Bool :=
  let n := c.toNat
  n == 0x09 || n == 0x0a || n == 0x0d || 0x20 ≤ n && n ≤ 0x7e || n == 0x85
    || 0xa0 ≤ n && n ≤ 0xd7ff || 0xe000 ≤ n && n ≤ 0xfffd || 0x10000 ≤ n

/-- The bytes before the first character that is not allowed. -/
def firstControl? : List Char → Nat → Option Nat
  | [], _ => none
  | c :: cs, n => if isAllowed c then firstControl? cs (n + c.utf8Size) else some n

/-- The tokens of a text. A text with a character that is not allowed has none. -/
def ofText (cs : List Char) : TokenStream :=
  match firstControl? cs 0 with
  | some n => ⟨[], some ⟨.characters, .controlCharacter, ⟨n, 0, 0⟩, none⟩⟩
  | none =>
    let start : Token := ⟨.streamStart, {}, {}⟩
    read (cs.length + 2) { cursor := ⟨cs, {}⟩, tokens := [start], count := 1 }

end TokenStream

end ApiSurface.Yaml
