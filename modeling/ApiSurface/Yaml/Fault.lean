/-
What can be wrong with a YAML text, where, and what was being read.
-/
import ApiSurface.Text.Quoted
import ApiSurface.Yaml.Cursor

namespace ApiSurface.Yaml

/-- The stage of reading that found a fault. -/
inductive Stage where
  | characters
  | tokens
  | nodes

/-- The ways in which a text fails to be YAML. -/
inductive Problem where
  | controlCharacter
  | missingColon
  | misplacedEntry
  | misplacedKey
  | misplacedValue
  | unknownToken
  | unknownDirective
  | missingDirectiveName
  | badDirectiveName
  | badVersionSeparator
  | missingVersion
  | longVersion
  | missingSpace
  | missingSpaceOrBreak
  | missingCommentOrBreak
  | badAnchorName
  | missingTagEnd
  | missingTagMark
  | missingTagText
  | badTagEscape
  | badFirstOctet
  | badNextOctet
  | zeroIndent
  | tabInIndent
  | tabInPlainIndent
  | documentMarker
  | endOfText
  | unknownEscape
  | badHexDigit
  | badCodePoint
  | misplacedColon
  | missingDocumentStart
  | unknownTagHandle
  | missingNode
  | missingEntry
  | missingKey
  | missingListCommaOrEnd
  | missingMapCommaOrEnd
  | repeatedVersion
  | otherVersion
  | repeatedTagHandle

/-- The words for a problem. -/
def Problem.message : Problem → String
  | .controlCharacter => "control characters are not allowed"
  | .missingColon => "could not find expected ':'"
  | .misplacedEntry => "block sequence entries are not allowed in this context"
  | .misplacedKey => "mapping keys are not allowed in this context"
  | .misplacedValue => "mapping values are not allowed in this context"
  | .unknownToken => "found character that cannot start any token"
  | .unknownDirective => "found unknown directive name"
  | .missingDirectiveName => "could not find expected directive name"
  | .badDirectiveName => "found unexpected non-alphabetical character"
  | .badVersionSeparator => "did not find expected digit or '.' character"
  | .missingVersion => "did not find expected version number"
  | .longVersion => "found extremely long version number"
  | .missingSpace => "did not find expected whitespace"
  | .missingSpaceOrBreak => "did not find expected whitespace or line break"
  | .missingCommentOrBreak => "did not find expected comment or line break"
  | .badAnchorName => "did not find expected alphabetic or numeric character"
  | .missingTagEnd => "did not find the expected '>'"
  | .missingTagMark => "did not find expected '!'"
  | .missingTagText => "did not find expected tag URI"
  | .badTagEscape => "did not find URI escaped octet"
  | .badFirstOctet => "found an incorrect leading UTF-8 octet"
  | .badNextOctet => "found an incorrect trailing UTF-8 octet"
  | .zeroIndent => "found an indentation indicator equal to 0"
  | .tabInIndent => "found a tab character where an indentation space is expected"
  | .tabInPlainIndent => "found a tab character that violates indentation"
  | .documentMarker => "found unexpected document indicator"
  | .endOfText => "found unexpected end of stream"
  | .unknownEscape => "found unknown escape character"
  | .badHexDigit => "did not find expected hexadecimal number"
  | .badCodePoint => "found invalid Unicode character escape code"
  | .misplacedColon => "found unexpected ':'"
  | .missingDocumentStart => "did not find expected <document start>"
  | .unknownTagHandle => "found undefined tag handle"
  | .missingNode => "did not find expected node content"
  | .missingEntry => "did not find expected '-' indicator"
  | .missingKey => "did not find expected key"
  | .missingListCommaOrEnd => "did not find expected ',' or ']'"
  | .missingMapCommaOrEnd => "did not find expected ',' or '\x7d'"
  | .repeatedVersion => "found duplicate %YAML directive"
  | .otherVersion => "found incompatible YAML document"
  | .repeatedTagHandle => "found duplicate %TAG directive"

/-- What was being read when a fault was found. -/
inductive Activity where
  | simpleKey
  | nextToken
  | directive
  | versionDirective
  | tagDirective
  | tagDirectiveHandle
  | tagDirectiveStart
  | anchor
  | alias
  | tag
  | tagText
  | blockScalar
  | quotedScalar
  | quotedText
  | plainScalar
  | node
  | blockNode
  | flowNode
  | blockCollection
  | blockMapping
  | flowSequence
  | flowMapping
  | tagDirectiveText

/-- The words for an activity. -/
def Activity.message : Activity → String
  | .simpleKey => "while scanning a simple key"
  | .nextToken => "while scanning for the next token"
  | .directive => "while scanning a directive"
  | .versionDirective => "while scanning a %YAML directive"
  | .tagDirective => "while scanning a %TAG directive"
  | .tagDirectiveStart => "while scanning a tag directive"
  | .tagDirectiveHandle => "while parsing a tag directive"
  | .tagDirectiveText => "while parsing a %TAG directive"
  | .anchor => "while scanning an anchor"
  | .alias => "while scanning an alias"
  | .tag => "while scanning a tag"
  | .tagText => "while parsing a tag"
  | .blockScalar => "while scanning a block scalar"
  | .quotedScalar => "while scanning a quoted scalar"
  | .quotedText => "while parsing a quoted scalar"
  | .plainScalar => "while scanning a plain scalar"
  | .node => "while parsing a node"
  | .blockNode => "while parsing a block node"
  | .flowNode => "while parsing a flow node"
  | .blockCollection => "while parsing a block collection"
  | .blockMapping => "while parsing a block mapping"
  | .flowSequence => "while parsing a flow sequence"
  | .flowMapping => "while parsing a flow mapping"

/-- A fault: the problem, its point, and the activity with the point where that began. -/
structure Fault where
  stage : Stage
  problem : Problem
  mark : Mark
  context : Option (Activity × Mark) := none

namespace Fault

/-- Whether two points are shown alike. -/
def sameLineColumn (a b : Mark) : Bool := a.line == b.line && a.column == b.column

/-- A point, or for a character that is not allowed its byte offset. -/
def place (f : Fault) : String :=
  match f.stage with
  | .characters => if f.mark.index = 0 then "" else " at position " ++ toString f.mark.index
  | _ => if f.mark.isStart then "" else " at " ++ f.mark.describe

/-- The message for a fault. -/
def message (f : Fault) : String :=
  f.problem.message ++ f.place ++
    match f.context with
    | none => ""
    | some (activity, m) =>
      ", " ++ activity.message ++
        if m.isStart || sameLineColumn m f.mark then "" else " at " ++ m.describe

/-- A point, spelled out. -/
def debugMark (m : Mark) : String :=
  "Mark \x7b line: " ++ toString (m.line + 1) ++ ", column: " ++ toString (m.column + 1) ++ " \x7d"

/-- The stage, spelled out. -/
def debugStage : Stage → String
  | .characters => "READER"
  | .tokens => "SCANNER"
  | .nodes => "PARSER"

/-- The parts of a fault, spelled out. -/
def debug (f : Fault) : String :=
  let place := match f.stage with
    | .characters =>
      if f.mark.index = 0 then [] else ["problem_offset: " ++ toString f.mark.index]
    | _ => if f.mark.isStart then [] else ["problem_mark: " ++ debugMark f.mark]
  let context := match f.context with
    | none => []
    | some (activity, m) =>
      ("context: " ++ Text.quoted activity.message) ::
        if m.isStart then [] else ["context_mark: " ++ debugMark m]
  "Error \x7b " ++ String.intercalate ", " (["kind: " ++ debugStage f.stage,
    "problem: " ++ Text.quoted f.problem.message] ++ place ++ context) ++ " \x7d"

end Fault

end ApiSurface.Yaml
