/-
The log of a run, and the filter that says which of its entries are shown.
-/
import ApiSurface.Enrichment
import ApiSurface.Text.Digits
import ApiSurface.Text.Quoted

namespace ApiSurface.CommandLine

/-- What is logged. -/
inductive LogEntry where
  /-- A detail of a marker had a form that is not supported. -/
  | ignoredDetail
  | enrichment (event : EnrichmentEvent)
  | summary (pass : String) (added total : Nat)
  | written (path : String)

/-- How important an entry is. -/
inductive Level where
  | error
  | warn
  | info
  | debug
  | trace
  deriving DecidableEq

namespace Level

/-- The name of a level. -/
def name : Level → String
  | .error => "ERROR"
  | .warn => "WARN"
  | .info => "INFO"
  | .debug => "DEBUG"
  | .trace => "TRACE"

/-- The place of a level; the entries of higher ones are less important. -/
def rank : Level → Nat
  | .error => 1
  | .warn => 2
  | .info => 3
  | .debug => 4
  | .trace => 5

end Level

namespace LogEntry

/-- The level of an entry. -/
def level : LogEntry → Level
  | .ignoredDetail => .debug
  | .enrichment (.noticeAdded _ _) => .debug
  | .enrichment (.alreadyDocumented _) => .trace
  | .summary _ _ _ => .info
  | .written _ => .info

/-- The part of the program that an entry comes from. -/
def target : LogEntry → String
  | .ignoredDetail => "declgen_core::deprecation"
  | .enrichment _ => "declgen_core::enricher"
  | .summary _ _ _ => "declgen::enrich"
  | .written _ => "declgen::enrich"

/-- The words of an entry. -/
def text : LogEntry → String
  | .ignoredDetail => "ignoring deprecation marker field of unsupported shape"
  | .enrichment (.noticeAdded origin notice) =>
    "appending deprecation notice origin=" ++ origin ++ " notice=" ++ notice
  | .enrichment (.alreadyDocumented origin) =>
    "already documented as deprecated origin=" ++ origin
  | .summary pass added total =>
    "deprecation notices applied pass=" ++ Text.quoted pass ++ " added=" ++ toString added
      ++ " total=" ++ toString total
  | .written path => "Enriched model written to " ++ Text.quoted path

/-- The line of an entry. -/
def line (e : LogEntry) : String := e.level.name ++ " " ++ e.target ++ ": " ++ e.text

end LogEntry

/-- Shows entries up to a rank, of the targets that start in a certain way. -/
structure Directive where
  target : Option String := none
  rank : Nat
  deriving DecidableEq

namespace Directive

/-- The rank that a name or a digit stands for. -/
def rankOf? (s : String) : Option Nat :=
  let digits := match s.toList with
    | '+' :: r => r
    | r => r
  let number := Text.decimal 0 digits
  if !digits.isEmpty && digits.all Char.isDigit && number ≤ 5 then some number
  else [("", 1), ("error", 1), ("warn", 2), ("info", 3), ("debug", 4), ("trace", 5),
    ("off", 0)].lookup s.toLower

/-- The rank that shows every entry. -/
def everything : Nat := 5

/-- Whether a directive may start with a character. -/
def mayStart (c : Char) : Bool :=
  c == '-' || c == ':' || c == '_' || c.isAlphanum || 0x80 ≤ c.toNat

/-- Reads a directive: a rank, a target, or both. A directive for a span of time is none. -/
def parse (s : String) : Except Unit (Option Directive) :=
  let blank (c : Char) := c.isWhitespace
  let trimmed := ((s.toList.dropWhile blank).reverse.dropWhile blank).reverse
  match trimmed with
  | [] => .error ()
  | c :: _ =>
    if trimmed.contains '[' then
      if c = '[' ∨ mayStart c then .ok none else .error ()
    else if !mayStart c then .error ()
    else
      let target := trimmed.takeWhile (· ≠ '=')
      match trimmed.drop target.length with
      | [] =>
        match rankOf? s with
        | some rank => .ok (some { rank })
        | none => .ok (some { target := some s, rank := everything })
      | _ :: _ =>
        let level := s.toList.drop (target.length + 1)
        let target := some (String.ofList (s.toList.take target.length))
        if level.isEmpty then .ok (some { target, rank := everything })
        else match rankOf? (String.ofList level) with
          | some rank => .ok (some { target, rank })
          | none => .error ()

/-- Whether a directive is about a target. -/
def covers (d : Directive) (target : String) : Bool :=
  d.target.all fun t => t.toList.isPrefixOf target.toList

/-- The length of the start of a target that a directive asks for. -/
def precision (d : Directive) : Nat := d.target.elim 0 (·.utf8ByteSize + 1)

end Directive

/-- A filter for log entries. -/
structure LogFilter where
  directives : List Directive

namespace LogFilter

/-- Shows entries up to a rank. -/
def upTo (rank : Nat) : LogFilter := ⟨[{ rank }]⟩

/-- What is shown when nothing else is asked for. -/
def standard : LogFilter := upTo Level.info.rank

/-- The filter that a text describes. Without a directive in it only errors are shown; a text that
makes no sense describes the standard filter. -/
def ofText (text : String) : LogFilter :=
  let parts := (text.splitOn ",").filter (!·.isEmpty)
  match parts.mapM Directive.parse with
  | .error _ => standard
  | .ok found =>
    match found.filterMap id with
    | [] => upTo Level.error.rank
    | directives => ⟨directives⟩

/-- The filter of an environment. -/
def ofVariable : Option String → LogFilter
  | none => standard
  | some text => ofText text

/-- The directive that decides about a target: the most precise one, and of these the last. -/
def decisive? (f : LogFilter) (target : String) : Option Directive :=
  f.directives.foldl (fun best d =>
    if d.covers target && best.all (·.precision ≤ d.precision) then some d else best) none

/-- Whether an entry is shown. -/
def shows (f : LogFilter) (e : LogEntry) : Bool :=
  (f.decisive? e.target).any (e.level.rank ≤ ·.rank)

end LogFilter

end ApiSurface.CommandLine
