/-
The arguments of the command line.

Arguments are read from left to right. The value of an option is checked when the next option
starts or when the arguments end, and only then are the environment and missing options looked at;
the first error in this order is the one that is reported.
-/
import ApiSurface.Error

namespace ApiSurface.CommandLine

/-- The options of the command. -/
inductive Opt where
  | input
  | output
  | format
  deriving DecidableEq

namespace Opt

/-- The name after the dashes. -/
def name : Opt → String
  | .input => "input"
  | .output => "output"
  | .format => "format"

/-- How the option is shown in messages. -/
def usage : Opt → String
  | .input => "--input <INPUT>"
  | .output => "--output <OUTPUT>"
  | .format => "--format <FORMAT>"

/-- The variable of the environment that stands in for the option. -/
def environmentName? : Opt → Option String
  | .input => some "DECLGEN_INPUT"
  | .output => none
  | .format => some "DECLGEN_FORMAT"

/-- The option with a name. -/
def named? (name : String) : Option Opt := [input, output, format].find? (·.name == name)

end Opt

/-- What the command is asked to do. -/
structure EnrichArguments where
  input : String
  output : Option String := none
  format : Option Format := none
  deriving DecidableEq

/-- A topic of the help. -/
inductive Topic where
  | program
  | enrich
  | help
  deriving DecidableEq

/-- The ways in which arguments make no sense. -/
inductive Misuse where
  | unexpectedArgument (argument : String)
  | unknownCommand (name : String)
  | missingValue (opt : Opt)
  | repeatedOption (opt : Opt)
  | badFormat (value : String) (error : Error)
  | unneededValue (value flag : String)
  | missingInput

/-- The first line of the message for a misuse. -/
def Misuse.message : Misuse → String
  | .unexpectedArgument a => "unexpected argument '" ++ a ++ "' found"
  | .unknownCommand name => "unrecognized subcommand '" ++ name ++ "'"
  | .missingValue o => "a value is required for '" ++ o.usage ++ "' but none was supplied"
  | .repeatedOption o => "the argument '" ++ o.usage ++ "' cannot be used multiple times"
  | .badFormat value e =>
    "invalid value '" ++ value ++ "' for '" ++ Opt.format.usage ++ "': " ++ e.message
  | .unneededValue value flag =>
    "unexpected value '" ++ value ++ "' for '" ++ flag ++ "' found; no more were expected"
  | .missingInput => "the following required arguments were not provided:"

/-- What the arguments ask for. -/
inductive Request where
  | enrich (arguments : EnrichArguments)
  | help (topic : Topic)
  | version
  /-- Nothing was asked for, which is answered with the help and counts as an error. -/
  | nothing
  | misuse (misuse : Misuse)

/-- The variables of the environment. -/
abbrev Environment : Type := List (String × String)

/-- Parts of the command's arguments: what is known so far, and an option whose value is not
checked yet. -/
structure Draft where
  input : Option String := none
  output : Option String := none
  format : Option Format := none
  pending : Option (Opt × Option String) := none

/-- The reasons to stop reading arguments. -/
inductive Stop where
  | help
  | misuse (misuse : Misuse)

namespace Draft

/-- Whether an option has its value. -/
def has (d : Draft) : Opt → Bool
  | .input => d.input.isSome
  | .output => d.output.isSome
  | .format => d.format.isSome

/-- Gives an option its value. -/
def set (d : Draft) (o : Opt) (value : String) : Except Misuse Draft :=
  match o with
  | .input =>
    if value.isEmpty then .error (.missingValue o) else .ok { d with input := some value }
  | .output =>
    if value.isEmpty then .error (.missingValue o) else .ok { d with output := some value }
  | .format =>
    match Format.ofName value with
    | .ok f => .ok { d with format := some f }
    | .error e => .error (.badFormat value e)

/-- Gives an option the value that stands on the command line. -/
def supply (d : Draft) (o : Opt) (value : Option String) : Except Misuse Draft :=
  match value with
  | none => .error (.missingValue o)
  | some v => if d.has o then .error (.repeatedOption o) else d.set o v

/-- Checks the option that is not checked yet. -/
def settle (d : Draft) : Except Misuse Draft :=
  match d.pending with
  | none => .ok d
  | some (o, value) => { d with pending := none }.supply o value

/-- Takes the value of a missing option from the environment. -/
def consult (environment : Environment) (d : Draft) (o : Opt) : Except Misuse Draft :=
  match if d.has o then none else o.environmentName?.bind fun name => environment.lookup name with
  | some value => d.set o value
  | none => .ok d

/-- Ends the arguments. -/
def finish (d : Draft) (environment : Environment) : Except Misuse EnrichArguments := do
  let d ← [Opt.input, .output, .format].foldlM (consult environment) (← d.settle)
  match d.input with
  | some input => return { input, output := d.output, format := d.format }
  | none => .error .missingInput

end Draft

/-- An argument by its form. -/
inductive Form where
  /-- Two dashes, after which there are no options. -/
  | escape
  | long (name : String) (value : Option String)
  | short (letter : Char)
  | word

/-- The form of an argument. -/
def formOf (argument : String) : Form :=
  match argument.toList with
  | ['-', '-'] => .escape
  | '-' :: '-' :: rest =>
    let name := rest.takeWhile (· ≠ '=')
    .long (String.ofList name) <|
      match rest.dropWhile (· ≠ '=') with
      | _ :: value => some (String.ofList value)
      | [] => none
  | '-' :: c :: _ => .short c
  | _ => .word

/-- Reads the arguments of the command. -/
def parseEnrich (environment : Environment) : List String → Draft → Except Stop EnrichArguments
  | [], d => (d.finish environment).mapError .misuse
  | a :: rest, d =>
    let unexpected (s : String) : Except Stop EnrichArguments :=
      .error (.misuse (.unexpectedArgument s))
    match formOf a with
    | .escape =>
      match rest with
      | [] => (d.finish environment).mapError .misuse
      | b :: _ => unexpected b
    | .long name value =>
      match Opt.named? name, value with
      | some o, some v => do
        let d ← (d.settle >>= fun d => d.supply o (some v)).mapError .misuse
        parseEnrich environment rest d
      | some o, none => do
        let d ← d.settle.mapError .misuse
        parseEnrich environment rest { d with pending := some (o, none) }
      | none, _ =>
        if name = "help" then
          match value with
          | some v => .error (.misuse (.unneededValue v "--help"))
          | none => do
            let _ ← d.settle.mapError .misuse
            .error .help
        else unexpected ("--" ++ name)
    | .short c =>
      if c = 'h' then do
        let _ ← d.settle.mapError .misuse
        .error .help
      else unexpected (String.ofList ['-', c])
    | .word =>
      match d.pending with
      | some (o, none) => parseEnrich environment rest { d with pending := some (o, some a) }
      | _ => unexpected a

/-- The topic that words after the help command name. -/
def parseHelp : Topic → List String → Request
  | topic, [] => .help topic
  | .program, w :: rest =>
    if w = "enrich" then parseHelp .enrich rest
    else if w = "help" then parseHelp .help rest
    else .misuse (.unknownCommand w)
  | _, w :: _ => .misuse (.unknownCommand w)

/-- Reads the arguments of the program. -/
def parse (environment : Environment) : List String → Request
  | [] => .nothing
  | a :: rest =>
    if a = "enrich" then
      match parseEnrich environment rest {} with
      | .ok arguments => .enrich arguments
      | .error .help => .help .enrich
      | .error (.misuse m) => .misuse m
    else if a = "help" then parseHelp .program rest
    else match formOf a with
      | .escape =>
        match rest with
        | [] => .nothing
        | b :: _ =>
          .misuse (if b = "enrich" ∨ b = "help" then .unexpectedArgument b else .unknownCommand b)
      | .long name value =>
        match name, value with
        | "help", none => .help .program
        | "version", none => .version
        | "help", some v => .misuse (.unneededValue v "--help")
        | "version", some v => .misuse (.unneededValue v "--version")
        | _, _ => .misuse (.unexpectedArgument ("--" ++ name))
      | .short c =>
        if c = 'h' then .help .program
        else if c = 'V' then .version
        else .misuse (.unexpectedArgument (String.ofList ['-', c]))
      | .word => .misuse (.unknownCommand a)

end ApiSurface.CommandLine
