/-
The help and the version that the program prints.
-/
import ApiSurface.CommandLine.Arguments

namespace ApiSurface.CommandLine

/-- The name and the number of the version. -/
def versionText : String := "declgen-cli 0.1.0\n"

/-- What the program is. -/
def about : String := "Declaration generator model tools"

/-- How an option's variable and its value are shown. -/
def variableNote (environment : Environment) (o : Opt) : String :=
  match o.environmentName? with
  | none => ""
  | some name => " [env: " ++ name ++ "=" ++ (environment.lookup name).getD "" ++ "]"

/-- The text for a topic. -/
def helpText (environment : Environment) : Topic → String
  | .program =>
    about ++ "\n\nUsage: declgen <COMMAND>\n\nCommands:\n" ++
    "  enrich  Append `@deprecated` notices to nodes derived from deprecated constructs\n" ++
    "  help    Print this message or the help of the given subcommand(s)\n\nOptions:\n" ++
    "  -h, --help     Print help\n  -V, --version  Print version\n"
  | .enrich =>
    "Append `@deprecated` notices to nodes derived from deprecated constructs\n\n" ++
    "Usage: declgen enrich [OPTIONS] --input <INPUT>\n\nOptions:\n" ++
    "      --input <INPUT>    Path to the model document (`.json`, `.yaml` or `.yml`)" ++
    variableNote environment .input ++ "\n" ++
    "      --output <OUTPUT>  Where to write the enriched model. Defaults to stdout\n" ++
    "      --format <FORMAT>  Document format. Inferred from the input extension when omitted" ++
    variableNote environment .format ++ "\n" ++
    "  -h, --help             Print help\n"
  | .help =>
    "Print this message or the help of the given subcommand(s)\n\n" ++
    "Usage: declgen help [COMMAND]...\n\nArguments:\n" ++
    "  [COMMAND]...  Print help for the subcommand(s)\n"

end ApiSurface.CommandLine
