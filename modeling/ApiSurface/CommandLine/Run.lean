/-
A run of the program.

`execute` is the command itself: it reads a model, enriches it and writes it, on any file system
that has the three operations of `FileSystem`. `run` adds the command line around it. Assumed of the
machine: the output and the error output take all that is printed.
-/
import ApiSurface.Codec
import ApiSurface.CommandLine.Help
import ApiSurface.CommandLine.Log
import ApiSurface.Pass

namespace ApiSurface.CommandLine

/-- What the program does with files. -/
structure FileSystem (m : Type → Type) where
  /-- Whether something is at a path. -/
  isPresent : String → m Bool
  /-- Reads a file as text. -/
  read : String → m (Except IoError String)
  /-- Makes the directories around a file and writes it. -/
  save : String → String → m (Except IoError Unit)

/-- The operations on a file tree, with files saved on a device. -/
def deviceSystem (d : Device) : FileSystem (StateM FileTree) where
  isPresent path := fun t => (t.isPresent path, t)
  read path := fun t => (t.readText path, t)
  save path content := fun t => t.save d path content

/-- The operations on a file tree, when nothing goes wrong with the device. -/
abbrev treeSystem : FileSystem (StateM FileTree) := deviceSystem .reliable

/-- What a command did: its log, its output and how it ended. -/
structure Report where
  log : List LogEntry := []
  output : String := ""
  result : Except Error Unit := .ok ()

/-- The language of the document: the one that is given, or else that of the input. -/
def EnrichArguments.chosenFormat (a : EnrichArguments) : Except Error Format :=
  match a.format with
  | some f => .ok f
  | none => Format.ofPath a.input

/-- The log of an enrichment. -/
def enrichmentLog (before : Model) (t : Traced Model) : List LogEntry :=
  t.events.map .enrichment ++
    [.summary Pass.deprecation.name (t.value.documented - before.documented) t.value.documented]

/-- Reads a model, enriches it, and writes it to a file or to the output. -/
def execute {m : Type → Type} [Monad m] (fs : FileSystem m) (a : EnrichArguments) : m Report := do
  if !(← fs.isPresent a.input) then
    return { result := .error (.general ("Model file not found: " ++ Text.quoted a.input)) }
  match a.chosenFormat with
  | .error e => return { result := .error e }
  | .ok format =>
    match ← fs.read a.input with
    | .error e => return { result := .error (.io e) }
    | .ok text =>
      let parsed := Model.shape.parse format text
      let log := List.replicate parsed.ignored .ignoredDetail
      match parsed.result with
      | .error e => return { log, result := .error e }
      | .ok model =>
        let enriched := model.traceEnrich
        let log := log ++ enrichmentLog model enriched
        let document := enriched.value.render format
        match a.output with
        | none => return { log, output := document ++ "\n" }
        | some path =>
          match ← fs.save path document with
          | .error e => return { log, result := .error (.io e) }
          | .ok () => return { log := log ++ [.written path] }

/-- The end of a run: the exit code, the output, and the lines of the error output. -/
structure Ending where
  code : Nat := 0
  output : String := ""
  errorLines : List String := []

/-- The name of the variable that filters the log. -/
def logVariable : String := "RUST_LOG"

/-- The ending of a command. -/
def Report.ending (r : Report) (filter : LogFilter) : Ending :=
  let lines := (r.log.filter filter.shows).map LogEntry.line
  match r.result with
  | .ok () => { output := r.output, errorLines := lines }
  | .error e => { code := 1, output := r.output, errorLines := lines ++ ["Error: " ++ e.debug] }

/-- Runs the program with arguments. -/
def run {m : Type → Type} [Monad m] (fs : FileSystem m) (environment : Environment)
    (arguments : List String) : m Ending := do
  match parse environment arguments with
  | .enrich a =>
    return (← execute fs a).ending (.ofVariable (environment.lookup logVariable))
  | .help topic => return { output := helpText environment topic }
  | .version => return { output := versionText }
  | .nothing => return { code := 2, errorLines := [helpText environment .program] }
  | .misuse misuse =>
    return { code := 2, errorLines := ["error: " ++ misuse.message, "",
      "For more information, try '--help'."] }

end ApiSurface.CommandLine
