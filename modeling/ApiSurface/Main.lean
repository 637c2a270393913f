/-
The program: a run on the files of the machine.
-/
import ApiSurface.CommandLine.Run

namespace ApiSurface

/-- The failure with a number of the machine's system. -/
def IoError.ofCode (code : UInt32) (otherwise : String) : IoError :=
  match SystemError.all.find? fun e => e.code = code.toNat with
  | some e => .system e
  | none => .other otherwise

/-- A failure of the machine's file system. -/
def IoError.ofMachine (e : IO.Error) : IoError :=
  match e with
  | .noFileOrDirectory _ code _ => ofCode code (toString e)
  | .alreadyExists _ code _ => ofCode code (toString e)
  | .inappropriateType _ code _ => ofCode code (toString e)
  | .invalidArgument _ code _ => ofCode code (toString e)
  | .illegalOperation code _ => ofCode code (toString e)
  | _ => .other (toString e)

/-- Runs an action on files and keeps its failure as a value. -/
def caught {α : Type} (action : IO α) : IO (Except IoError α) := do
  match ← action.toBaseIO with
  | .ok a => return .ok a
  | .error e => return .error (.ofMachine e)

/-- The operations on the files of the machine. -/
def machine : CommandLine.FileSystem IO where
  isPresent path := do return (← (IO.FS.realPath path).toBaseIO).toBool
  read path := do
    match ← caught (IO.FS.readBinFile path) with
    | .error e => return .error e
    | .ok bytes => return match String.fromUTF8? bytes with
      | some text => .ok text
      | none => .error .notText
  save path content := caught do
    match (FilePath.ofText path).parent? with
    | some parent => if !parent.isEmpty then IO.FS.createDirAll parent.text
    | none => pure ()
    IO.FS.writeFile path content

end ApiSurface

/-- Runs the program and gives its exit code. -/
def main (arguments : List String) : IO UInt32 := do
  let names := ["DECLGEN_INPUT", "DECLGEN_FORMAT", ApiSurface.CommandLine.logVariable]
  let environment ← names.filterMapM fun name => do
    return (← IO.getEnv name).map fun value => (name, value)
  let ending ← ApiSurface.CommandLine.run ApiSurface.machine environment arguments
  IO.print ending.output
  for line in ending.errorLines do IO.eprintln line
  return ending.code.toUInt32
