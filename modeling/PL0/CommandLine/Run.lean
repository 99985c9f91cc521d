import PL0.CommandLine.Options
import PL0.Compile
import PL0.File.Store
import PL0.Limits.Reader
import PL0.Target.Dump
import PL0.Target.Listing
import PL0.Token.Record

/-!
What the program does with its options: read the limits and the token records, compile, and write
the code. If reading or compiling fails, the output file holds the error instead, so that no code of
an earlier run is left there.
-/

namespace PL0

inductive RunError where
  | reading (path : String) (cause : FileError)
  | limits (path : String) (cause : Limits.ReadError)
  | records (path : String) (cause : RecordError)
  | compiling (cause : CompileError)
  | writing (path : String) (cause : FileError)
  | creating (path : String) (cause : FileError)
  deriving DecidableEq, Repr

def RunError.message : RunError → String
  | reading path cause => "Reading " ++ path ++ ": " ++ cause.message
  | limits path cause => "Parsing config " ++ path ++ ": " ++ cause.message
  | records path cause => "Parsing token records in " ++ path ++ ": " ++ cause.message
  | compiling cause => cause.message
  | writing path cause => "Writing " ++ path ++ ": " ++ cause.message
  | creating path cause => "Creating " ++ path ++ ": " ++ cause.message

/-- What the output file holds in place of code. -/
def errorText (message : String) : String :=
  message ++ "\n"

/-- What a run gives: its result, what it prints, and the events on the way. -/
structure Outcome where
  result : Except RunError TargetProgram
  printed : String
  events : List Event

/-- A path with the part of its last name behind the last dot replaced. A name without a dot, or
with none but at its beginning, gets the new part appended. If only `..` is left of a name, that is
no name of a file, and nothing is put behind it. -/
def withExtension (path extension : String) : String :=
  let backwards := path.toList.reverse
  let name := backwards.takeWhile (· ≠ '/')
  let directory := (backwards.drop name.length).reverse
  match (name.dropWhile (· ≠ '.')).reverse with
  | [] | ['.'] => path ++ "." ++ extension
  | ['.', '.'] => String.ofList (directory ++ ['.', '.'])
  | kept => String.ofList (directory ++ kept ++ extension.toList)

namespace Options

variable {m : Type → Type} [Monad m] [FileStore m]

def readLimits (options : Options) : m (Except RunError Limits) := do
  match options.config with
  | none => return .ok {}
  | some path =>
    match ← FileStore.readText path with
    | .error cause => return .error (.reading path cause)
    | .ok text => return (Limits.ofJson text).mapError (.limits path)

/-- Compiles the input file. -/
def compileInput (options : Options) (limits : Limits) :
    m (Except RunError TargetProgram × List Event) := do
  match ← FileStore.readText options.input with
  | .error cause => return (.error (.reading options.input cause), [])
  | .ok text =>
    match Token.ofRecords text with
    | .error cause => return (.error (.records options.input cause), [])
    | .ok tokens =>
      let report := compile tokens limits
      return (report.result.mapError .compiling,
        .loaded tokens.length options.input :: report.events)

/-- Writes the dump, if it is asked for. -/
def writeDump (options : Options) (program : TargetProgram) : m (Except RunError Unit) := do
  if options.json then
    let path := withExtension options.output "json"
    return (← FileStore.writeText path program.dump).mapError (.creating path)
  else return .ok ()

/-- Writes the code of a program, or the error in its place. -/
def writeResult (options : Options) (result : Except RunError TargetProgram) :
    m (Except RunError TargetProgram) := do
  match result with
  | .error error =>
    match ← FileStore.writeText options.output (errorText error.message) with
    | .error cause => return .error (.writing options.output cause)
    | .ok () => return .error error
  | .ok program =>
    match ← FileStore.writeText options.output program.codeText with
    | .error cause => return .error (.writing options.output cause)
    | .ok () =>
      match ← options.writeDump program with
      | .error error => return .error error
      | .ok () => return .ok program

def run (options : Options) : m Outcome := do
  match ← options.readLimits with
  | .error error => return ⟨.error error, "", []⟩
  | .ok limits =>
    let (result, events) ← options.compileInput limits
    match ← options.writeResult result with
    | .error error => return ⟨.error error, "", events⟩
    | .ok program => return ⟨.ok program, if options.listing then program.listing else "", events⟩

end Options
end PL0
