import PL0.CommandLine.Run

/-!
The program as a process: from its arguments to its exit status and its output.
-/

namespace PL0

structure ProcessResult where
  status : Nat
  stdout : String
  stderr : String
  deriving DecidableEq, Repr

def helpText : String :=
  "Usage: pl0c [OPTIONS] [INPUT]\n\n"
    ++ "Arguments:\n"
    ++ "  [INPUT]                the token records [default: tokens.txt]\n\n"
    ++ "Options:\n"
    ++ "  -o, --output <OUTPUT>  where the code goes [default: elf.txt]\n"
    ++ "  -c, --config <CONFIG>  the limits, as JSON\n"
    ++ "      --listing          print the code and the symbols\n"
    ++ "      --json             write the compiled program as JSON too\n"
    ++ "  -v, --verbose          report what the compiler does\n"
    ++ "  -h, --help             print this help\n"
    ++ "  -V, --version          print the version\n"

def versionText : String := "pl0c 0.1.0\n"

def Usage.message : Usage → String
  | unknownArgument => "error: unexpected argument"
  | invalidValue => "error: a value is required"
  | repeatedArgument => "error: an argument cannot be used multiple times"
  | unexpectedValue => "error: unexpected value for a flag"
  | help => "help"
  | version => "version"

/-- The events as lines; without `verbose` only those that are warnings. -/
def Options.eventText (options : Options) (events : List Event) : String :=
  let severity : Severity := if options.verbose then .debug else .warn
  String.join ((events.filter (·.reaches severity)).map fun event => event.message ++ "\n")

def execute {m : Type → Type} [Monad m] [FileStore m] (arguments : List String) :
    m ProcessResult := do
  match Options.ofArguments arguments with
  | .error .help => return ⟨0, helpText, ""⟩
  | .error .version => return ⟨0, versionText, ""⟩
  | .error usage => return ⟨2, "", usage.message ++ "\n\n" ++ helpText⟩
  | .ok options =>
    let outcome ← options.run
    let events := options.eventText outcome.events
    match outcome.result with
    | .ok _ => return ⟨0, outcome.printed, events⟩
    | .error error => return ⟨1, outcome.printed, events ++ error.message ++ "\n"⟩

end PL0
