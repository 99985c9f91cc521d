/-!
The command line. Options and flags stand in any order with at most one input path between them;
behind `--` everything is a path. Arguments are judged from left to right, but a value that stands
in an argument of its own is judged only when the next option, flag or path is taken or the line
ends: an argument that is unknown, or a flag that is given a value, is reported before it.
-/

namespace PL0

structure Options where
  input : String := "tokens.txt"
  output : String := "elf.txt"
  config : Option String := none
  listing : Bool := false
  json : Bool := false
  verbose : Bool := false
  deriving DecidableEq, Repr

/-- Why a command line gives no options. Asking for help or for the version is one reason. -/
inductive Usage where
  | unknownArgument
  | invalidValue
  | repeatedArgument
  | unexpectedValue
  | help
  | version
  deriving DecidableEq, Repr

inductive Flag where
  | listing | json | verbose | help | version
  deriving DecidableEq, Repr

/-- What takes a value. The input path is given without a name. -/
inductive Setting where
  | input | output | config
  deriving DecidableEq, Repr

inductive Switch where
  | flag (flag : Flag)
  | setting (setting : Setting)
  deriving DecidableEq, Repr

namespace Switch

def ofName? : String → Option Switch
  | "output" => some (setting .output)
  | "config" => some (setting .config)
  | "listing" => some (flag .listing)
  | "json" => some (flag .json)
  | "verbose" => some (flag .verbose)
  | "help" => some (flag .help)
  | "version" => some (flag .version)
  | _ => none

def ofLetter? : Char → Option Switch
  | 'o' => some (setting .output)
  | 'c' => some (setting .config)
  | 'v' => some (flag .verbose)
  | 'h' => some (flag .help)
  | 'V' => some (flag .version)
  | _ => none

end Switch

namespace Options

/-- What has been read of a command line. -/
structure Reading where
  options : Options := {}
  /-- The settings and flags that were given. -/
  given : List Switch := []
  /-- A setting that is not judged yet, with its value if that was met. -/
  pending : Option (Setting × Option String) := none
  /-- Whether the input path was met. -/
  inputMet : Bool := false
  /-- Whether `--` was met. -/
  onlyPaths : Bool := false
  deriving DecidableEq, Repr

namespace Reading

def put (r : Reading) (setting : Setting) (value : String) : Options :=
  match setting with
  | .input => { r.options with input := value }
  | .output => { r.options with output := value }
  | .config => { r.options with config := some value }

/-- Judges the value of a setting: there must be one, it must be the first, and not empty. -/
def assign (r : Reading) (setting : Setting) (value : Option String) : Except Usage Reading :=
  match value with
  | none => .error .invalidValue
  | some value =>
    if .setting setting ∈ r.given then .error .repeatedArgument
    else if value.isEmpty then .error .invalidValue
    else .ok { r with options := r.put setting value, given := .setting setting :: r.given }

/-- Judges the setting that is still to be judged. -/
def settle (r : Reading) : Except Usage Reading :=
  match r.pending with
  | none => .ok r
  | some (setting, value) => { r with pending := none }.assign setting value

def raise (r : Reading) (flag : Flag) : Except Usage Reading := do
  let r ← r.settle
  if .flag flag ∈ r.given then throw .repeatedArgument
  let r := { r with given := .flag flag :: r.given }
  match flag with
  | .help => throw .help
  | .version => throw .version
  | .listing => return { r with options := { r.options with listing := true } }
  | .json => return { r with options := { r.options with json := true } }
  | .verbose => return { r with options := { r.options with verbose := true } }

/-- Takes a setting whose value is in the same argument. -/
def takeValue (r : Reading) (setting : Setting) (value : List Char) : Except Usage Reading := do
  let r ← r.settle
  r.assign setting (some (String.ofList value))

/-- Takes a setting whose value has to follow. -/
def await (r : Reading) (setting : Setting) : Except Usage Reading := do
  let r ← r.settle
  return { r with pending := some (setting, none) }

def takePath (r : Reading) (path : String) : Except Usage Reading := do
  if r.inputMet then throw .unknownArgument
  let r ← r.settle
  return { r with pending := some (.input, some path), inputMet := true }

/-- Takes what stands behind two dashes. -/
def takeLong (r : Reading) (text : List Char) : Except Usage Reading :=
  let name := text.takeWhile (· ≠ '=')
  match Switch.ofName? (String.ofList name), text.drop name.length with
  | none, _ => .error .unknownArgument
  | some (.flag flag), [] => r.raise flag
  | some (.flag _), _ => .error .unexpectedValue
  | some (.setting setting), [] => r.await setting
  | some (.setting setting), _ :: value => r.takeValue setting value

/-- Takes the letters behind one dash. The first that needs a value takes the rest for it. -/
def takeLetters (r : Reading) : List Char → Except Usage Reading
  | [] => .ok r
  | letter :: letters =>
    match Switch.ofLetter? letter, letters with
    | none, _ => .error .unknownArgument
    | some (.flag flag), letters => do (← r.raise flag).takeLetters letters
    | some (.setting setting), [] => r.await setting
    | some (.setting setting), '=' :: value => r.takeValue setting value
    | some (.setting setting), value => r.takeValue setting value

def take (r : Reading) (argument : String) : Except Usage Reading :=
  if r.onlyPaths then r.takePath argument
  else
    match argument.toList with
    | ['-', '-'] => .ok { r with onlyPaths := true }
    | '-' :: '-' :: text => r.takeLong text
    | '-' :: letter :: letters => r.takeLetters (letter :: letters)
    | _ =>
      match r.pending with
      | some (setting, none) => .ok { r with pending := some (setting, some argument) }
      | _ => r.takePath argument

end Reading

/-- The options that a command line gives. -/
def ofArguments (arguments : List String) : Except Usage Options := do
  let r ← arguments.foldlM Reading.take {}
  let r ← r.settle
  return r.options

end Options
end PL0
