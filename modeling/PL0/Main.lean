import PL0.CommandLine.Process

/-!
The command line program.
-/

namespace PL0

/-- What the operating system answered. A code of it can arrive with its sign reversed. -/
def FileError.ofSystem (error : IO.Error) : FileError :=
  match error with
  | .noFileOrDirectory .. => .missing
  | .inappropriateType _ code _ =>
    if code = 20 ∨ - code = 20 then .notDirectory
    else if code = 21 ∨ - code = 21 then .isDirectory
    else .system (toString error)
  | .invalidArgument _ code _ =>
    if code = 36 ∨ - code = 36 then .tooLong else .system (toString error)
  | _ => .system (toString error)

instance : FileStore IO where
  read path := do
    try return .ok (← IO.FS.readBinFile path)
    catch error => return .error (.ofSystem error)
  write path content := do
    try return .ok (← IO.FS.writeBinFile path content)
    catch error => return .error (.ofSystem error)

end PL0

def main (arguments : List String) : IO UInt32 := do
  let result ← PL0.execute arguments
  IO.print result.stdout
  IO.eprint result.stderr
  return result.status.toUInt32
