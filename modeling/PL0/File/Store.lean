/-!
Access to files. A program that reads and writes files is written against `FileStore`, so that it
runs on the files of a machine as well as on a value of type `Disk`.
-/

namespace PL0

inductive FileError where
  | missing
  | notDirectory
  | isDirectory
  /-- A path, or a name in it, has too many bytes. -/
  | tooLong
  | containsNul
  | notText
  /-- Another answer of the operating system. -/
  | system (description : String)
  deriving DecidableEq, Repr

def FileError.message : FileError → String
  | missing => "No such file or directory (os error 2)"
  | notDirectory => "Not a directory (os error 20)"
  | isDirectory => "Is a directory (os error 21)"
  | tooLong => "File name too long (os error 36)"
  | containsNul => "file name contained an unexpected NUL byte"
  | notText => "stream did not contain valid UTF-8"
  | system description => description

class FileStore (m : Type → Type) where
  read (path : String) : m (Except FileError ByteArray)
  /-- Makes the file hold the given bytes, whether there was one or not. -/
  write (path : String) (content : ByteArray) : m (Except FileError Unit)

namespace FileStore

variable {m : Type → Type} [Monad m] [FileStore m]

def readText (path : String) : m (Except FileError String) := do
  match ← read path with
  | .error error => return .error error
  | .ok content =>
    match String.fromUTF8? content with
    | some text => return .ok text
    | none => return .error .notText

def writeText (path : String) (text : String) : m (Except FileError Unit) :=
  write path text.toUTF8

end FileStore
end PL0
