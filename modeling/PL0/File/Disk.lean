import PL0.File.Store

/-!
A tree of directories and files as a value. A path is walked name by name, from the root if it
begins with a slash and from the working directory if not: every name but the last has to be that of
a directory, `.` stays, and `..` goes up as long as that is possible.
-/

namespace PL0

/-- A place in the tree: the names on the way to it from the root. -/
abbrev Place := List String

inductive Node where
  | directory
  | file (content : ByteArray)

instance : DecidableEq Node
  | .directory, .directory => isTrue rfl
  | .directory, .file _ | .file _, .directory => isFalse nofun
  | .file x, .file y => decidable_of_iff (x.data = y.data) (by simp [ByteArray.ext_iff])

structure Disk where
  entries : List (Place × Node)
  /-- The place of the working directory. -/
  home : Place
  deriving DecidableEq

namespace Disk

/-- A disk with a working directory and nothing else. -/
def empty : Disk := ⟨[(["home"], .directory)], ["home"]⟩

def node? (disk : Disk) (place : Place) : Option Node :=
  if place.isEmpty then some .directory else disk.entries.lookup place

def put (disk : Disk) (place : Place) (node : Node) : Disk :=
  { disk with entries := (place, node) :: disk.entries.filter (·.1 ≠ place) }

/-- Fails unless there is a directory at the place. -/
def enter (disk : Disk) (place : Place) : Except FileError Unit :=
  match disk.node? place with
  | none => .error .missing
  | some (.file _) => .error .notDirectory
  | some .directory => .ok ()

/-- The most bytes that a name can have. -/
def maxNameSize : Nat := 255

/-- The most bytes that a path can have. -/
def maxPathSize : Nat := 4095

def checkName (name : String) : Except FileError Unit :=
  if maxNameSize < name.utf8ByteSize then .error .tooLong else .ok ()

/-- Refuses what is no path at all; the files do not matter for that. -/
def checkPath (path : String) : Except FileError Unit :=
  if '\x00' ∈ path.toList then .error .containsNul
  else if path = "" then .error .missing
  else if maxPathSize < path.utf8ByteSize then .error .tooLong
  else .ok ()

def walk (disk : Disk) (place : Place) : List String → Except FileError Place
  | [] => .ok place
  | name :: names =>
    match disk.enter place with
    | .error error => .error error
    | .ok () =>
      if name = "" ∨ name = "." then disk.walk place names
      else if name = ".." then disk.walk place.dropLast names
      else
        match checkName name with
        | .error error => .error error
        | .ok () => disk.walk (place ++ [name]) names

/-- The names between the slashes of a path. -/
def names (path : String) : List String :=
  (path.toList.splitOn '/').map String.ofList

/-- Where the walk along a path starts. -/
def start (disk : Disk) (path : String) : Place :=
  if path.toList.head? = some '/' then [] else disk.home

def read (disk : Disk) (path : String) : Except FileError ByteArray := do
  checkPath path
  let place ← disk.walk (disk.start path) (names path)
  match disk.node? place with
  | none => throw .missing
  | some .directory => throw .isDirectory
  | some (.file content) => return content

/-- The place that a file with the given path has, or would have. A path that can only be that of a
directory is refused. -/
def filePlace (disk : Disk) (path : String) : Except FileError Place := do
  checkPath path
  let backwards := (names path).reverse
  match backwards.dropWhile (· == "") with
  | [] => throw .isDirectory
  | name :: above =>
    let directory ← disk.walk (disk.start path) above.reverse
    disk.enter directory
    if backwards.head? = some "" ∨ name = "." ∨ name = ".." then throw .isDirectory
    checkName name
    match disk.node? (directory ++ [name]) with
    | some .directory => throw .isDirectory
    | _ => return directory ++ [name]

def write (disk : Disk) (path : String) (content : ByteArray) : Except FileError Disk :=
  (disk.filePlace path).map fun place => disk.put place (.file content)

/-- Puts a directory at a place and at all places on the way to it. -/
def addDirectory (disk : Disk) (place : Place) : Disk :=
  (List.range place.length).foldl (fun disk n => disk.put (place.take (n + 1)) .directory) disk

/-- Puts a file at a place, and directories on the way to it. -/
def addFile (disk : Disk) (place : Place) (content : ByteArray) : Disk :=
  (disk.addDirectory place.dropLast).put place (.file content)

/-- The files below the working directory, with their paths from there. -/
def files (disk : Disk) : List (String × ByteArray) :=
  disk.entries.filterMap fun (place, node) =>
    match node with
    | .file content =>
      if disk.home.isPrefixOf place then
        some ("/".intercalate (place.drop disk.home.length), content)
      else none
    | .directory => none

instance : FileStore (StateM Disk) where
  read path := do return (← get).read path
  write path content := do
    match (← get).write path content with
    | .error error => return .error error
    | .ok disk =>
      set disk
      return .ok ()

end Disk
end PL0
