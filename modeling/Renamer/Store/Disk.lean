import Renamer.Store.Basic
import Renamer.Table
import Renamer.Text.Split

/-!
# A disk

What a map file is kept on: directories and files below a top directory.

* A *location* is the list of names that lead from the top directory to a file or directory, and
  belongs to that one alone.
* A *path* is how a location is written. Many paths lead to one location: a slash may be doubled, a
  lone dot is the directory one is in, and two dots are the directory above it. A path is walked
  name by name, and every name but the last must be that of a directory, also where two dots
  follow it.
* A path that ends in a slash asks for a directory. The empty path is that of the top directory.

Looking at a path and writing to it find the location in the same way and differ in what they make
of it. Where nothing is, a look fails and a file can be written.
-/

namespace Renamer

/-- What is found at a location. -/
inductive DiskEntry where
  | file (bytes : ByteArray)
  | directory

instance : DecidableEq DiskEntry
  | .file a, .file b =>
    decidable_of_iff (a.data.toList = b.data.toList)
      ⟨fun h => congrArg DiskEntry.file (ByteArray.ext (Array.toList_inj.mp h)),
        fun h => congrArg (fun e => e.data.toList) (DiskEntry.file.inj h)⟩
  | .file _, .directory => isFalse fun h => DiskEntry.noConfusion h
  | .directory, .file _ => isFalse fun h => DiskEntry.noConfusion h
  | .directory, .directory => isTrue rfl

/-- The names that lead to a file or directory from the top directory. Above the top directory
are directories whose only name is two dots. -/
abbrev Location := List String

/-- The files and directories below the top directory. -/
structure Disk where
  /-- By location. -/
  entries : Table Location DiskEntry := {}
  deriving DecidableEq, Inhabited

/-! ## Locations -/

namespace Location

/-- The top directory or one above it. -/
def isTop (l : Location) : Bool := l.all fun name => name == ".."

/-- The directory that a directory is in. -/
def above (l : Location) : Location := if l.isTop then l ++ [".."] else l.dropLast

end Location

namespace Disk

/-! ## Paths -/

/-- The names on a path. -/
def namesOf (path : String) : List String := Text.segments '/' path

/-- The path asks for a directory. -/
def endsInSlash (path : String) : Bool := path.toList.getLast?.getD '/' == '/'

/-- The name is short for the directory one is in, or for the one above it. -/
def isDots (name : String) : Bool := name == "." || name == ".."

/-- What is at a location. -/
def entryAt (d : Disk) (l : Location) : Option DiskEntry :=
  if l.isTop then some .directory else d.entries.get? l

/-- The directory with the name `name` in the directory at `l`. -/
def enter (d : Disk) (l : Location) (name : String) : Except FileFault Location :=
  if name = "." then .ok l
  else if name = ".." then .ok l.above
  else match d.entryAt (l ++ [name]) with
    | some .directory => .ok (l ++ [name])
    | some (.file _) => .error .notDirectory
    | none => .error .notFound

/-- The directory that names lead to from the top directory. -/
def walk (d : Disk) (names : List String) : Except FileFault Location := names.foldlM d.enter []

/-- Where a path leads: to the entry of a name in a directory, or, if the path ends in dots or is
empty, to a directory. -/
def locate (d : Disk) (path : String) : Except FileFault (Location × Option String) :=
  let names := namesOf path
  match names.getLast? with
  | none => .ok ([], none)
  | some name =>
    if isDots name then do return (← d.walk names, none)
    else do return (← d.walk names.dropLast, some name)

/-! ## Looking -/

/-- What is at a path. A file is not found under a path that asks for a directory. -/
def lookup (d : Disk) (path : String) : Except FileFault DiskEntry := do
  match ← d.locate path with
  | (_, none) => return .directory
  | (l, some name) =>
    match d.entryAt (l ++ [name]) with
    | none => .error .notFound
    | some .directory => return .directory
    | some (.file bytes) => if endsInSlash path then .error .notDirectory else return .file bytes

/-- There is something at a path. -/
def exists? (d : Disk) (path : String) : Bool := (d.lookup path).isOk

/-- The text of the file at a path. -/
def readText (d : Disk) (path : String) : Except FileFault String := do
  match ← d.lookup path with
  | .directory => .error .isDirectory
  | .file bytes =>
    match String.fromUTF8? bytes with
    | some text => return text
    | none => .error .notText

/-! ## Writing -/

/-- Writes the file at a path, in place of what it held. No file can be written under a path that
asks for a directory, whether there is one or not. -/
def write (d : Disk) (path : String) (bytes : ByteArray) : Except FileFault Disk := do
  match ← d.locate path with
  | (_, none) => .error .isDirectory
  | (l, some name) =>
    if endsInSlash path || d.entryAt (l ++ [name]) = some .directory then .error .isDirectory
    else return { d with entries := d.entries.insert (l ++ [name]) (.file bytes) }

/-- Goes into the directory with the name `name`, which is made where nothing is. -/
def enterNew (s : Disk × Location) (name : String) : Disk × Location :=
  let (d, l) := s
  if name = "." then (d, l)
  else if name = ".." then (d, l.above)
  else if (d.entryAt (l ++ [name])).isSome then (d, l ++ [name])
  else ({ d with entries := d.entries.insert (l ++ [name]) .directory }, l ++ [name])

/-- Makes a directory at a path, and all those on the way to it. -/
def makeDirectory (d : Disk) (path : String) : Disk := ((namesOf path).foldl enterNew (d, [])).1

end Disk
end Renamer
