import Patchbay.CommandLine

/-!
# Files in memory

A **disk** holds files by their places, where a **place** is the list of names that leads to a file
or a directory from the root. There is a directory wherever a file needs one, and there is the
directory `home`, in which the program runs. On a disk the command line runs without a system around
it.

A path leads from name to name. It starts at the root if it starts with a slash, and in `home`
otherwise. What a name is looked up in must be a directory, also for the names `.` and `..` and for
the empty name behind a slash at the end.
-/

namespace Patchbay.CommandLine

/-- The names that lead to a file or a directory from the root. -/
abbrev Place := List String

/-- Files by place. -/
structure Disk where
  files : List (Place × ByteArray) := []

namespace Disk

/-- Where relative paths start. -/
def home : Place := ["tmp", "home"]

/-- The file that stays empty, whatever is written into it. -/
def nullDevice : Place := ["dev", "null"]

/-- Whether there is a directory at a place. -/
def isDirectory (d : Disk) (place : Place) : Bool :=
  (home :: nullDevice.dropLast :: d.files.map (·.1.dropLast)).any place.isPrefixOf

/-- A name has no more bytes than this. -/
def nameLimit : Nat := 255

/-- A path has fewer bytes than this. -/
def pathLimit : Nat := 4096

/-- Where a name leads from a directory. Nothing is above the root but the root itself. -/
def step? (d : Disk) (place : Place) (name : String) : Option Place :=
  if !d.isDirectory place || nameLimit < name.utf8ByteSize then none
  else match name with
    | "" | "." => some place
    | ".." => some place.dropLast
    | name => some (place ++ [name])

/-- Where a path leads. -/
def follow? (d : Disk) (path : String) : Option Place :=
  if path.isEmpty || pathLimit ≤ path.utf8ByteSize then none
  else (path.splitOn "/").foldlM d.step? (if path.startsWith "/" then [] else home)

/-- The place that a path gives to a file, there or not. It is in a directory and is none. -/
def locate? (d : Disk) (path : String) : Option Place :=
  (d.follow? path).filter fun place => !d.isDirectory place

/-- What is in a file. -/
def read? (d : Disk) (path : String) : Option ByteArray := do
  let place ← d.locate? path
  if place = nullDevice then return .empty
  let (_, bytes) ← d.files.find? (·.1 == place)
  return bytes

/-- Fills a file, a new one if need be. -/
def write? (d : Disk) (path : String) (bytes : ByteArray) : Option Disk := do
  let place ← d.locate? path
  if place = nullDevice then return d
  return ⟨(place, bytes) :: d.files.filter (·.1 != place)⟩

/-- What is in a file, if it is a text. -/
def readText? (d : Disk) (path : String) : Option String :=
  (d.read? path).bind String.fromUTF8?

/-- A disk of texts, each under its path from `home`. -/
def ofTexts (texts : List (String × String)) : Disk :=
  ⟨texts.map fun (path, text) =>
    let names := (path.splitOn "/").filter fun name => name != "" && name != "."
    (home ++ names, text.toUTF8)⟩

/-- A disk as the files of the command line. -/
def access : Files (StateM Disk) where
  read path := do return (← get).readText? path
  create path := do
    match (← get).write? path .empty with
    | some d => do
      set d
      return true
    | none => return false
  write path bytes := modify fun d => (d.write? path bytes).getD d

end Disk
end Patchbay.CommandLine
