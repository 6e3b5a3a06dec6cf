/-!
A working directory: files by place, and the directories that their places imply. Paths are
followed one component at a time, as an operating system does, so each but the last has
to be a directory. What lies around the working directory is not known, except that the
directories above it are there and that they can be written to.
-/

namespace Offside.CommandLine

inductive FileError
  | notFound
  | denied
  | notDirectory
  | isDirectory
  | nameTooLong
  | notText
  deriving DecidableEq, Repr

def FileError.text : FileError → String
  | notFound => "No such file or directory (os error 2)"
  | denied => "Permission denied (os error 13)"
  | notDirectory => "Not a directory (os error 20)"
  | isDirectory => "Is a directory (os error 21)"
  | nameTooLong => "File name too long (os error 36)"
  | notText => "stream did not contain valid UTF-8"

inductive Entry
  | missing
  | directory
  | locked
  | file (content : ByteArray)

def nameLimit : Nat := 255

def pathLimit : Nat := 4095

/-- Names on the way from the working directory, or from the root if the first one is a
slash. Two dots stand at the front only, once for each directory further out. -/
abbrev Place := List String

namespace Place

def above (place : Place) : Place :=
  if place = ["/"] then place
  else if place.all (· = "..") then ".." :: place
  else place.dropLast

def step (place : Place) (component : String) : Place :=
  if component = "" ∨ component = "." then place
  else if component = ".." then place.above
  else place ++ [component]

/-- The components of a path, empty ones among them. -/
def split (path : String) : List String :=
  (path.toList.splitOn '/').map String.ofList

def origin (path : String) : Place :=
  if path.toList.head? = some '/' then ["/"] else []

def ofPath (path : String) : Place :=
  (split path).foldl step (origin path)

end Place

structure Folder where
  files : List (Place × ByteArray)

namespace Folder

def ofFiles (files : List (String × ByteArray)) : Folder :=
  ⟨files.map fun file => (.ofPath file.1, file.2)⟩

def entry (f : Folder) (place : Place) : Entry :=
  match f.files.lookup place with
  | some content => .file content
  | none =>
    if place = ["/"] ∨ place.all (· = "..") ∨ f.files.any (place.isPrefixOf ·.1) then
      .directory
    else .missing

/-- One component further, which needs a directory to go on from. -/
def follow (f : Folder) (place : Place) (component : String) : Except FileError Place :=
  match f.entry place with
  | .missing => .error .notFound
  | .locked => .error .denied
  | .file _ => .error .notDirectory
  | .directory =>
    if nameLimit < component.utf8ByteSize then .error .nameTooLong
    else .ok (place.step component)

def start (path : String) : Except FileError Place :=
  if path = "" then .error .notFound
  else if pathLimit < path.utf8ByteSize then .error .nameTooLong
  else .ok (.origin path)

def walk (f : Folder) (path : String) : Except FileError Place := do
  (Place.split path).foldlM f.follow (← start path)

def find (f : Folder) (path : String) : Entry :=
  match f.walk path with
  | .ok place => f.entry place
  | .error _ => .missing

/-- Puts a file where another one may be, in a directory that has to be there. A path that
ends in a slash asks for a directory and does not even get its last name looked at. -/
def write (f : Folder) (path : String) (content : ByteArray) : Except FileError Folder := do
  let names := (Place.split path).filter (· ≠ "")
  let parent ← names.dropLast.foldlM f.follow (← start path)
  let last := if path.toList.getLast? = some '/' then "." else names.getLast?.getD "."
  let place ← f.follow parent last
  match f.entry place with
  | .directory => throw .isDirectory
  | .locked => throw .denied
  | .missing | .file _ =>
    return ⟨(place, content) :: f.files.filter fun file => file.1 ≠ place⟩

end Folder

end Offside.CommandLine
