import TinyImp.Command.Files
import TinyImp.Command.Path

/-!
# A disk in memory

A disk as a value: its directories, the bytes of its files, and a working directory. Reading and
writing go by the usual rules for paths. A path that starts with a slash starts at the root and
any other one at the working directory; every component but the last must lead to a directory; a
slash at the end asks for a directory; and neither a name nor a path may be too long.
-/

namespace TinyImp

/-- What stands at a place on a disk. -/
inductive Entry where
  | directory
  | file (bytes : ByteArray)

/-- The names that lead from the root to a place. -/
abbrev Location := List String

/-- A disk. The root is a directory without being listed. -/
structure Disk where
  entries : List (Location × Entry) := []
  workingDirectory : Location := []

namespace Disk

/-- What stands at a location. -/
def entry? (d : Disk) (location : Location) : Option Entry :=
  if location = [] then some .directory else d.entries.lookup location

/-- The bytes of the file at a location. -/
def file? (d : Disk) (location : Location) : Option ByteArray :=
  match d.entry? location with
  | some (.file bytes) => some bytes
  | _ => none

/-- The disk with an entry put at a location. -/
def put (d : Disk) (location : Location) (e : Entry) : Disk :=
  { d with entries := (location, e) :: d.entries.filter (·.1 ≠ location) }

/-- The number of bytes that a name can have. -/
def nameLimit : Nat := 255

/-- The number of bytes that a path can have. -/
def pathLimit : Nat := 4095

/-- Looks for a name in a directory. -/
def find (d : Disk) (place : Location) (name : String) : Except FileError (Option Entry) :=
  if nameLimit < name.utf8ByteSize then .error .nameTooLong
  else .ok (d.entry? (place ++ [name]))

/-- Where a path leads: to a name that a directory has or can have, or to a directory that the
path reaches without naming it at the end. -/
inductive Target where
  | named (place : Location) (name : String)
  | directory (place : Location)

/-- Follows the components of a path, starting from a directory. -/
def follow (d : Disk) (place : Location) : List String → Except FileError Target
  | [] => .ok (.directory place)
  | part :: rest =>
    if part = "" ∨ part = "." then d.follow place rest
    else if part = ".." then d.follow place.dropLast rest
    else if rest = [] then .ok (.named place part)
    else
      match d.find place part with
      | .error e => .error e
      | .ok none => .error .noSuchFile
      | .ok (some (.file _)) => .error .notDirectory
      | .ok (some .directory) => d.follow (place ++ [part]) rest

/-- A path taken apart: where it starts, its components, and whether a slash stands at its end. -/
def resolve (d : Disk) (path : String) : Except FileError (Target × Bool) :=
  let start := if path.toList.head? = some '/' then [] else d.workingDirectory
  let parts := Path.splitSlash path.toList
  let named := (parts.reverse.dropWhile List.isEmpty).reverse
  let slashAtEnd := named ≠ parts
  if path = "" then .error .noSuchFile
  else if pathLimit < path.utf8ByteSize then .error .nameTooLong
  else (d.follow start (named.map String.ofList)).map (·, slashAtEnd)

/-- The bytes of the file that a path leads to. -/
def read (d : Disk) (path : String) : Except FileError ByteArray :=
  match d.resolve path with
  | .error e => .error e
  | .ok (.directory _, _) => .error .isDirectory
  | .ok (.named place name, slashAtEnd) =>
    match d.find place name with
    | .error e => .error e
    | .ok none => .error .noSuchFile
    | .ok (some .directory) => .error .isDirectory
    | .ok (some (.file bytes)) => if slashAtEnd then .error .notDirectory else .ok bytes

/-- The disk with the bytes as the file that a path leads to. -/
def write (d : Disk) (path : String) (bytes : ByteArray) : Except FileError Disk :=
  match d.resolve path with
  | .error e => .error e
  | .ok (.directory _, _) => .error .isDirectory
  | .ok (.named place name, slashAtEnd) =>
    if slashAtEnd then .error .isDirectory
    else
      match d.find place name with
      | .error e => .error e
      | .ok (some .directory) => .error .isDirectory
      | .ok _ => .ok (d.put (place ++ [name]) (.file bytes))

/-- The files of a disk in memory. A failed access leaves the disk as it was. -/
instance : Files (StateM Disk) where
  read path := fun d => (d.read path, d)
  write path bytes := fun d =>
    match d.write path bytes with
    | .ok after => (.ok (), after)
    | .error e => (.error e, d)

end Disk

end TinyImp
