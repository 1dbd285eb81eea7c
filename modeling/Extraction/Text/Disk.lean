import Extraction.Text.Path

/-!
# Files on disk

What an operation sees of the file system: the current directory and the files with their contents.
A directory exists if the current directory or a file lies in it.
-/

namespace Extraction

/-- The files by the parts of their absolute paths. -/
structure Disk where
  current : String
  files : List (List String × List UInt8) := []

inductive DiskError where
  | notFound (path : String)
  | notDirectory (path : String)
  | isDirectory (path : String)
  /-- A path, or a part of it, that is longer than a path may be. -/
  | tooLong (path : String)
  /-- A path with a null character. -/
  | invalid (path : String)
deriving DecidableEq, Repr

namespace DiskError

def message : DiskError → String
  | notFound path => s!"open {path}: no such file or directory"
  | notDirectory path => s!"open {path}: not a directory"
  | isDirectory path => s!"read {path}: is a directory"
  | tooLong path => s!"open {path}: file name too long"
  | invalid path => s!"open {path}: invalid argument"

end DiskError

namespace Disk

/-- A disk that holds files named relative to the current directory. -/
def ofFiles (current : String) (files : List (String × List UInt8)) : Disk :=
  { current, files := files.map fun (name, bytes) =>
    (Path.cleanParts (Path.absolute current name), bytes) }

def file? (d : Disk) (parts : List String) : Option (List UInt8) :=
  d.files.lookup parts

def isDirectory (d : Disk) (parts : List String) : Bool :=
  parts.isPrefixOf (Path.cleanParts d.current) ||
    d.files.any fun (name, _) => parts.isPrefixOf name && parts.length < name.length

/-- How many bytes a path has at most, and each of its parts. -/
def maxPath : Nat := 4095

def maxPart : Nat := 255

/-- Follows the parts of a path from a directory; every part but the last must be a directory. -/
def follow (d : Disk) (path : String) (here : List String) :
    List String → Except DiskError (List String)
  | [] => .ok here
  | p :: rest =>
    if !d.isDirectory here then .error (.notDirectory path)
    else if p = "" ∨ p = "." then d.follow path here rest
    else if p = ".." then d.follow path here.dropLast rest
    else if maxPart < p.utf8ByteSize then .error (.tooLong path)
    else if d.isDirectory (here ++ [p]) || (d.file? (here ++ [p])).isSome then
      d.follow path (here ++ [p]) rest
    else .error (.notFound path)

def locate (d : Disk) (path : String) : Except DiskError (List String) :=
  if path.contains '\x00' then .error (.invalid path)
  else if path = "" then .error (.notFound path)
  else if maxPath < path.utf8ByteSize then .error (.tooLong path)
  else
    d.follow path (if Path.isAbsolute path then [] else Path.cleanParts d.current) (Path.parts path)

def contains (d : Disk) (path : String) : Bool :=
  (d.locate path).isOk

def read (d : Disk) (path : String) : Except DiskError (List UInt8) := do
  let parts ← d.locate path
  match d.file? parts with
  | some bytes => return bytes
  | none => throw (.isDirectory path)

/-- Whether two names denote one file: they are equal, or both exist, are one, and have the same
last part. -/
def agree (d : Disk) (a b : String) : Bool :=
  a == b || (Path.base a == Path.base b &&
    match d.locate a, d.locate b with
    | .ok p, .ok q => p == q
    | _, _ => false)

end Disk

end Extraction
