/-!
# Paths

File names as they are written, with `/` between their parts.  All operations are lexical: they look
at the text of a path alone.
-/

namespace Extraction.Path

/-- The parts between slashes; a path that starts with a slash has an empty first part. -/
def parts (path : String) : List String :=
  (path.toList.splitOn '/').map String.ofList

def isAbsolute (path : String) : Bool :=
  path.startsWith "/"

/-- Drops empty parts and `.`, and lets `..` cancel the part before it.  Above the root, `..` means
the root. -/
def reduce (absolute : Bool) (kept : List String) : List String → List String
  | [] => kept.reverse
  | p :: rest =>
    if p = "" ∨ p = "." then reduce absolute kept rest
    else if p = ".." then
      match kept with
      | [] => reduce absolute (if absolute then [] else [".."]) rest
      | k :: others =>
        if k = ".." then reduce absolute (".." :: kept) rest else reduce absolute others rest
    else reduce absolute (p :: kept) rest

def cleanParts (path : String) : List String :=
  reduce (isAbsolute path) [] (parts path)

def render (absolute : Bool) (parts : List String) : String :=
  if absolute then "/" ++ "/".intercalate parts
  else if parts.isEmpty then "."
  else "/".intercalate parts

/-- The shortest equal path. -/
def clean (path : String) : String :=
  render (isAbsolute path) (cleanParts path)

/-- The path seen from the root, if `directory` is the current one. -/
def absolute (directory path : String) : String :=
  if isAbsolute path then clean path
  else if path = "" then clean directory
  else clean (directory ++ "/" ++ path)

/-- A name within a directory; an empty directory leaves the name as it is. -/
def join (directory name : String) : String :=
  if directory = "" then if name = "" then "" else clean name
  else clean (directory ++ "/" ++ name)

def base (path : String) : String :=
  if path = "" then "."
  else
    match ((parts path).filter (· ≠ "")).getLast? with
    | some p => p
    | none => "/"

/-- All but the last part of a path, made shortest. -/
def directory (path : String) : String :=
  clean ("/".intercalate ((parts path).dropLast) ++ if path.contains '/' then "/" else "")

def dropCommon : List String → List String → List String × List String
  | a :: as, b :: bs => if a = b then dropCommon as bs else (a :: as, b :: bs)
  | as, bs => (as, bs)

/-- The path of `target` seen from `directory`, if their texts determine it. -/
def relative? (directory target : String) : Option String :=
  if clean directory = clean target then some "."
  else if isAbsolute directory ≠ isAbsolute target then none
  else
    match dropCommon (cleanParts directory) (cleanParts target) with
    | (".." :: _, _) => none
    | (up, down) => some ("/".intercalate (up.map (fun _ => "..") ++ down))

end Extraction.Path
