import Extraction.Text.SourceFile

/-!
# Selections

A selection is a region of a named file, given by lines and columns, `5,11:5,20`, or by offset and
length, `112,9`. `Selection.parse` reads the two forms, `Selection.describe` writes them, and
`Selection.convert` finds the extent in a loaded file.
-/

namespace Extraction

inductive Region where
  /-- From a line and column to a line and column; the end is excluded. -/
  | lines (startLine startCol endLine endCol : Int)
  | bytes (offset length : Int)
deriving DecidableEq, Repr

structure Selection where
  filename : String
  region : Region
deriving DecidableEq, Repr

namespace Region

def describe : Region → String
  | lines startLine startCol endLine endCol => s!"{startLine},{startCol}:{endLine},{endCol}"
  | bytes offset length => s!"{offset},{length}"

end Region

inductive PositionError where
  | malformed
  | lineCol
  | offsetLength
deriving DecidableEq, Repr

namespace PositionError

def message : PositionError → String
  | malformed => "invalid -pos"
  | lineCol => "invalid -pos line, col"
  | offsetLength => "invalid -pos offset, length"

end PositionError

namespace Position

def split (separator : Char) : List Char → List (List Char)
  | [] => [[]]
  | c :: rest =>
    if c = separator then [] :: split separator rest
    else
      match split separator rest with
      | [] => [[c]]
      | part :: parts => (c :: part) :: parts

def digits? (cs : List Char) : Option Nat :=
  if cs ≠ [] ∧ cs.all Char.isDigit then
    some (cs.foldl (fun n c => 10 * n + (c.toNat - '0'.toNat)) 0)
  else none

/-- A number that is not negative and less than 2^31, with or without a sign. -/
def number? (cs : List Char) : Option Nat := do
  let n ←
    match cs with
    | '+' :: rest => digits? rest
    | '-' :: rest => (digits? rest).filter (· = 0)
    | _ => digits? cs
  if n < 0x80000000 then some n else none

def pair? (cs : List Char) : Option (Nat × Nat) :=
  match split ',' cs with
  | [a, b] => do
    let m ← number? a
    let n ← number? b
    return (m, n)
  | _ => none

def parse (text : List Char) : Except PositionError Region :=
  match split ':' text with
  | [_] =>
    match pair? text with
    | some (offset, length) => .ok (.bytes offset length)
    | none => .error .offsetLength
  | [a, b] =>
    match pair? a, pair? b with
    | some (startLine, startCol), some (endLine, endCol) =>
      .ok (.lines startLine startCol endLine endCol)
    | _, _ => .error .lineCol
  | _ => .error .malformed

end Position

inductive ConvertError where
  | noFile
  | invalidPosition (line column : Int)
  | reversed (sel : Selection)
  | pastEnd (sel : Selection)
deriving DecidableEq, Repr

namespace Selection

/-- The selection of a position in a file, whose name is made absolute. -/
def parse (directory filename position : String) : Except PositionError Selection :=
  (Position.parse position.toList).map fun region => ⟨Path.absolute directory filename, region⟩

def describe (s : Selection) : String :=
  s.filename ++ ": " ++ s.region.describe

def offsetAt (f : SourceFile) (line column : Int) : Except ConvertError Int :=
  match f.offset? line column with
  | some offset => .ok offset
  | none => .error (.invalidPosition line column)

def extentIn (s : Selection) (f : SourceFile) : Except ConvertError Extent :=
  match s.region with
  | .lines startLine startCol endLine endCol => do
    let start ← offsetAt f startLine startCol
    let stop ← offsetAt f endLine endCol
    match Extent.between start stop with
    | .ok extent => return extent
    | .error _ => throw (.reversed s)
  | .bytes offset length =>
    if (f.size : Int) < (Extent.mk offset length).past then .error (.pastEnd s)
    else .ok ⟨offset, length⟩

def convert (s : Selection) (files : FileSet) (disk : Disk) :
    Except ConvertError (SourceFile × Extent) :=
  match files.find? disk s.filename with
  | none => .error .noFile
  | some f => (s.extentIn f).map fun extent => (f, extent)

end Selection

namespace ConvertError

def message : ConvertError → String
  | noFile => "couldn't find file containing position"
  | invalidPosition line column => s!"invalid position: line {line}, column {column}"
  | reversed sel => s!"selection ends before it starts: {sel.describe}"
  | pastEnd sel => s!"selection {sel.describe} extends past the end of the file"

end ConvertError

end Extraction
