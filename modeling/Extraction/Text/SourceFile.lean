import Extraction.Text.Disk
import Extraction.Text.Extent

/-!
# Source files and positions

A source file knows its size and where its lines start.  An offset has a line and a column, both
counted from one, and back.  Text that was generated may say where it comes from: from such a
renumbering on, the lines that are displayed are counted from the one it states.
-/

namespace Extraction

/-- From an offset on, lines are displayed as if that offset were at the given line and column.
Without a column the columns are not known. -/
structure Renumbering where
  offset : Nat
  line : Int
  column : Option Int
deriving DecidableEq, Repr

structure SourceFile where
  name : String
  size : Nat
  /-- The offset of each line start, ascending. -/
  lines : List Nat
  /-- The renumberings in the text, by ascending offset. -/
  renumberings : List Renumbering := []
deriving DecidableEq, Repr

namespace SourceFile

/-- The offsets that follow a newline and are not the end, for a text that starts at `offset`. -/
def lineStartsAfter (offset : Nat) : List UInt8 → List Nat
  | [] => []
  | b :: rest =>
    if b = 10 ∧ rest ≠ [] then (offset + 1) :: lineStartsAfter (offset + 1) rest
    else lineStartsAfter (offset + 1) rest

/-- A file of the given contents.  An empty file has no line, and a final newline starts none. -/
def ofContents (name : String) (bytes : List UInt8) : SourceFile where
  name := name
  size := bytes.length
  lines := if bytes.isEmpty then [] else 0 :: lineStartsAfter 0 bytes

/-- The line and column of an offset, which is first brought into the file; zeros in a file without
lines. -/
def position (f : SourceFile) (offset : Int) : Nat × Nat :=
  let offset := min (max offset 0).toNat f.size
  let before := f.lines.takeWhile (· ≤ offset)
  match before.getLast? with
  | some start => (before.length, offset - start + 1)
  | none => (0, 0)

/-- The line and column to display for an offset.  The last renumbering up to it decides the line;
its column holds on its own line only, and an unknown column is displayed as zero. -/
def displayed (f : SourceFile) (offset : Int) : Int × Int :=
  let (line, column) := f.position offset
  let offset := min (max offset 0).toNat f.size
  match (f.renumberings.takeWhile (·.offset ≤ offset)).getLast? with
  | none => (line, column)
  | some r =>
    let below : Int := line - (f.position r.offset).1
    (r.line + below,
      match r.column with
      | none => 0
      | some start => if below = 0 then start + (offset - r.offset : Nat) else column)

/-- The offset of a line and column.  The column may go up to the start of the next line, or the end
of the file. -/
def offset? (f : SourceFile) (line column : Int) : Option Int :=
  if line < 1 ∨ f.lines.length < line ∨ column < 1 then none
  else do
    let start ← f.lines[(line - 1).toNat]?
    let offset := word (start + column - 1)
    let limit := (f.lines[line.toNat]?).getD f.size
    if (limit : Int) < offset then none else some offset

end SourceFile

abbrev FileSet := List SourceFile

namespace FileSet

def find? (files : FileSet) (disk : Disk) (name : String) : Option SourceFile :=
  List.find? (fun f => disk.agree name f.name) files

end FileSet

end Extraction
