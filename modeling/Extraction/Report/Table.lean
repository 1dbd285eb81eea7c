import Extraction.Text.CharClass

/-!
# Tables

A table of text with a header and a footer.  A column is as wide as the widest line of its cells;
wide characters count twice, and color codes not at all.  Headers and footers are centered, numbers
stand right, everything else stands left. A row is as high as its highest cell.
-/

namespace Extraction.Report

structure Table where
  header : List String
  rows : List (List String)
  footer : List String
deriving DecidableEq, Repr

namespace Table

/-- What follows a color code: numbers of up to three digits between semicolons, if there are any,
and a letter. `digits` counts those of the current number. -/
def afterColor? (first : Bool) (digits : Nat) : List Char → Option (List Char)
  | [] => none
  | c :: rest =>
    if c.isDigit then if digits < 3 then afterColor? first (digits + 1) rest else none
    else if c = ';' ∧ 0 < digits then afterColor? false 0 rest
    else if c ∈ ['m', '|', 'K'] ∧ (first ∨ 0 < digits) then some rest
    else none

def visible : Nat → List Char → List Char
  | 0, cs => cs
  | _, [] => []
  | n + 1, '\x1b' :: '[' :: rest =>
    match afterColor? true 0 rest with
    | some rest => visible n rest
    | none => '\x1b' :: visible n ('[' :: rest)
  | n + 1, c :: rest => c :: visible n rest

def displayWidth (text : String) : Nat :=
  (visible text.length text.toList).foldl (fun n c => n + CharClass.width c.toNat) 0

def spaces (n : Nat) : String :=
  String.ofList (List.replicate n ' ')

/-- The text between spaces, of which the larger half goes right. -/
def center (width : Nat) (text : String) : String :=
  let gap := width - displayWidth text
  spaces (gap / 2) ++ text ++ spaces (gap - gap / 2)

/-- Groups of three digits, each after a comma. -/
def areGroups : List Char → Bool
  | [] => true
  | ',' :: a :: b :: c :: rest => a.isDigit && b.isDigit && c.isDigit && areGroups rest
  | _ => false

/-- A decimal number; its whole part may be written in groups of three digits. -/
def isNumber (text : String) : Bool :=
  let unsigned :=
    match CharClass.trim text.toList with
    | '-' :: rest => rest
    | cs => cs
  let whole := unsigned.takeWhile (· ≠ '.')
  let digits := whole.takeWhile Char.isDigit
  let groups := whole.dropWhile Char.isDigit
  !digits.isEmpty && (groups.isEmpty || (decide (digits.length ≤ 3) && areGroups groups)) &&
    match unsigned.dropWhile (· ≠ '.') with
    | [] => true
    | _ :: fraction => !fraction.isEmpty && fraction.all Char.isDigit

def align (width : Nat) (text : String) : String :=
  let gap := spaces (width - displayWidth text)
  if isNumber text then gap ++ text else text ++ gap

def lines (cell : String) : List String :=
  cell.splitOn "\n"

def widths (t : Table) : List Nat :=
  let width (cell : String) : Nat := (lines cell).foldl (fun w line => max w (displayWidth line)) 0
  let wider (ws : List Nat) (row : List String) : List Nat := List.zipWith max ws (row.map width)
  (t.rows ++ [t.footer]).foldl wider (t.header.map displayWidth)

/-- A line of cells, each of which is followed by its own separator. -/
def line (cells : List (String × Char)) : String :=
  " " ++ String.join (cells.map fun (cell, separator) => s!" {cell} {separator}") ++ "\n"

/-- Bars between cells, and a space after the last one. -/
def separators : List String → List (String × Char)
  | [] => []
  | [cell] => [(cell, ' ')]
  | cell :: rest => (cell, '|') :: separators rest

def rule (ws : List Nat) : String :=
  String.ofList (List.replicate (ws.foldl (fun n w => n + w + 2) 2) '-') ++ "\n"

/-- In the footer no bar follows an empty cell. -/
def footerLine (ws : List Nat) (footer : List String) : String :=
  let bars := (separators footer).map fun (cell, separator) => if cell = "" then ' ' else separator
  line ((List.zipWith center ws footer).zip bars)

/-- The lines of a row.  Below its own lines a cell is blank. -/
def rowLines (ws : List Nat) (row : List String) : List String :=
  let cells := row.map lines
  let height := cells.foldl (fun n cell => max n cell.length) 0
  (List.range height).map fun i =>
    line (separators (List.zipWith align ws (cells.map fun cell => cell.getD i "  ")))

def render (t : Table) : String :=
  let ws := t.widths
  line (separators (List.zipWith center ws t.header)) ++ rule ws ++
    String.join (t.rows.flatMap (rowLines ws)) ++ rule ws ++ footerLine ws t.footer ++ rule ws

end Table

end Extraction.Report
