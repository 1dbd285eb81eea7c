import Extraction.Yaml.Cursor

/-!
# Block scalars

The text of scalars that are written line by line below a bar or an angle bracket, each line
indented.
-/

namespace Extraction.Yaml

/-- What becomes of the line breaks at the end of a block scalar: none is kept, one, or all. -/
inductive Chomping where
  | strip
  | clip
  | keep
deriving DecidableEq, Repr

namespace BlockText

open Reading

def chomping? : Char → Option Chomping
  | '-' => some .strip
  | '+' => some .keep
  | _ => none

def readChomping : Reading (Option Chomping) := do
  match ((← get).ahead 0).bind chomping? with
  | none => return none
  | some chomping =>
    skip
    return some chomping

def readIncrement (start : Nat) : Reading (Option Nat) := do
  match ((← get).ahead 0).filter Char.isDigit with
  | none => return none
  | some '0' => fail .zeroIndentation start
  | some digit =>
    skip
    return some (digit.toNat - '0'.toNat)

/-- Reads the head of a block scalar: the two signs, in either order, and a comment. -/
def readHead (start : Nat) : Reading (Chomping × Option Nat) := do
  skip
  need 1
  let first ← readChomping
  need 1
  let increment ← readIncrement start
  need 1
  let second ← if first.isNone && increment.isSome then readChomping else pure none
  skipWhile isBlank
  if (← get).isAt '#' then skipLine
  if !(← get).endsLine 0 then fail .missingLineEnd start
  endLine
  return ((first <|> second).getD .clip, increment)

def skipIndentation (indent : Option Nat) : Nat → Reading Unit
  | 0 => return
  | n + 1 => do
    let c ← get
    if (indent.all fun i => decide (c.mark.column < i)) && c.isAt ' ' then
      skip
      need 1
      skipIndentation indent n

/-- Reads empty lines, and gives their line breaks in reverse and the largest column met. -/
def skipEmptyLines (indent : Option Nat) (start widest : Nat) (breaks : List Char) :
    Nat → Reading (List Char × Nat)
  | 0 => return (breaks, widest)
  | n + 1 => do
    need 1
    skipIndentation indent (← get).remaining
    let c ← get
    let widest := max widest c.mark.column
    if (indent.all fun i => decide (c.mark.column < i)) && c.isAt '\t' then fail .tabForSpace start
    if !c.isAtAny isBreak then return (breaks, widest)
    need 2
    skipEmptyLines indent start widest ((← readBreak).toList ++ breaks) n

/-- The lines read so far, in reverse, the break after the last of them, and the breaks of the empty
lines that follow, in reverse. -/
structure Lines where
  text : List Char := []
  lineBreak : List Char := []
  emptyLines : List Char := []
  /-- Whether the last line starts with a blank, so that it is not folded. -/
  startsBlank : Bool := false

namespace Lines

/-- The text up to the next line, which starts with a blank or not.  Lines that are not kept apart
are joined by a blank, unless empty lines stand between them. -/
def joined (l : Lines) (literal startsBlank : Bool) : List Char :=
  if !literal && !l.startsBlank && !startsBlank && l.lineBreak == ['\n'] then
    l.emptyLines ++ (if l.emptyLines.isEmpty then [' '] else []) ++ l.text
  else l.emptyLines ++ l.lineBreak ++ l.text

def result (l : Lines) (chomping : Chomping) : String :=
  String.ofList <| List.reverse <|
    match chomping with
    | .strip => l.text
    | .clip => l.lineBreak ++ l.text
    | .keep => l.emptyLines ++ l.lineBreak ++ l.text

end Lines

def readLines (literal : Bool) (indent start : Nat) (l : Lines) : Nat → Reading Lines
  | 0 => return l
  | n + 1 => do
    let c ← get
    if c.mark.column ≠ indent || (c.ahead 0).isNone then return l
    let startsBlank := c.isAtAny isBlank
    let text ← takeWhile (fun x => !isBreak x) (l.joined literal startsBlank) c.remaining
    need 2
    let lineBreak := (← readBreak).toList
    let (emptyLines, _) ← skipEmptyLines (some indent) start 0 [] ((← get).remaining + 1)
    readLines literal indent start { text, lineBreak, emptyLines, startsBlank } n

/-- Reads a block scalar in a block collection at the given column.  Without a sign in the head, the
first line decides how the others are indented. -/
def read (literal : Bool) (outer : Option Nat) : Reading String := do
  let start := (← get).mark.line
  let (chomping, increment) ← readHead start
  let known := increment.map (outer.getD 0 + ·)
  let (emptyLines, widest) ← skipEmptyLines known start 0 [] ((← get).remaining + 1)
  let least := (outer.map (· + 1)).getD 0
  let indent := known.getD (max (max widest least) 1)
  need 1
  let l ← readLines literal indent start { emptyLines } ((← get).remaining + 1)
  return l.result chomping

end BlockText

end Extraction.Yaml
