import Extraction.Yaml.Problem

/-!
# Reading a YAML text

A text is taken in by parts of a bounded number of bytes, as far as reading needs it.  A character
that may not stand in a text is noticed when its part is taken in.  The cursor is the place reached
in the text, and `Reading` is what moves it: `need` takes in parts, `skip`, `skipBreak` and
`readBreak` move past characters.

An error leaves the cursor where it was met, since reading may go on from there: `attempt` keeps the
error in mind, and it is reported unless a later one takes its place.
-/

namespace Extraction.Yaml

def isBreak (c : Char) : Bool :=
  c == '\n' || c == '\r' || c == '\u0085' || c == '\u2028' || c == '\u2029'

def isBlank (c : Char) : Bool :=
  c == ' ' || c == '\t'

def isWordChar (c : Char) : Bool :=
  c.isAlphanum || c == '_' || c == '-'

def isAllowed (c : Char) : Bool :=
  c == '\t' || c == '\n' || c == '\r' || (decide (' ' ≤ c) && decide (c ≤ '~')) || c == '\u0085' ||
    (decide ('\u00a0' ≤ c) && c != '\ufffe' && c != '\uffff')

def byteOrderMark : Char := '\ufeff'

/-- A text with the ends of the parts in which it is taken in, counted in characters. -/
structure Source where
  chars : Array Char
  parts : List Nat
  /-- The first character that is not allowed, and where its part starts. -/
  forbidden : Option (Nat × Nat)

namespace Source

def partSize : Nat := 512

/-- The ends of the parts of a text of which `count` characters were taken in, when the current part
has `room` left. -/
def partEnds (room count : Nat) : List Char → List Nat
  | [] => [count]
  | c :: rest =>
    if c.utf8Size ≤ room then partEnds (room - c.utf8Size) (count + 1) rest
    else count :: partEnds (partSize - c.utf8Size) (count + 1) rest

/-- A byte order mark at the start is no part of the text, but takes room in the first part. -/
def ofText (text : String) : Source :=
  let all := text.toList
  let marked := all.head? == some byteOrderMark
  let cs := if marked then all.tail else all
  let parts := partEnds (if marked then partSize - byteOrderMark.utf8Size else partSize) 0 cs
  let allowed := (cs.takeWhile isAllowed).length
  { chars := cs.toArray
    parts
    forbidden :=
      if allowed = cs.length then none
      else some (allowed, (parts.takeWhile (· ≤ allowed)).getLastD 0) }

/-- How many characters are taken in once the given number is needed.  Beyond its end a text has one
more character, as often as it is asked for. -/
def takenIn (s : Source) (before needed : Nat) : Nat :=
  (s.parts.find? (needed ≤ ·)).getD (max before s.chars.size + 1)

end Source

/-- A place in a text: the characters before it, its line and its column, all counted from zero. -/
structure Mark where
  index : Nat := 0
  line : Nat := 0
  column : Nat := 0
deriving DecidableEq, Repr

structure Cursor where
  source : Source
  mark : Mark := {}
  /-- The line breaks since the last character that is no blank. -/
  breaks : Nat := 0
  /-- The place at which parts were last taken in. -/
  windowStart : Nat := 0
  windowEnd : Nat := 0
  /-- The last error that reading went on from. -/
  noticed : Option SyntaxError := none

namespace Cursor

def ahead (c : Cursor) (n : Nat) : Option Char :=
  c.source.chars[c.mark.index + n]?

def remaining (c : Cursor) : Nat :=
  c.source.chars.size - c.mark.index

def endsWord (c : Cursor) (n : Nat) : Bool :=
  (c.ahead n).all fun x => isBlank x || isBreak x

def endsLine (c : Cursor) (n : Nat) : Bool :=
  (c.ahead n).all isBreak

def isAt (c : Cursor) (x : Char) : Bool :=
  c.ahead 0 == some x

def isAtAny (c : Cursor) (p : Char → Bool) : Bool :=
  (c.ahead 0).any p

/-- Three times a character and then the end of a word, at the start of a line. -/
def isAtMark (c : Cursor) (x : Char) : Bool :=
  c.mark.column == 0 && c.ahead 0 == some x && c.ahead 1 == some x && c.ahead 2 == some x &&
    c.endsWord 3

def marksDocument (c : Cursor) : Bool :=
  c.isAtMark '-' || c.isAtMark '.'

/-- The line break at the cursor: how many characters it takes, and the character it counts as. -/
def break? (c : Cursor) : Option (Nat × Char) :=
  match c.ahead 0 with
  | some '\r' => some (if c.ahead 1 == some '\n' then 2 else 1, '\n')
  | some '\n' | some '\u0085' => some (1, '\n')
  | some '\u2028' => some (1, '\u2028')
  | some '\u2029' => some (1, '\u2029')
  | _ => none

def error (c : Cursor) (problem : Problem) (context : Nat) : SyntaxError :=
  ⟨problem, context, c.mark.line, true⟩

end Cursor

abbrev Reading := EStateM SyntaxError Cursor

namespace Reading

def fail (problem : Problem) (context : Nat) : Reading α := do
  throw ((← get).error problem context)

def attempt (r : Reading α) : Reading (Option α) := fun c =>
  match r c with
  | .ok a c => .ok (some a) c
  | .error e c => .ok none { c with noticed := some e }

/-- Takes in parts until so many characters lie ahead.  Of a part with a character that is not
allowed, those before it are taken in.  The error has no place of its own: the lines of one that was
met before are kept. -/
def need (n : Nat) : Reading Unit := do
  let c ← get
  let needed := c.mark.index + n
  if needed ≤ c.windowEnd then return
  match c.source.forbidden.filter fun (_, part) => decide (part < needed) with
  | some (allowed, _) =>
    set { c with windowStart := c.mark.index, windowEnd := allowed }
    throw { c.noticed.getD ⟨.controlCharacter, 0, 0, false⟩ with
      problem := .controlCharacter, lexical := false }
  | none =>
    set { c with windowStart := c.mark.index, windowEnd := c.source.takenIn c.windowEnd needed }

def skip : Reading Unit :=
  modify fun c =>
    { c with
      mark := { c.mark with index := c.mark.index + 1, column := c.mark.column + 1 }
      breaks := if c.isAtAny isBlank then c.breaks else 0 }

def skipMany : Nat → Reading Unit
  | 0 => return
  | n + 1 => do
    skip
    skipMany n

/-- Moves past a line break, if one is at the cursor, and gives the character it counts as. -/
def readBreak : Reading (Option Char) := do
  let c ← get
  match c.break? with
  | none => return none
  | some (length, x) =>
    set { c with
      mark := { index := c.mark.index + length, line := c.mark.line + 1, column := 0 }
      breaks := c.breaks + 1 }
    return some x

def skipBreak : Reading Unit := do
  let _ ← readBreak

/-- Moves past characters of a class and gives them in reverse; at most as many as given. -/
def takeWhile (p : Char → Bool) (taken : List Char) : Nat → Reading (List Char)
  | 0 => return taken
  | n + 1 => do
    match ((← get).ahead 0).filter p with
    | none => return taken
    | some x =>
      skip
      need 1
      takeWhile p (x :: taken) n

def readWhile (p : Char → Bool) : Reading (List Char) := do
  need 1
  return (← takeWhile p [] (← get).remaining).reverse

def skipWhile (p : Char → Bool) : Reading Unit := do
  let _ ← readWhile p

def skipLine : Reading Unit :=
  skipWhile fun x => !isBreak x

/-- Moves past a line break, which is taken in as a whole first. -/
def endLine : Reading Unit := do
  if (← get).isAtAny isBreak then
    need 2
    skipBreak

end Reading

end Extraction.Yaml
