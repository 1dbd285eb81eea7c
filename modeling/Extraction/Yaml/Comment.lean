import Extraction.Yaml.Cursor

/-!
# Comments

Comments say nothing of the values, but reading has to know which of them stand above the next
token.  Lines of comments with nothing but blank lines between them are read together.  A group of
them belongs to the token before if an empty line or the end follows it and it starts right below
that token or left of the innermost block collection, or if it is indented otherwise than what
follows and that is left of the collection.  Otherwise it is a remark on the next token.
-/

namespace Extraction.Yaml

structure Remark where
  start : Nat
  apart : Bool
deriving DecidableEq, Repr

namespace Comment

open Reading

structure Setting where
  inFlow : Bool
  indent : Nat
  /-- The line below the token before, unless comments there are not taken to belong to it. -/
  below : Option Nat

/-- The state of looking for further comments: the place reached, with the column counted from one,
and the comments so far.  The lines after a comment are counted from its own. -/
structure Search where
  line : Nat
  column : Nat
  /-- No empty line was met since the token before. -/
  near : Bool
  /-- Whether the line before is empty. -/
  afterEmpty : Bool := false
  /-- Where the comments of the group start, and whether an empty line follows them. -/
  group : Option (Mark × Bool) := none

namespace Search

def endsBelow (s : Search) (g : Setting) : Bool :=
  s.near && s.group.any fun (start, _) => g.below == some start.line ||
    decide (start.column ≤ g.indent)

def emptyLine (s : Search) (g : Setting) (atEnd : Bool) : Search :=
  let group :=
    if s.afterEmpty then s.group
    else if s.endsBelow g then none
    else s.group.map fun (start, apart) => (start, apart || !atEnd)
  { line := s.line + 1, column := 0, near := false, afterEmpty := true, group }

/-- A character that is neither blank nor the end of a line. -/
def meet (s : Search) (g : Setting) : Search :=
  if s.column ≤ g.indent ∧ s.group.any fun (start, _) => start.column ≠ s.column then
    { s with group := none }
  else s

def remark? (s : Search) : Option Remark :=
  s.group.map fun (start, apart) => ⟨start.index, apart⟩

end Search

def reach : Nat := 512

/-- Looks beyond a line break of more than one byte at the given place: no comment is seen there. -/
def pastWideBreak (g : Setting) (s : Search) (ahead : Nat) : Reading Search := do
  match ← attempt (need (ahead + 2)) with
  | none => return s
  | some _ => return { s with column := s.column + 1 }.meet g

/-- How far ahead the next comment starts, if there are only blanks and line breaks before it. -/
def find (g : Setting) (s : Search) (ahead : Nat) : Nat → Reading (Option Nat × Search)
  | 0 => return (none, s)
  | n + 1 => do
    match ← attempt (need (ahead + 1)) with
    | none => return (none, s)
    | some _ =>
      let s := { s with column := s.column + 1 }
      match (← get).ahead ahead with
      | none => return (none, s.emptyLine g true)
      | some x =>
        if isBlank x then find g s (ahead + 1) n
        else if g.inFlow && (x == ']' || x == '\x7d') then return (none, { s with group := none })
        else if isBreak x then
          let s := s.emptyLine g false
          if x.utf8Size = 1 then find g s (ahead + 1) n
          else if n = 0 then return (none, s)
          else return (none, ← pastWideBreak g s ahead)
        else return (if x = '#' then some ahead else none, s.meet g)

def skipAt (index : Nat) : Nat → Reading Unit
  | 0 => skipLine
  | n + 1 => do
    need 1
    let c ← get
    if index ≤ c.mark.index then skipLine
    else
      if c.isAtAny isBreak then
        need 2
        skipBreak
      else skip
      skipAt index n

/-- Moves past comments from the given place on, and gives the remark they end with. -/
def skipAll (g : Setting) (s : Search) (ahead : Nat) : Nat → Reading (Option Remark)
  | 0 => return s.remark?
  | n + 1 => do
    match ← find g s ahead (reach - ahead) with
    | (none, s) => return s.remark?
    | (some found, s) =>
      let index := (← get).mark.index + found
      let start := (s.group.map (·.1)).getD ⟨index, s.line, s.column⟩
      skipAt index found
      let c ← get
      let s : Search :=
        { line := c.mark.line, column := 0, near := s.near, group := some (start, false) }
      if c.isAtAny fun x => isBreak x && decide (1 < x.utf8Size) then
        return (← pastWideBreak g s 0).remark?
      skipAll g s 1 n

/-- Moves past comments, the first of which is at the cursor.  `scanned` is the line on which the
search for a token started, and `afterColon` says whether the token before is a colon. -/
def skipGroup (inFlow : Bool) (indent scanned : Nat) (afterColon : Bool) :
    Reading (Option Remark) := do
  let c ← get
  let below := c.mark.line + 1 - c.breaks + if c.breaks = 0 ∧ 1 < c.mark.column then 1 else 0
  skipAll
    { inFlow, indent, below := if scanned = 0 ∨ afterColon then none else some below }
    { line := c.mark.line, column := c.mark.column, near := decide (c.breaks ≤ 1) }
    0 (c.remaining + 1)

def findOnLine (ahead : Nat) : Nat → Reading (Option Nat)
  | 0 => return none
  | n + 1 => do
    match ← attempt (need (ahead + 1)) with
    | none => return none
    | some _ =>
      match (← get).ahead ahead with
      | some '#' => return some ahead
      | some x => if isBlank x then findOnLine (ahead + 1) n else return none
      | none => return none

def skipOnLine : Reading Unit := do
  if 0 < (← get).breaks then return
  match ← findOnLine 0 reach with
  | none => return
  | some found => skipAt ((← get).mark.index + found) found

end Comment

end Extraction.Yaml
