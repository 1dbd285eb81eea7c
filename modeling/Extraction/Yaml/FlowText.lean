import Extraction.Yaml.Cursor

/-!
# Plain and quoted scalars

The text of scalars whose lines are folded: a line break between words counts as a blank.
-/

namespace Extraction.Yaml

/-- Text in which a line break between words counts as a blank, and further ones as themselves.  The
text and the blanks are kept in reverse. -/
structure Folding where
  text : List Char := []
  blanks : List Char := []
  breaks : Option (List Char × List Char) := none

namespace Folding

def blank (f : Folding) (c : Char) : Folding :=
  if f.breaks.isSome then f else { f with blanks := c :: f.blanks }

def newline (f : Folding) (c : Char) : Folding :=
  match f.breaks with
  | none => { f with blanks := [], breaks := some ([c], []) }
  | some (first, more) => { f with breaks := some (first, more ++ [c]) }

def flush (f : Folding) : Folding :=
  match f.breaks with
  | none => { text := f.blanks ++ f.text }
  | some (first, more) =>
    if first = ['\n'] then { text := (if more.isEmpty then [' '] else more.reverse) ++ f.text }
    else { text := (first ++ more).reverse ++ f.text }

def put (f : Folding) (c : Char) : Folding :=
  let f := f.flush
  { f with text := c :: f.text }

/-- A line break that leaves no trace. -/
def joinLine (f : Folding) : Folding :=
  { f.flush with breaks := some ([], []) }

def result (f : Folding) : String :=
  String.ofList f.text.reverse

end Folding

namespace FlowText

open Reading

/-- Reads blanks and line breaks.  Left of the margin a tab may not stand. -/
def gap (margin start : Nat) (f : Folding) : Nat → Reading Folding
  | 0 => return f
  | n + 1 => do
    let c ← get
    match c.ahead 0 with
    | none => return f
    | some x =>
      if isBreak x then
        need 2
        let f := ((← readBreak).map f.newline).getD f
        need 1
        gap margin start f n
      else if isBlank x then
        if f.breaks.isSome && decide (c.mark.column < margin) && x == '\t' then
          fail .tabInIndentation start
        skip
        need 1
        gap margin start (f.blank x) n
      else return f

def endsInFlow (c : Char) : Bool :=
  [',', '?', '[', ']', '\x7b', '\x7d'].contains c

/-- Reads a plain scalar up to the next blank, or its end. -/
def plainWord (flow : Bool) (f : Folding) : Nat → Reading Folding
  | 0 => return f
  | n + 1 => do
    let c ← get
    match c.ahead 0 with
    | none => return f
    | some x =>
      if isBlank x || isBreak x || (x == ':' && c.endsWord 1) || (flow && endsInFlow x) then
        return f
      skip
      need 2
      plainWord flow (f.put x) n

def plainWords (flow : Bool) (margin start : Nat) (f : Folding) : Nat → Reading Folding
  | 0 => return f
  | n + 1 => do
    need 4
    let c ← get
    if c.marksDocument || c.isAt '#' then return f
    let f ← plainWord flow f c.remaining
    let c ← get
    if c.isAtAny fun x => isBlank x || isBreak x then
      need 1
      let f ← gap margin start f c.remaining
      if !flow && decide ((← get).mark.column < margin) then return f
      plainWords flow margin start f n
    else return f

/-- Reads a scalar without quotes, whose lines reach the margin, and says whether it was ended by a
line break. -/
def plain (flow : Bool) (margin : Nat) : Reading (String × Bool) := do
  let c ← get
  let f ← plainWords flow margin c.mark.line {} (c.remaining + 1)
  return (f.result, f.breaks.isSome)

def escapes : List (Char × Char) :=
  [('0', '\x00'), ('a', '\x07'), ('b', '\x08'), ('t', '\t'), ('\t', '\t'), ('n', '\n'),
    ('v', '\x0b'), ('f', '\x0c'), ('r', '\r'), ('e', '\x1b'), (' ', ' '), ('"', '"'), ('\'', '\''),
    ('\\', '\\'), ('N', '\u0085'), ('_', '\u00a0'),
    ('L', '\u2028'), ('P', '\u2029')]

def hexLength? (c : Char) : Option Nat :=
  [('x', 2), ('u', 4), ('U', 8)].lookup c

def hexDigit? (c : Char) : Option Nat :=
  if c.isDigit then some (c.toNat - '0'.toNat)
  else if 'a' ≤ c ∧ c ≤ 'f' then some (c.toNat - 'a'.toNat + 10)
  else if 'A' ≤ c ∧ c ≤ 'F' then some (c.toNat - 'A'.toNat + 10)
  else none

def hexEscape (start length : Nat) : Reading Char := do
  skipMany 2
  need length
  let c ← get
  match (List.range length).mapM fun k => (c.ahead k).bind hexDigit? with
  | none => fail .badHexEscape start
  | some digits =>
    let code := digits.foldl (fun v d => 16 * v + d) 0
    if code.isValidChar then
      skipMany length
      return Char.ofNat code
    else fail .badEscapeCode start

def escape (start : Nat) : Reading Char := do
  match (← get).ahead 1 with
  | none => fail .unknownEscape start
  | some e =>
    match escapes.lookup e, hexLength? e with
    | some x, _ =>
      skipMany 2
      return x
    | none, some length => hexEscape start length
    | none, none => fail .unknownEscape start

/-- Reads a quoted scalar up to the next blank, or the closing quote. -/
def quotedWord (quote : Char) (start : Nat) (f : Folding) : Nat → Reading Folding
  | 0 => return f
  | n + 1 => do
    let c ← get
    match c.ahead 0 with
    | none => return f
    | some x =>
      if isBlank x || isBreak x then return f
      else if quote == '\'' && x == quote && c.ahead 1 == some quote then
        skipMany 2
        need 2
        quotedWord quote start (f.put x) n
      else if x == quote then return f
      else if quote == '"' && x == '\\' && (c.ahead 1).any isBreak then
        need 3
        skip
        skipBreak
        return f.joinLine
      else if quote == '"' && x == '\\' then
        let x ← escape start
        need 2
        quotedWord quote start (f.put x) n
      else
        skip
        need 2
        quotedWord quote start (f.put x) n

def quotedWords (quote : Char) (start : Nat) (f : Folding) : Nat → Reading Folding
  | 0 => return f
  | n + 1 => do
    need 4
    let c ← get
    if c.marksDocument then fail .documentInQuotes start
    if (c.ahead 0).isNone then fail .endInQuotes start
    let f ← quotedWord quote start f c.remaining
    need 1
    let c ← get
    if c.isAt quote then return f.flush
    let f ← gap 0 start f c.remaining
    quotedWords quote start f n

def quoted (quote : Char) : Reading String := do
  let start := (← get).mark.line
  skip
  let f ← quotedWords quote start {} ((← get).remaining + 1)
  skip
  return f.result

end FlowText

end Extraction.Yaml
