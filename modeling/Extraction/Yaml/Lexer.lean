import Std.Data.HashMap
import Extraction.Yaml.BlockText
import Extraction.Yaml.Comment
import Extraction.Yaml.Token

/-!
# From text to tokens

Tokens are read when they are asked for, with two more ahead of the one that is next, and further
ones as long as a colon may make that one a key.  `Lexing.peek` gives the next token and
`Lexing.take` moves past it.  An error leaves the state in which it was met, so that a second look
goes on from there.
-/

namespace Extraction.Yaml

/-- What may become a key if a colon follows on its line. -/
structure Candidate where
  possible : Bool := false
  /-- Nothing but a key may stand here. -/
  required : Bool := false
  number : Nat := 0
  mark : Mark := {}

structure Lexer where
  cursor : Cursor
  tokens : Array Placed := #[]
  taken : Nat := 0
  available : Bool := false
  /-- The columns of the open block collections, innermost first. -/
  indents : List Nat := []
  depth : Nat := 0
  /-- The candidate outside all flow collections, and those in each open one, innermost last. -/
  candidates : Array Candidate := #[{}]
  /-- The place of the candidate that stands before a token. -/
  places : Std.HashMap Nat Nat := {}
  keyAllowed : Bool := true
  /-- The remarks on tokens that were not reached yet. -/
  waiting : List Remark := []
  /-- The number of remarks that were reached and belong to no value yet. -/
  remarks : Nat := 0
  /-- Whether an empty line follows the last of them. -/
  apart : Bool := false

abbrev Lexing := EStateM SyntaxError Lexer

namespace Lexer

def ofText (text : String) : Lexer :=
  { cursor := { source := .ofText text } }

def inFlow (l : Lexer) : Bool :=
  decide (1 < l.candidates.size)

def candidate (l : Lexer) : Candidate :=
  l.candidates.back?.getD {}

/-- One more than the column of the innermost block collection. -/
def margin (l : Lexer) : Nat :=
  (l.indents.head?.map (· + 1)).getD 0

def setCandidate (l : Lexer) (k : Candidate) : Lexer :=
  { l with candidates := l.candidates.pop.push k }

/-- Puts a token before the one of the given number, or last if that one was taken. -/
def insert (l : Lexer) (number : Nat) (token : Token) (start : Mark) : Lexer :=
  if number < l.taken then { l with tokens := l.tokens.push ⟨token, start⟩ }
  else { l with tokens := l.tokens.insertIdxIfInBounds number ⟨token, start⟩ }

def append (l : Lexer) (token : Token) : Lexer :=
  { l with tokens := l.tokens.push ⟨token, l.cursor.mark⟩ }

def allowKey (l : Lexer) (allowed : Bool) : Lexer :=
  { l with keyAllowed := allowed }

/-- Takes up the remarks on a token that is reached.  The end of a block has none. -/
def reach (l : Lexer) (t : Placed) : Lexer :=
  if l.waiting.isEmpty || t.token == .blockEnd then l
  else
    let (passed, waiting) := l.waiting.span fun r => decide (r.start ≤ t.start.index)
    { l with
      waiting, remarks := l.remarks + passed.length,
      apart := (passed.getLast?.map (·.apart)).getD l.apart }

def giveRemarks (l : Lexer) : Lexer :=
  { l with remarks := 0 }

end Lexer

namespace Lexing

open Lexer

def reading (r : Reading α) : Lexing α := fun l =>
  match r l.cursor with
  | .ok a cursor => .ok a { l with cursor }
  | .error e cursor => .error e { l with cursor }

def attempt (x : Lexing α) : Lexing (Option α) := fun l =>
  match x l with
  | .ok a l => .ok (some a) l
  | .error e l => .ok none { l with cursor := { l.cursor with noticed := some e } }

def settle : Lexing Unit := do
  match (← get).cursor.noticed with
  | none => return
  | some e => throw e

def fail (problem : Problem) (context : Nat) : Lexing α := do
  throw ((← get).cursor.error problem context)

def failHere (problem : Problem) : Lexing α := do
  fail problem (← get).cursor.mark.line

def skipComments (scanned : Nat) : Lexing Unit := do
  let l ← get
  let before := if l.tokens.back?.any (·.token == .comma) then l.tokens.pop.back?
    else l.tokens.back?
  match ← reading (Comment.skipGroup l.inFlow (l.indents.headD 0) scanned
    (before.any (·.token == .value))) with
  | none => return
  | some remark => modify fun l => { l with waiting := l.waiting ++ [remark] }

/-- Moves to the next token, from a place on the given line.  A tab is skipped only where it cannot
be taken for indentation.  A character at the start of a line is skipped if parts were last taken in
at a byte order mark. -/
def skipToToken (scanned : Nat) : Nat → Lexing Unit
  | 0 => return
  | n + 1 => do
    reading (Reading.need 1)
    let c := (← get).cursor
    if c.mark.column = 0 ∧ c.source.chars[c.windowStart]? = some byteOrderMark then
      reading Reading.skip
    let l ← get
    let tabs := l.inFlow || !l.keyAllowed
    reading (Reading.skipWhile fun x => x == ' ' || (tabs && x == '\t'))
    if (← get).cursor.isAt '#' then skipComments scanned
    if (← get).cursor.isAtAny isBreak then
      reading Reading.endLine
      if !l.inFlow then modify (·.allowKey true)
      skipToToken scanned n

/-! ## Candidates for keys -/

/-- Whether a candidate may still become a key: it has to be near, and on the line of the cursor. -/
def isPossible (place : Nat) : Lexing Bool := do
  let l ← get
  let k := l.candidates.getD place {}
  if !k.possible then return false
  let here := l.cursor.mark
  if here.line ≤ k.mark.line ∧ here.index ≤ k.mark.index + 1024 then return true
  if k.required then fail .missingColon k.mark.line
  set { l with candidates := l.candidates.setIfInBounds place { k with possible := false } }
  return false

def dropCandidate : Lexing Unit := do
  let l ← get
  let k := l.candidate
  if k.possible then
    if k.required then fail .missingColon k.mark.line
    set { l.setCandidate { k with possible := false } with places := l.places.erase k.number }

/-- Makes the token that starts here a candidate, where a key may stand. -/
def offerCandidate : Lexing Unit := do
  if (← get).keyAllowed then
    dropCandidate
    modify fun l =>
      let mark := l.cursor.mark
      let required := !l.inFlow && l.margin == mark.column + 1
      let number := l.tokens.size
      { l.setCandidate ⟨true, required, number, mark⟩ with
        places := l.places.insert number (l.candidates.size - 1) }

/-! ## Block collections -/

/-- Closes the block collections right of a column; without one, all of them. -/
def closeBlocks (column : Option Nat) : Lexing Unit :=
  modify fun l =>
    if l.inFlow then l
    else
      let closed := (l.indents.takeWhile fun i => column.all fun c => decide (c < i)).length
      { l with
        tokens := l.tokens ++ List.replicate closed (Placed.mk .blockEnd l.cursor.mark)
        indents := l.indents.drop closed
        depth := l.depth - closed }

/-- Opens a block collection at a column, unless it is open already, before the token of the given
number. -/
def openBlock (token : Token) (mark : Mark) (number : Nat) : Lexing Unit := do
  let l ← get
  if !l.inFlow && decide (l.margin ≤ mark.column) then
    set { l with indents := mark.column :: l.indents, depth := l.depth + 1 }
    if maxDepth ≤ l.depth then fail .tooDeep l.candidate.mark.line
    modify (·.insert number token mark)

def openBlockHere (token : Token) : Lexing Unit := do
  let l ← get
  openBlock token l.cursor.mark l.tokens.size

/-! ## Tokens -/

def sign (token : Token) (length : Nat) : Lexing Unit := do
  modify (·.append token)
  reading (Reading.skipMany length)

def readToken (r : Reading Token) : Lexing Unit := do
  let start := (← get).cursor.mark
  let token ← reading r
  modify fun l => { l with tokens := l.tokens.push ⟨token, start⟩ }

def finishStream : Lexing Unit := do
  modify fun l =>
    let mark := l.cursor.mark
    if mark.column = 0 then l
    else
      { l with
        cursor := { l.cursor with mark := { mark with line := mark.line + 1, column := 0 } } }
  closeBlocks none
  dropCandidate
  modify fun l => (l.allowKey false).append .streamEnd

def readDirective : Lexing Unit := do
  closeBlocks none
  dropCandidate
  modify (·.allowKey false)
  readToken (return .directive (← Directive.read))

def readDocumentMark (token : Token) : Lexing Unit := do
  closeBlocks none
  dropCandidate
  modify (·.allowKey false)
  sign token 3

def openFlow (token : Token) : Lexing Unit := do
  offerCandidate
  let l ← get
  let mark := l.cursor.mark
  set { l with candidates := l.candidates.push ⟨false, false, l.tokens.size, mark⟩ }
  if maxDepth < l.candidates.size then fail .tooDeep mark.line
  modify (·.allowKey true)
  sign token 1

def closeFlow (token : Token) : Lexing Unit := do
  dropCandidate
  modify fun l =>
    if l.inFlow then
      { l with
        candidates := l.candidates.pop, places := l.places.erase l.candidate.number,
        keyAllowed := false }
    else l.allowKey false
  sign token 1

def readComma : Lexing Unit := do
  dropCandidate
  modify (·.allowKey true)
  sign .comma 1

def readEntry : Lexing Unit := do
  let l ← get
  if !l.inFlow && !l.keyAllowed then failHere .entryNotAllowed
  openBlockHere .blockSequence
  dropCandidate
  modify (·.allowKey true)
  sign .entry 1

def readKey : Lexing Unit := do
  let l ← get
  if !l.inFlow && !l.keyAllowed then failHere .keyNotAllowed
  openBlockHere .blockMapping
  dropCandidate
  modify (·.allowKey !l.inFlow)
  sign .key 1

/-- Reads a colon, which makes the candidate a key if there is one. -/
def readValue : Lexing Unit := do
  if ← isPossible ((← get).candidates.size - 1) then
    let k := (← get).candidate
    modify (·.insert k.number .key k.mark)
    openBlock .blockMapping k.mark k.number
    modify fun l =>
      { l.setCandidate { k with possible := false } with
        places := l.places.erase k.number, keyAllowed := false }
  else
    let l ← get
    if !l.inFlow && !l.keyAllowed then failHere .valueNotAllowed
    openBlockHere .blockMapping
    modify (·.allowKey !l.inFlow)
  sign .value 1

def readContent (r : Reading Token) : Lexing Unit := do
  offerCandidate
  modify (·.allowKey false)
  readToken r

def readPlain : Lexing Unit := do
  offerCandidate
  modify (·.allowKey false)
  let l ← get
  let (text, ended) ← reading (FlowText.plain l.inFlow l.margin)
  modify fun l' =>
    { l' with tokens := l'.tokens.push ⟨.scalar true text, l.cursor.mark⟩, keyAllowed := ended }

def readBlock (literal : Bool) : Lexing Unit := do
  dropCandidate
  modify (·.allowKey true)
  let outer := (← get).indents.head?
  readToken (return .scalar false (← BlockText.read literal outer))

def indicators : List Char :=
  ['?', ':', ',', '[', ']', '\x7b', '\x7d', '#', '&', '*', '!', '|', '>', '\'', '"', '%',
    '@', '\x60']

def readTokenAt (x : Char) : Lexing Unit := do
  let l ← get
  let alone := l.cursor.endsWord 1
  match x with
  | '[' => openFlow .openSequence
  | '\x7b' => openFlow .openMapping
  | ']' => closeFlow .closeSequence
  | '\x7d' => closeFlow .closeMapping
  | ',' => readComma
  | '*' => readContent (return .reference (← Property.readName))
  | '&' => readContent (return .anchor (← Property.readName))
  | '!' =>
    readContent do
      let (handle, text) ← Property.readTag
      return .tag handle text
  | '\'' => readContent (return .scalar false (← FlowText.quoted '\''))
  | '"' => readContent (return .scalar false (← FlowText.quoted '"'))
  | _ =>
    if x = '-' ∧ alone then readEntry
    else if x = '?' ∧ (l.inFlow ∨ alone) then readKey
    else if x = ':' ∧ (l.inFlow ∨ alone) then readValue
    else if (x = '|' ∨ x = '>') ∧ !l.inFlow then readBlock (x == '|')
    else if x = '?' ∨ x = ':' ∨ (x ∉ indicators ∧ !isBlank x) then readPlain
    else failHere .strayCharacter

/-- Reads the next token, and those that its place implies. -/
def readNext : Lexing Unit := do
  reading (Reading.need 1)
  if (← get).tokens.isEmpty then modify (·.append .streamStart)
  else
    let c := (← get).cursor
    skipToToken c.mark.line (c.remaining + 1)
    closeBlocks (some (← get).cursor.mark.column)
    reading (Reading.need 4)
    let c := (← get).cursor
    match c.ahead 0 with
    | none => finishStream
    | some x =>
      if c.mark.column = 0 ∧ x = '%' then readDirective
      else if c.isAtMark '-' then readDocumentMark .documentStart
      else if c.isAtMark '.' then readDocumentMark .documentEnd
      else
        readTokenAt x
        if (← get).tokens.back?.map (·.token) ≠ some .entry then reading Comment.skipOnLine

/-- Reads on until the next token is known for what it is. -/
def prepare : Nat → Lexing Unit
  | 0 => return
  | n + 1 => do
    let l ← get
    let open? ←
      if l.taken + 2 < l.tokens.size then
        match l.places[l.taken]? with
        | none => pure false
        | some place => isPossible place
      else pure true
    if open? then
      readNext
      prepare n

def peek : Lexing Placed := do
  let l ← get
  if !l.available then
    prepare (l.cursor.remaining + 4)
    modify fun l => { l with available := true }
  let l ← get
  let t := l.tokens.getD l.taken ⟨.streamEnd, l.cursor.mark⟩
  set (l.reach t)
  return t

def take : Lexing Unit :=
  modify fun l => { l with available := false, taken := l.taken + 1 }

end Lexing

end Extraction.Yaml
