import Extraction.Text.Boundaries
import Extraction.Text.Glyph

/-!
# Lexemes of Go source text

The source is a list of bytes, read as characters of UTF-8; a byte that starts no character is read
as U+FFFD.  The lexemes are the tokens and comments of the language, each with the bytes it takes
and with the number of bytes of its literal.  The two differ where the literal is not the text
itself: carriage returns are left out of raw strings and comments, and a stray byte stands as
U+FFFD.  A malformed lexeme reaches as far as the language's scanner reads.
-/

namespace Extraction.GoCode

inductive LexemeKind where
  | token
  | comment
  | separator
deriving DecidableEq, Repr

structure Lexeme where
  kind : LexemeKind
  start : Nat
  taken : Nat
  /-- The number of bytes of the literal. -/
  literal : Nat
deriving DecidableEq, Repr

namespace Lexeme

/-- The operators, longest first. -/
def operators : List String :=
  ["<<=", ">>=", "&^=", "...",
    "+=", "++", "-=", "--", "*=", "/=", "%=", "^=", "<=", "<<", "<-", ">=", ">>", "==", "!=",
    "&=", "&&", "&^", "|=", "||", ":=",
    "+", "-", "*", "/", "%", "^", "<", ">", "=", "!", "&", "|", "~", ":", ".", ",",
    "(", ")", "[", "]", "\x7b", "\x7d"]

def startsWith : List Glyph → List Char → Bool
  | _, [] => true
  | [], _ :: _ => false
  | g :: gs, c :: cs => g.is c && startsWith gs cs

def afterDigits (hex : Bool) (gs : List Glyph) : List Glyph :=
  gs.dropWhile fun g => g.is '_' || if hex then g.isHex else g.isDecimal

def afterExponent : List Glyph → List Glyph
  | [] => []
  | g :: rest =>
    if g.isEither 'e' 'E' || g.isEither 'p' 'P' then
      match rest with
      | s :: rest' => afterDigits false (if s.is '+' || s.is '-' then rest' else rest)
      | [] => []
    else g :: rest

/-- What is left after a number that starts with `g`.  Digits that the base does not have are taken
all the same. -/
def afterNumber (g : Glyph) (rest : List Glyph) : List Glyph :=
  let (hex, afterInteger) :=
    if g.is '.' then (false, g :: rest)
    else
      match g.is '0', rest with
      | true, r :: rest' =>
        if r.isEither 'x' 'X' then (true, afterDigits true rest')
        else if r.isEither 'o' 'O' || r.isEither 'b' 'B' then (false, afterDigits false rest')
        else (false, afterDigits false rest)
      | _, _ => (false, afterDigits false rest)
  let afterFraction :=
    match afterInteger with
    | p :: rest' => if p.is '.' then afterDigits hex rest' else afterInteger
    | [] => []
  match afterExponent afterFraction with
  | i :: rest' => if i.is 'i' then rest' else i :: rest'
  | [] => []

/-- How many characters a quoted literal goes on for.  It ends after the quote, or before the end of
the line; a backslash takes a backslash or quote with it. -/
def quotedLength (quote : Char) : List Glyph → Nat
  | [] => 0
  | [g] => if g.is '\n' then 0 else 1
  | g :: h :: rest =>
    if g.is '\n' then 0
    else if g.is quote then 1
    else if g.is '\\' && (h.is '\\' || h.is quote) then quotedLength quote rest + 2
    else quotedLength quote (h :: rest) + 1

def rawLength : List Glyph → Nat
  | [] => 0
  | g :: rest => if g.is '\x60' then 1 else rawLength rest + 1

def commentLength : List Glyph → Nat
  | [] => 0
  | [_] => 1
  | g :: h :: rest => if g.is '*' && h.is '/' then 2 else commentLength (h :: rest) + 1

def withoutReturns (gs : List Glyph) : Nat :=
  Glyph.bytes (gs.filter fun g => !g.is '\r')

/-- The bytes of a general comment without its carriage returns, save one between a star and a slash
beyond the opening, which would close the comment if it went. -/
def commentLiteral (written : Nat) (afterStar : Bool) : List Glyph → Nat
  | [] => written
  | g :: rest =>
    if g.is '\r' && !(decide (2 < written) && afterStar && rest.head?.any fun h => h.is '/') then
      commentLiteral written afterStar rest
    else commentLiteral (written + g.width) (g.is '*') rest

/-- The kind of the lexeme that starts with `g`, how many characters it goes on for, and the bytes
of its literal. -/
def shape (g : Glyph) (rest : List Glyph) : LexemeKind × Nat × Nat :=
  let upTo (n : Nat) : Nat := Glyph.bytes (g :: rest.take n)
  let token (n : Nat) : LexemeKind × Nat × Nat := (.token, n, upTo n)
  if g.isLetter then token (rest.takeWhile (·.continuesName)).length
  else if g.isDecimal || (g.is '.' && rest.head?.any (·.isDecimal)) then
    token (rest.length - (afterNumber g rest).length)
  else if g.is '"' then token (quotedLength '"' rest)
  else if g.is '\'' then token (quotedLength '\'' rest)
  else if g.is '\x60' then
    let n := rawLength rest
    (.token, n, withoutReturns (g :: rest.take n))
  else if startsWith (g :: rest) ['/', '/'] then
    let n := (rest.takeWhile fun h => !h.is '\n').length
    (.comment, n, withoutReturns (g :: rest.take n))
  else if startsWith (g :: rest) ['/', '*'] then
    let n := commentLength (rest.drop 1) + 1
    (.comment, n, commentLiteral 0 false (g :: rest.take n))
  else if g.is ';' then (.separator, 0, 1)
  else
    match operators.find? fun op => startsWith (g :: rest) op.toList with
    | some op => token (op.length - 1)
    | none => (.token, 0, Glyph.encodedWidth g.code)

def scan (offset : Nat) (gs : List Glyph) : List Lexeme :=
  match gs with
  | [] => []
  | g :: rest =>
    if g.isBlank then scan (offset + g.width) rest
    else
      let (kind, n, literal) := shape g rest
      let taken := Glyph.bytes (g :: rest.take n)
      ⟨kind, offset, taken, literal⟩ :: scan (offset + taken) (rest.drop n)
termination_by gs.length
decreasing_by all_goals (simp only [List.length_cons, List.length_drop]; omega)

/-- The lexemes of a source.  A byte order mark at its very start is skipped. -/
def ofSource (source : List UInt8) : List Lexeme :=
  match Glyph.ofBytes source with
  | g :: rest => if g.code = Glyph.byteOrderMark then scan g.width rest else scan 0 (g :: rest)
  | [] => []

def span (l : Lexeme) : Span :=
  ⟨l.start, l.start + l.literal⟩

end Lexeme

def boundariesOf (source : List UInt8) : Boundaries :=
  let lexemes := Lexeme.ofSource source
  let spans (kind : LexemeKind) : Array Span :=
    ((lexemes.filter fun l => l.kind = kind).map (·.span)).toArray
  .ofSpans (spans .token) (spans .comment)

end Extraction.GoCode
