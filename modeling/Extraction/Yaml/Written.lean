import Extraction.Text.Quoted
import Extraction.Yaml.Cursor
import Extraction.Yaml.Scalar

/-!
# Writing texts as scalars

A text is written without quotes if it then reads back as the same text.  Otherwise it stands in
single quotes, or in double quotes if it would denote something else, or has characters that need
escapes.  A text of several lines is written line by line.
-/

namespace Extraction.Yaml.Written

def isSexagesimal (s : String) : Bool :=
  let unsigned :=
    match s.toList with
    | '-' :: rest => rest
    | '+' :: rest => rest
    | cs => cs
  let isPlace (cs : List Char) : Bool :=
    match cs with
    | [d] => d.isDigit
    | [t, d] => decide ('0' ≤ t) && decide (t ≤ '5') && d.isDigit
    | _ => false
  let last (cs : List Char) : Bool :=
    isPlace (cs.takeWhile (· ≠ '.')) &&
      ((cs.dropWhile (· ≠ '.')).drop 1).all fun c => c.isDigit || c == '_'
  match (String.ofList unsigned).splitOn ":" with
  | [] | [_] => false
  | first :: rest =>
    (match first.toList with
      | [] => false
      | c :: cs => c.isDigit && cs.all fun c => c.isDigit || c == '_') &&
    (rest.dropLast.all fun p => isPlace p.toList) && last (rest.getLastD "").toList

/-- Without quotes the text would denote something else, here or in earlier versions of the
format. -/
def isAmbiguous (s : String) : Bool :=
  (Scalar.ofPlain s).tag != .text || isSexagesimal s || (Scalar.flagWord? s).isSome

def isPrintable (c : Char) : Bool :=
  c == '\n' || (decide (' ' ≤ c) && decide (c ≤ '~')) ||
    (decide ('\u00a0' ≤ c) && decide (c ≤ '\ufffd') && c != '\ufeff')

/-- Whether one of two characters that follow each other is a blank and the other a break, in this
order. -/
def adjacent (first second : Char → Bool) : List Char → Bool
  | a :: b :: rest => (first a && second b) || adjacent first second (b :: rest)
  | _ => false

def isSpace (c : Char) : Bool := c == ' '

/-- Only escapes can write a character of the text. -/
def needsEscapes (cs : List Char) : Bool :=
  cs.any (fun c => !isPrintable c && c != '\t') || adjacent isSpace isBreak cs

/-- An indicator within the text would end it, or start something else. -/
def hasIndicator (preceded : Bool) : List Char → Bool
  | [] => false
  | c :: rest =>
    let followed := rest.isEmpty || rest.head?.any isBlank
    (c == ':' && followed) || (c == '#' && preceded) || hasIndicator (isBlank c || isBreak c) rest

def startsWithIndicator (cs : List Char) : Bool :=
  let followed := (cs.drop 1).isEmpty || (cs.drop 1).head?.any isBlank
  cs.take 3 == ['-', '-', '-'] || cs.take 3 == ['.', '.', '.'] ||
    match cs with
    | [] => false
    | c :: _ => (c == '-' || c == '?' || c == ':') && followed ||
        c ∈ ['#', ',', '[', ']', '{', '}', '&', '*', '!', '|', '>', '\'', '"', '%', '@', '\x60']

def isPlain (cs : List Char) : Bool :=
  !startsWithIndicator cs && !hasIndicator true cs && cs.head? != some ' ' &&
    cs.getLast? != some ' ' && !cs.any (fun c => isBreak c || c == '\t') && !needsEscapes cs

def isSingle (cs : List Char) : Bool :=
  !cs.contains '\t' && !needsEscapes cs && !adjacent isBreak isSpace cs

def indentation (margin : Nat) : List Char :=
  List.replicate margin ' '

/-- The inside of single quotes: a quote is written twice, and what follows a line break is
indented. -/
def quotedChars (margin : Nat) (afterBreak : Bool) : List Char → List Char
  | [] => []
  | c :: rest =>
    if isBreak c then c :: quotedChars margin true rest
    else
      (if afterBreak then indentation margin else []) ++ (if c = '\'' then [c, c] else [c]) ++
        quotedChars margin false rest

def single (margin : Nat) (cs : List Char) : String :=
  String.ofList ('\'' :: quotedChars margin false cs ++ ['\''])

def letters : List (Char × Char) :=
  [('\x00', '0'), ('\x07', 'a'), ('\x08', 'b'), ('\t', 't'), ('\n', 'n'), ('\x0b', 'v'),
    ('\x0c', 'f'), ('\r', 'r'), ('\x1b', 'e'), ('"', '"'), ('\\', '\\'), ('\u0085', 'N'),
    ('\u00a0', '_'), ('\u2028', 'L'), ('\u2029', 'P')]

/-- A character in double quotes, with or without need for an escape. -/
def escape (needed : Bool) (c : Char) : List Char :=
  if !needed && isPrintable c && !isBreak c && c != '"' && c != '\\' then [c]
  else
    match letters.lookup c with
    | some letter => ['\\', letter]
    | none =>
      let (mark, width) := if c.toNat < 0x100 then ('x', 2) else if c.toNat < 0x10000 then ('u', 4)
        else ('U', 8)
      '\\' :: mark :: (Quoted.hex width c.toNat).map Char.toUpper

/-- The text in double quotes.  If it starts with a byte order mark, all its characters are
escaped. -/
def double (cs : List Char) : String :=
  String.ofList ('"' :: cs.flatMap (escape (cs.head? == some byteOrderMark)) ++ ['"'])

/-- The lines of a text, each indented.  A text that does not start with a line break starts on a
line of its own. -/
def literalLines (margin : Nat) (onHead afterBreak : Bool) : List Char → List Char
  | [] => []
  | c :: rest =>
    if isBreak c then c :: literalLines margin false true rest
    else
      (if onHead then ['\n'] else []) ++ (if afterBreak then indentation margin else []) ++
        c :: literalLines margin false false rest

/-- The text line by line.  The head says whether the text starts with a blank, and how it ends. -/
def literal (margin : Nat) (cs : List Char) : String :=
  let start := if cs.head?.any fun c => c == ' ' || isBreak c then ['2'] else []
  let ending :=
    match cs.reverse with
    | [] => ['-']
    | c :: before =>
      if !isBreak c then ['-'] else if before.head?.all isBreak then ['+'] else []
  String.ofList ('|' :: start ++ ending ++ literalLines margin true true cs)

def text (margin : Nat) (s : String) : String :=
  let cs := s.toList
  if cs.contains '\n' then
    if cs.getLast? != some ' ' && !needsEscapes cs then literal margin cs else double cs
  else if isAmbiguous s then double cs
  else if isPlain cs then s
  else if isSingle cs then single margin cs
  else double cs

/-- A line that ends with a scalar.  A scalar that ends with a line break ends the line. -/
def line (start : String) (margin : Nat) (s : String) : String :=
  let written := text margin s
  start ++ written ++ (if written.toList.getLast?.any isBreak then "" else "\n")

end Extraction.Yaml.Written
