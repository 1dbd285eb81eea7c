import Extraction.Text.Glyph
import Extraction.Yaml.FlowText

/-!
# Anchors, tags and directives

The names that are put before a value, and the lines before a document that say how they are to be
understood.
-/

namespace Extraction.Yaml

namespace Property

open Reading

def endsName (c : Char) : Bool :=
  isBlank c || isBreak c || ['?', ':', ',', ']', '\x7d', '%', '@', '\x60'].contains c

def readName : Reading String := do
  let start := (← get).mark.line
  skip
  let name ← readWhile isWordChar
  if name.isEmpty || !((← get).ahead 0).all endsName then fail .missingName start
  return String.ofList name

def isTagChar (c : Char) : Bool :=
  isWordChar c ||
    [';', '/', '?', ':', '@', '&', '=', '+', '$', ',', '.', '!', '~', '*', '\'', '(', ')', '[', ']',
    '%'].contains c

/-- The byte at the cursor, which is written with a percent sign and two hexadecimal digits. -/
def peekByte (start : Nat) : Reading Nat := do
  need 3
  let c ← get
  match c.ahead 0, (c.ahead 1).bind FlowText.hexDigit?, (c.ahead 2).bind FlowText.hexDigit? with
  | some '%', some high, some low => return 16 * high + low
  | _, _, _ => fail .missingTagEscape start

/-- The number of bytes of a character that starts with a byte; zero if none does. -/
def width (lead : Nat) : Nat :=
  if lead < 0x80 then 1
  else if lead / 0x20 = 6 then 2
  else if lead / 0x10 = 14 then 3
  else if lead / 8 = 30 then 4
  else 0

def readTrail (start : Nat) (bytes : List UInt8) : Nat → Reading (List UInt8)
  | 0 => return bytes.reverse
  | n + 1 => do
    let byte ← peekByte start
    if byte / 0x40 ≠ 2 then fail .badTagTrail start
    skipMany 3
    readTrail start (byte.toUInt8 :: bytes) n

/-- Reads a character whose bytes are written with hexadecimal digits.  Bytes that are no character
are shown as replacement characters. -/
def readEscape (start : Nat) : Reading (List Char) := do
  let lead ← peekByte start
  if width lead = 0 then fail .badTagLead start
  skipMany 3
  let bytes ← readTrail start [lead.toUInt8] (width lead - 1)
  return (Glyph.textOf bytes).toList

def readTagChars (start : Nat) (taken : List Char) : Nat → Reading (List Char)
  | 0 => return taken.reverse
  | n + 1 => do
    match ((← get).ahead 0).filter isTagChar with
    | none => return taken.reverse
    | some '%' =>
      let cs ← readEscape start
      need 1
      readTagChars start (cs.reverse ++ taken) n
    | some x =>
      skip
      need 1
      readTagChars start (x :: taken) n

/-- Reads what follows the handle of a tag; something has to, unless a part was read before. -/
def readTagText (start : Nat) (before : List Char) : Reading String := do
  need 1
  let text ← readTagChars start [] (← get).remaining
  if before.isEmpty && text.isEmpty then fail .missingTagText start
  return String.ofList (before.drop 1 ++ text)

/-- Reads a handle: an exclamation mark, and a name that a second one may close. -/
def readHandle (start : Nat) : Reading (List Char) := do
  need 1
  if !(← get).isAt '!' then fail .missingTagMark start
  skip
  let name ← readWhile isWordChar
  if (← get).isAt '!' then
    skip
    return '!' :: name ++ ['!']
  else return '!' :: name

def isClosed (handle : List Char) : Bool :=
  decide (1 < handle.length) && handle.getLast? == some '!'

/-- Reads a tag as a handle and the text after it.  A tag in angle brackets has no handle, nor has
the mark alone. -/
def readTag : Reading (String × String) := do
  let start := (← get).mark.line
  need 2
  let tag ←
    if (← get).ahead 1 == some '<' then do
      skipMany 2
      let text ← readTagText start []
      if !(← get).isAt '>' then fail .missingTagClose start
      skip
      pure ("", text)
    else do
      let handle ← readHandle start
      if isClosed handle then
        let text ← readTagText start []
        pure (String.ofList handle, text)
      else
        let text ← readTagText start handle
        pure (if text = "" then ("", "!") else ("!", text))
  need 1
  if !(← get).endsWord 0 then fail .missingTagEnd start
  return tag

end Property

inductive Directive where
  | version (major minor : Nat)
  /-- Tags that start with the handle stand for tags that start with a text. -/
  | handle (name text : String)
deriving DecidableEq, Repr

namespace Directive

open Reading

def readNumber (start : Nat) : Reading Nat := do
  need 1
  let digits := (← takeWhile Char.isDigit [] 2).reverse
  if (← get).isAtAny Char.isDigit then fail .longVersion start
  if digits.isEmpty then fail .missingVersion start
  return digits.foldl (fun n c => 10 * n + (c.toNat - '0'.toNat)) 0

def readVersion (start : Nat) : Reading Directive := do
  skipWhile isBlank
  let major ← readNumber start
  if !(← get).isAt '.' then fail .missingVersionDot start
  skip
  let minor ← readNumber start
  return version major minor

def readHandle (start : Nat) : Reading Directive := do
  skipWhile isBlank
  let name ← Property.readHandle start
  if !Property.isClosed name && name ≠ ['!'] then fail .missingTagMark start
  need 1
  if !(← get).isAtAny isBlank then fail .missingBlank start
  skipWhile isBlank
  let text ← Property.readTagText start []
  need 1
  if !(← get).endsWord 0 then fail .missingTagEnd start
  return handle (String.ofList name) text

def read : Reading Directive := do
  let start := (← get).mark.line
  skip
  let name := String.ofList (← readWhile isWordChar)
  if name = "" then fail .missingDirectiveName start
  if !(← get).endsWord 0 then fail .badDirectiveName start
  let directive ←
    match name with
    | "YAML" => readVersion start
    | "TAG" => readHandle start
    | _ => fail .unknownDirective start
  skipWhile isBlank
  if (← get).isAt '#' then skipLine
  if !(← get).endsLine 0 then fail .missingLineEnd start
  endLine
  return directive

end Directive

end Extraction.Yaml
