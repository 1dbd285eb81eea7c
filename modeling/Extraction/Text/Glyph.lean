import Extraction.Text.CharClass

/-!
# Characters as bytes

Bytes are read as characters of UTF-8; a byte that starts no character is read as U+FFFD.
-/

namespace Extraction

structure Glyph where
  code : Nat
  width : Nat
deriving DecidableEq, Repr

namespace Glyph

def replacement : Nat := 0xFFFD

def byteOrderMark : Nat := 0xFEFF

def encodedWidth (code : Nat) : Nat :=
  if code < 0x80 then 1 else if code < 0x800 then 2 else if code < 0x10000 then 3 else 4

/-- The number of bytes that a first byte announces, the bounds of the second byte, and the bits of
the first byte that count; `none` if no character starts with it. -/
def lead? (b : Nat) : Option (Nat × Nat × Nat × Nat) :=
  if b < 0x80 then some (1, 0, 0, b)
  else if b < 0xC2 then none
  else if b < 0xE0 then some (2, 0x80, 0xBF, b - 0xC0)
  else if b = 0xE0 then some (3, 0xA0, 0xBF, 0)
  else if b = 0xED then some (3, 0x80, 0x9F, 0xD)
  else if b < 0xF0 then some (3, 0x80, 0xBF, b - 0xE0)
  else if b = 0xF0 then some (4, 0x90, 0xBF, 0)
  else if b < 0xF4 then some (4, 0x80, 0xBF, b - 0xF0)
  else if b = 0xF4 then some (4, 0x80, 0x8F, 4)
  else none

/-- The character at the head of the bytes that follow the byte `b`, if it is a whole one. -/
def first? (b : UInt8) (rest : List UInt8) : Option Glyph := do
  let (width, lo, hi, bits) ← lead? b.toNat
  let tail := (rest.take (width - 1)).map UInt8.toNat
  if tail.length + 1 ≠ width then none
  else
    match tail with
    | [] => some ⟨bits, 1⟩
    | second :: others =>
      if lo ≤ second && second ≤ hi && others.all fun c => 0x80 ≤ c && c ≤ 0xBF then
        some ⟨tail.foldl (fun acc c => acc * 64 + (c - 0x80)) bits, width⟩
      else none

def decode : List UInt8 → List Glyph
  | [] => []
  | b :: rest =>
    match first? b rest with
    | some g => g :: decode (rest.drop (g.width - 1))
    | none => ⟨replacement, 1⟩ :: decode rest
termination_by bytes => bytes.length
decreasing_by all_goals (simp only [List.length_cons, List.length_drop]; omega)

/-- The characters of a source text.  One in 16-bit units is given up as one stray byte. -/
def ofBytes (bytes : List UInt8) : List Glyph :=
  match bytes with
  | 0xFF :: 0xFE :: _ | 0xFE :: 0xFF :: _ => [⟨replacement, 1⟩]
  | _ => decode bytes

def textOf (bytes : List UInt8) : String :=
  String.ofList ((decode bytes).map fun g => Char.ofNat g.code)

def is (g : Glyph) (c : Char) : Bool :=
  g.code == c.toNat

def isBlank (g : Glyph) : Bool :=
  g.is ' ' || g.is '\t' || g.is '\n' || g.is '\r'

def isLetter (g : Glyph) : Bool :=
  CharClass.isLetter g.code

def isDecimal (g : Glyph) : Bool :=
  CharClass.isDecimal g.code

/-- A letter or digit goes on with an identifier. -/
def continuesName (g : Glyph) : Bool :=
  g.isLetter || CharClass.isDigit g.code

def isEither (g : Glyph) (lower upper : Char) : Bool :=
  g.is lower || g.is upper

def isHex (g : Glyph) : Bool :=
  g.isDecimal || (0x41 ≤ g.code && g.code ≤ 0x46) || (0x61 ≤ g.code && g.code ≤ 0x66)

def bytes : List Glyph → Nat
  | [] => 0
  | g :: rest => g.width + bytes rest

end Glyph

end Extraction
