import Extraction.Text.Glyph

/-!
# Quoted text

A text between double quotes in which every character that would not show is escaped.
-/

namespace Extraction.Quoted

def hexDigit (n : Nat) : Char :=
  if n < 10 then Char.ofNat (48 + n) else Char.ofNat (87 + n)

/-- The lowest `width` hexadecimal digits of a number. -/
def hex : Nat → Nat → List Char
  | 0, _ => []
  | width + 1, n => hex width (n / 16) ++ [hexDigit (n % 16)]

def escape (c : Char) : List Char :=
  match c with
  | '"' => ['\\', '"']
  | '\\' => ['\\', '\\']
  | '\x07' => ['\\', 'a']
  | '\x08' => ['\\', 'b']
  | '\x0c' => ['\\', 'f']
  | '\n' => ['\\', 'n']
  | '\r' => ['\\', 'r']
  | '\t' => ['\\', 't']
  | '\x0b' => ['\\', 'v']
  | _ =>
    if CharClass.isPrintable c.toNat then [c]
    else if c.toNat < 0x80 then '\\' :: 'x' :: hex 2 c.toNat
    else if c.toNat < 0x10000 then '\\' :: 'u' :: hex 4 c.toNat
    else '\\' :: 'U' :: hex 8 c.toNat

def encode (text : String) : String :=
  String.ofList ('"' :: (text.toList.flatMap escape ++ ['"']))

/-- The escaped characters of bytes.  A byte that starts no character is given by its number. -/
def escapeBytes : List UInt8 → List Char
  | [] => []
  | b :: rest =>
    match Glyph.first? b rest with
    | some g => escape (Char.ofNat g.code) ++ escapeBytes (rest.drop (g.width - 1))
    | none => '\\' :: 'x' :: hex 2 b.toNat ++ escapeBytes rest
termination_by bytes => bytes.length
decreasing_by all_goals (simp only [List.length_cons, List.length_drop]; omega)

def encodeBytes (bytes : List UInt8) : String :=
  String.ofList ('"' :: (escapeBytes bytes ++ ['"']))

end Extraction.Quoted
