/-!
# Base64

Three bytes are written as four characters; a last group of one or two bytes is filled up with
equals signs.
-/

namespace Extraction.Base64

def value? (c : Char) : Option Nat :=
  if c.isUpper then some (c.toNat - 'A'.toNat)
  else if c.isLower then some (c.toNat - 'a'.toNat + 26)
  else if c.isDigit then some (c.toNat - '0'.toNat + 52)
  else if c = '+' then some 62
  else if c = '/' then some 63
  else none

/-- The first bytes of a group of 24 bits. -/
def bytes (count group : Nat) : List UInt8 :=
  [(group / 0x10000).toUInt8, (group / 0x100).toUInt8, group.toUInt8].take count

def decodeGroups? : List Char → Option (List UInt8)
  | [] => some []
  | [a, b, '=', '='] => do
    return bytes 1 (((← value? a) * 0x40 + (← value? b)) * 0x1000)
  | [a, b, c, '='] => do
    return bytes 2 ((((← value? a) * 0x40 + (← value? b)) * 0x40 + (← value? c)) * 0x40)
  | a :: b :: c :: d :: rest => do
    let group := (((← value? a) * 0x40 + (← value? b)) * 0x40 + (← value? c)) * 0x40 + (← value? d)
    return bytes 3 group ++ (← decodeGroups? rest)
  | _ => none

/-- The bytes that a text stands for; line breaks in it do not count. -/
def decode? (text : String) : Option (List UInt8) :=
  decodeGroups? (text.toList.filter fun c => c ≠ '\n' && c ≠ '\r')

end Extraction.Base64
