/-!
# Integer literals

A literal is a sign and digits, decimal or with one of the marks `0x`, `0o`, `0b`; a leading zero
alone means octal. Underscores may stand between digits and after a mark.  Values are 64-bit words.
-/

namespace Extraction

inductive IntegerError where
  | malformed
  | outOfRange
deriving DecidableEq, Repr

namespace IntegerError

def message : IntegerError → String
  | malformed => "invalid syntax"
  | outOfRange => "value out of range"

end IntegerError

namespace Integer

/-- The first number above the signed words. -/
def bound : Nat := 0x8000000000000000

def digit? (c : Char) : Option Nat :=
  if c.isDigit then some (c.toNat - '0'.toNat)
  else if c.isLower then some (c.toNat - 'a'.toNat + 10)
  else if c.isUpper then some (c.toNat - 'A'.toNat + 10)
  else none

/-- Reads digits on from a value; what does not fit is noticed before a later character that is no
digit. -/
def magnitude (base : Nat) (n : Nat) : List Char → Except IntegerError Nat
  | [] => .ok n
  | c :: rest =>
    if c = '_' then magnitude base n rest
    else
      match digit? c with
      | some d =>
        if d < base then
          if n * base + d < 2 * bound then magnitude base (n * base + d) rest
          else .error .outOfRange
        else .error .malformed
      | none => .error .malformed

def split (cs : List Char) : Nat × List Char :=
  match cs with
  | '0' :: mark :: c :: rest =>
    if mark = 'x' ∨ mark = 'X' then (16, c :: rest)
    else if mark = 'o' ∨ mark = 'O' then (8, c :: rest)
    else if mark = 'b' ∨ mark = 'B' then (2, c :: rest)
    else (8, mark :: c :: rest)
  | '0' :: rest => (8, rest)
  | _ => (10, cs)

/-- Every underscore has a digit, or the mark of the base, before it and a digit after it. -/
def separated (afterDigit : Bool) : List Char → Bool
  | [] => true
  | '_' :: rest => afterDigit && !rest.isEmpty && rest.head? != some '_' && separated false rest
  | _ :: rest => separated true rest

def unsigned (cs : List Char) : Except IntegerError Nat := do
  if cs.isEmpty then throw .malformed
  let (base, digits) := split cs
  let n ← magnitude base 0 digits
  if separated (decide (base ≠ 10)) digits then return n else throw .malformed

def signed (cs : List Char) : Except IntegerError Int :=
  let limited (negative : Bool) (cs : List Char) : Except IntegerError Int := do
    let n ← unsigned cs
    if negative then
      if n ≤ bound then return -(n : Int) else throw .outOfRange
    else if n < bound then return (n : Int)
    else throw .outOfRange
  match cs with
  | '-' :: rest => limited true rest
  | '+' :: rest => limited false rest
  | _ => limited false cs

end Integer

end Extraction
