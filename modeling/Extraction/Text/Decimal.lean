import Extraction.Text.Double

/-!
# Decimal numbers

A decimal number is read as the nearest number in double precision.
-/

namespace Extraction.Decimal

def natural (digits : List Char) : Nat :=
  digits.foldl (fun n c => 10 * n + (c.toNat - '0'.toNat)) 0

def exponent? : List Char → Option Int
  | [] => some 0
  | mark :: rest =>
    if mark ≠ 'e' ∧ mark ≠ 'E' then none
    else
      let (negative, digits) :=
        match rest with
        | '-' :: digits => (true, digits)
        | '+' :: digits => (false, digits)
        | digits => (false, digits)
      if digits.isEmpty ∨ !digits.all Char.isDigit then none
      else some (if negative then -(natural digits : Int) else natural digits)

/-- A number that is given its sign.  Digits before or after the point may be missing, but not
both. -/
def unsigned? (negative : Bool) (cs : List Char) : Option Double := do
  let whole := cs.takeWhile Char.isDigit
  let (fraction, rest) :=
    match cs.dropWhile Char.isDigit with
    | '.' :: rest => (rest.takeWhile Char.isDigit, rest.dropWhile Char.isDigit)
    | rest => ([], rest)
  if whole.isEmpty && fraction.isEmpty then none
  let power := (← exponent? rest) - fraction.length
  let digits := (whole ++ fraction).dropWhile (· == '0')
  if digits.isEmpty ∨ digits.length + power < -330 then some (.finite negative 0 0)
  else if 400 < power then none
  else
    Double.nearest? negative (natural digits * Nat.pow 10 power.toNat) (Nat.pow 10 (-power).toNat)

def read? : List Char → Option Double
  | '-' :: rest => unsigned? true rest
  | '+' :: rest => unsigned? false rest
  | cs => unsigned? false cs

/-- Every underscore stands between two digits. -/
def separated (afterDigit : Bool) : List Char → Bool
  | [] => true
  | '_' :: rest => afterDigit && rest.head?.any Char.isDigit && separated false rest
  | c :: rest => separated c.isDigit rest

/-- A number in which underscores may stand between digits. -/
def readSpaced? (cs : List Char) : Option Double :=
  if separated false cs then read? (cs.filter (· ≠ '_')) else none

end Extraction.Decimal
