/-!
# Numbers in double precision

A number is kept as an integer times a power of two.  `Double.nearest?` rounds a fraction to the
nearest one, and `Double.describe` writes one with the fewest decimal digits that read back as the
same number.
-/

namespace Extraction

inductive Double where
  | nan
  | infinite (negative : Bool)
  /-- The mantissa, of at most 53 binary digits, times two to the power of the exponent. -/
  | finite (negative : Bool) (mantissa : Nat) (exponent : Int)
deriving DecidableEq, Repr

namespace Double

/-- A fraction rounded to an integer; a half goes to the even neighbour. -/
def roundDiv (a b : Nat) : Nat :=
  let q := a / b
  let r := a % b
  if 2 * r < b ∨ (2 * r = b ∧ q % 2 = 0) then q else q + 1

/-- The largest power of two, as an exponent, that is not above a positive fraction. -/
def magnitude (a b : Nat) : Int :=
  let e : Int := (Nat.log2 a : Int) - Nat.log2 b
  if b * Nat.pow 2 e.toNat ≤ a * Nat.pow 2 (-e).toNat then e else e - 1

def leastExponent : Int := -1074

def largestExponent : Int := 971

/-- The first mantissa that is too large. -/
def mantissaBound : Nat := 0x20000000000000

/-- The number that is nearest to a fraction, with a sign; none if the fraction is beyond all
numbers. -/
def nearest? (negative : Bool) (a b : Nat) : Option Double :=
  if a = 0 then some (finite negative 0 0)
  else
    let exponent := max (magnitude a b - 52) leastExponent
    let mantissa := roundDiv (a * Nat.pow 2 (-exponent).toNat) (b * Nat.pow 2 exponent.toNat)
    if mantissa = 0 then some (finite negative 0 0)
    else
      let (mantissa, exponent) :=
        if mantissa = mantissaBound then (mantissaBound / 2, exponent + 1) else (mantissa, exponent)
      if exponent ≤ largestExponent then some (finite negative mantissa exponent) else none

/-- The integer that is left if the fraction is dropped; none for what is no integer or beyond all
numbers. -/
def truncate? : Double → Option Int
  | finite negative mantissa exponent =>
    let n := mantissa * Nat.pow 2 exponent.toNat / Nat.pow 2 (-exponent).toNat
    some (if negative then -(n : Int) else n)
  | _ => none

/-- The two zeros are equal, and what is no number is equal to nothing. -/
def equals : Double → Double → Bool
  | nan, _ => false
  | finite _ 0 _, finite _ 0 _ => true
  | x, y => x == y

/-- An order in which what is no number comes first. -/
def before : Double → Double → Bool
  | _, nan => false
  | nan, _ => true
  | _, infinite true => false
  | infinite true, _ => true
  | infinite false, _ => false
  | _, infinite false => true
  | finite n m e, finite n' m' e' =>
    let low := min e e'
    let scaled (negative : Bool) (mantissa : Nat) (exponent : Int) : Int :=
      let v := mantissa * Nat.pow 2 (exponent - low).toNat
      if negative then -(v : Int) else v
    decide (scaled n m e < scaled n' m' e')

/-- A positive number and the ends of the interval of all that is rounded to it, over a common
denominator. -/
structure Rounding where
  value : Nat
  low : Nat
  high : Nat
  denominator : Nat
  /-- Whether the ends are rounded to it too. -/
  closed : Bool

namespace Rounding

/-- Numbers below a power of two are closer together than those above it. -/
def ofParts (mantissa : Nat) (exponent : Int) : Rounding :=
  let unit := Nat.pow 2 (exponent - 2).toNat
  let below := if mantissa = mantissaBound / 2 ∧ leastExponent < exponent then 1 else 2
  { value := 4 * mantissa * unit
    low := (4 * mantissa - below) * unit
    high := (4 * mantissa + 2) * unit
    denominator := Nat.pow 2 (2 - exponent).toNat
    closed := mantissa % 2 == 0 }

def admits (r : Rounding) (a b : Nat) : Bool :=
  let n := a * r.denominator
  if r.closed then decide (r.low * b ≤ n) && decide (n ≤ r.high * b)
  else decide (r.low * b < n) && decide (n < r.high * b)

/-- The largest power of ten, as an exponent, that is not above the number. -/
def decimalMagnitude (r : Rounding) : Int :=
  ((Nat.toDigits 10 (r.value * Nat.pow 10 400 / r.denominator)).length : Int) - 401

/-- The nearest of the numbers with so many decimal digits that are rounded to the number, as an
integer and the power of ten by which it is multiplied. -/
def withDigits? (r : Rounding) (count : Nat) : Option (Nat × Int) :=
  let power := r.decimalMagnitude - count + 1
  let up := Nat.pow 10 power.toNat
  let down := Nat.pow 10 (-power).toNat
  let floor := r.value * down / (r.denominator * up)
  let excess := 2 * (r.value * down % (r.denominator * up))
  let nearFirst := if excess ≤ r.denominator * up then [floor, floor + 1] else [floor + 1, floor]
  (nearFirst.find? fun n => r.admits (n * up) down).map fun n => (n, power)

/-- The fewest digits that are rounded to the number: an integer that is no multiple of ten, and a
power of ten. -/
def shortest (r : Rounding) : Nat × Int :=
  let (n, power) := ((List.range 17).findSome? fun count => r.withDigits? (count + 1)).getD (0, 0)
  let digits := Nat.toDigits 10 n
  let zeros := (digits.reverse.takeWhile (· == '0')).length
  (n / Nat.pow 10 zeros, power + zeros)

end Rounding

/-- An exponent with its sign and at least two digits. -/
def describeExponent (e : Int) : String :=
  let digits := toString e.natAbs
  (if e < 0 then "e-" else "e+") ++ (if digits.length < 2 then "0" ++ digits else digits)

/-- Digits times a power of ten, with an exponent if the number is small or has over six digits
before the point. -/
def layout (digits : List Char) (power : Int) : String :=
  let exponent := power + digits.length - 1
  if exponent < -4 ∨ 6 ≤ exponent then
    match digits with
    | [] => ""
    | [d] => String.ofList [d] ++ describeExponent exponent
    | d :: rest => String.ofList (d :: '.' :: rest) ++ describeExponent exponent
  else if 0 ≤ power then String.ofList (digits ++ List.replicate power.toNat '0')
  else if 0 ≤ exponent then
    let whole := (exponent + 1).toNat
    String.ofList (digits.take whole ++ '.' :: digits.drop whole)
  else String.ofList ('0' :: '.' :: (List.replicate (-exponent - 1).toNat '0' ++ digits))

def describe : Double → String
  | nan => "NaN"
  | infinite negative => if negative then "-Inf" else "+Inf"
  | finite negative mantissa exponent =>
    let text :=
      if mantissa = 0 then "0"
      else
        let (n, power) := (Rounding.ofParts mantissa exponent).shortest
        layout (Nat.toDigits 10 n) power
    if negative then "-" ++ text else text

end Double

end Extraction
