import Extraction.Text.Base64
import Extraction.Text.Glyph
import Extraction.Text.Integer
import Extraction.Yaml.Tag
import Extraction.Yaml.Timestamp

/-!
# What scalars denote

A scalar without quotes may be a null, a flag, a number or a point in time; anything else is text.
`Scalar.ofPlain` decides which.  Where a tag says what a scalar is, `Scalar.ofTagged` checks it.
-/

namespace Extraction.Yaml

inductive Scalar where
  | null
  | flag (value : Bool)
  | int (value : Int)
  | float (value : Double)
  | timestamp (value : Timestamp)
  | text (value : String)
deriving DecidableEq, Repr

inductive ScalarError where
  | otherKind (found : Tag) (text : String) (stated : Tag)
  | malformedBinary
deriving DecidableEq, Repr

namespace ScalarError

def message : ScalarError → String
  | otherKind found text stated =>
    s!"yaml: cannot decode {found.name} \x60{text}\x60 as a {stated.name}"
  | malformedBinary => "yaml: !!binary value contains invalid base64 data"

end ScalarError

namespace Scalar

def tag : Scalar → Tag
  | null => .null
  | flag _ => .flag
  | int _ => .int
  | float _ => .float
  | timestamp _ => .timestamp
  | text _ => .text

/-- The value of the digits of a binary or octal number whose sign stands after the mark of the
base. -/
def innerSigned? (base : Nat) (cs : List Char) : Option Int :=
  let limited (negative : Bool) (digits : List Char) : Option Int :=
    match digits, Integer.magnitude base 0 digits with
    | _ :: _, .ok n =>
      if negative then if n ≤ Integer.bound then some (-(n : Int)) else none
      else if n < Integer.bound then some (n : Int)
      else none
    | _, _ => none
  match cs with
  | '-' :: digits => limited true digits
  | '+' :: digits => limited false digits
  | _ => none

/-- The number that a text denotes once its underscores are left out. -/
def number? (cs : List Char) : Option Scalar :=
  match Integer.signed cs, Integer.unsigned cs with
  | .ok n, _ => some (int n)
  | .error _, .ok n => some (int n)
  | .error _, .error _ =>
    match Decimal.read? cs, cs with
    | some x, _ => some (float x)
    | none, '0' :: 'b' :: rest => (innerSigned? 2 rest).map int
    | none, '0' :: 'o' :: rest => (innerSigned? 8 rest).map int
    | none, _ => none

/-- What a scalar denotes as it stands.  Points in time are recognised on demand. -/
def denoted (timestamps : Bool) (s : String) : Scalar :=
  match s with
  | "" | "~" | "null" | "Null" | "NULL" => null
  | "true" | "True" | "TRUE" => flag true
  | "false" | "False" | "FALSE" => flag false
  | ".nan" | ".NaN" | ".NAN" => float .nan
  | ".inf" | ".Inf" | ".INF" | "+.inf" | "+.Inf" | "+.INF" => float (.infinite false)
  | "-.inf" | "-.Inf" | "-.INF" => float (.infinite true)
  | _ =>
    match s.toList with
    | [] => null
    | c :: rest =>
      if c = '.' then ((Decimal.readSpaced? (c :: rest)).map float).getD (text s)
      else if c.isDigit ∨ c = '-' ∨ c = '+' then
        match if timestamps then Timestamp.read? (c :: rest) else none with
        | some t => timestamp t
        | none => (number? ((c :: rest).filter (· ≠ '_'))).getD (text s)
      else text s

def ofPlain (s : String) : Scalar :=
  denoted true s

def float? (n : Int) : Option Scalar :=
  if n < Integer.bound then (Double.nearest? (decide (n < 0)) n.natAbs 1).map float else none

/-- What a scalar with a tag denotes.  An integer may stand for a number with a fraction; a tag that
is not among the common ones says nothing. -/
def ofTagged (tag : Tag) (s : String) : Except ScalarError Scalar :=
  match tag with
  | .binary =>
    match Base64.decode? s with
    | some bytes => .ok (text (Glyph.textOf bytes))
    | none => .error .malformedBinary
  | .null | .flag | .int | .float | .timestamp =>
    let found := denoted (tag == .timestamp) s
    let mismatch : Except ScalarError Scalar := .error (.otherKind found.tag s tag)
    if found.tag = tag then .ok found
    else
      match tag, found with
      | .float, .int n => ((float? n).map Except.ok).getD mismatch
      | _, _ => mismatch
  | .text | .merge | .sequence | .mapping | .other _ => .ok (text s)

/-- The integer that a number stands for.  A fraction is dropped, and what is below or just above
the range becomes the least integer. -/
def toInt? : Scalar → Option Int
  | int n => if n < Integer.bound then some n else none
  | float (.infinite true) => some (-Integer.bound)
  | float x =>
    match x.truncate? with
    | none => none
    | some n =>
      if Integer.bound < n then none
      else if n < -Integer.bound ∨ n = Integer.bound then some (-Integer.bound)
      else some n
  | _ => none

/-- Words for true and false that count only where a flag is expected. -/
def flagWord? (s : String) : Option Bool :=
  if s ∈ ["y", "Y", "yes", "Yes", "YES", "on", "On", "ON"] then some true
  else if s ∈ ["n", "N", "no", "No", "NO", "off", "Off", "OFF"] then some false
  else none

end Scalar

end Extraction.Yaml
