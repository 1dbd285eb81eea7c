import Extraction.Text.Quoted
import Extraction.Yaml.Scalar

/-!
# What values denote

Where nothing is expected of a value, a sequence denotes a list and a mapping a table, whose keys
are scalars.
-/

namespace Extraction.Yaml

namespace Scalar

def equals : Scalar → Scalar → Bool
  | float x, float y => x.equals y
  | a, b => a == b

def rank : Scalar → Nat
  | null => 0
  | flag _ => 1
  | float _ => 2
  | int n => if n < Integer.bound then 3 else 6
  | text _ => 4
  | timestamp _ => 5

def before (a b : Scalar) : Bool :=
  match a, b with
  | flag x, flag y => !x && y
  | float x, float y => x.before y
  | int m, int n => decide (m < n)
  | text s, text t => decide (s < t)
  | _, _ => decide (a.rank < b.rank)

/-- A scalar as shown in messages.  Integers beyond the signed words are shown with hexadecimal
digits. -/
def describe : Scalar → String
  | null => "interface \x7b\x7d(nil)"
  | flag value => if value then "true" else "false"
  | int n =>
    if n < Integer.bound then toString n else "0x" ++ String.ofList (Nat.toDigits 16 n.toNat)
  | float x => x.describe
  | timestamp t => t.describe
  | text s => Quoted.encode s

end Scalar

inductive Datum where
  | scalar (value : Scalar)
  | list (items : List Datum)
  /-- Entries by ascending keys; `texts` says that only texts are keys. -/
  | table (texts : Bool) (entries : List (Scalar × Datum))
deriving Repr

namespace Datum

/-- Entries with one more, or with another value for its key. -/
def insert (key : Scalar) (value : Datum) : List (Scalar × Datum) → List (Scalar × Datum)
  | [] => [(key, value)]
  | (k, v) :: rest =>
    if k.equals key then (k, value) :: rest
    else if key.before k then (key, value) :: (k, v) :: rest
    else (k, v) :: insert key value rest

mutual

def describe : Datum → String
  | scalar value => value.describe
  | list items => "[]interface \x7b\x7d\x7b" ++ ", ".intercalate (describeItems items) ++ "\x7d"
  | table texts entries =>
    (if texts then "map[string]interface \x7b\x7d\x7b"
      else "map[interface \x7b\x7d]interface \x7b\x7d\x7b") ++
      ", ".intercalate (describeEntries entries) ++ "\x7d"

def describeItems : List Datum → List String
  | [] => []
  | d :: rest => d.describe :: describeItems rest

def describeEntries : List (Scalar × Datum) → List String
  | [] => []
  | (k, d) :: rest => (k.describe ++ ":" ++ d.describe) :: describeEntries rest

end

end Datum

end Extraction.Yaml
