import Extraction.Yaml.Scalar

/-!
# YAML documents

A document is a tree of scalars, sequences and mappings, in which an alias may stand for a value
that was given a name before.  Every node knows the line it starts on, counted from one, and its
tag.
-/

namespace Extraction.Yaml

inductive Value where
  | scalar (line : Nat) (tag : Tag) (text : String)
  | sequence (line : Nat) (tag : Tag) (items : List Value)
  | mapping (line : Nat) (tag : Tag) (pairs : List (Value × Value))
  /-- Stands for the named value of the given number.  The place of an alias in the text tells it
  from the others. -/
  | reference (line place : Nat) (name : String) (target : Nat)
deriving Repr

namespace Value

def line : Value → Nat
  | scalar line _ _ => line
  | sequence line _ _ => line
  | mapping line _ _ => line
  | reference line _ _ _ => line

def tag? : Value → Option Tag
  | scalar _ tag _ => some tag
  | sequence _ tag _ => some tag
  | mapping _ tag _ => some tag
  | reference _ _ _ _ => none

def text : Value → String
  | scalar _ _ text => text
  | reference _ _ name _ => name
  | _ => ""

def sameKey : Value → Value → Bool
  | scalar _ _ a, scalar _ _ b => a == b
  | sequence _ _ _, sequence _ _ _ => true
  | mapping _ _ _, mapping _ _ _ => true
  | reference _ _ a _, reference _ _ b _ => a == b
  | _, _ => false

/-- A scalar without quotes.  Its tag is the stated one, or that of what it denotes; two angle
brackets stand for a merge. -/
def plain (line : Nat) (stated : Option Tag) (text : String) : Value :=
  scalar line (stated.getD (if text = "<<" then .merge else (Scalar.ofPlain text).tag)) text

def absent (line : Nat) : Value :=
  plain line none ""

/-- A key under which other mappings are merged into its own. -/
def isMerge : Value → Bool
  | scalar _ tag text => tag == .merge && text == "<<"
  | _ => false

end Value

structure Document where
  root : Value
  /-- The values that have names, in the order in which they start. -/
  named : Array Value
  /-- The number of characters of the text, which bounds the number of nodes. -/
  size : Nat

namespace Document

/-- The value that a reference stands for, or the value itself. -/
def target (doc : Document) : Value → Value
  | .reference line place name number => doc.named.getD number (.reference line place name number)
  | node => node

def bytes? (doc : Document) (node : Value) : Option (List UInt8) :=
  match doc.target node with
  | .scalar _ .binary text => Base64.decode? text
  | _ => none

/-- A text, as far as its tag says, or the sign of a merge. -/
def isText (doc : Document) (node : Value) : Bool :=
  (doc.target node).tag?.any fun tag => tag == .text || tag == .merge

end Document

end Extraction.Yaml
