import Extraction.Yaml.Property

/-!
# YAML tokens

The signs, scalars and names of a text, with the block structure that indentation implies made
explicit: tokens mark where block collections open and close, and a `key` stands before whatever a
colon on its line makes a key.
-/

namespace Extraction.Yaml

inductive Token where
  | streamStart
  | streamEnd
  | directive (directive : Directive)
  | documentStart
  | documentEnd
  | blockSequence
  | blockMapping
  | blockEnd
  | openSequence
  | closeSequence
  | openMapping
  | closeMapping
  | entry
  | comma
  | key
  | value
  | reference (name : String)
  | anchor (name : String)
  | tag (handle text : String)
  | scalar (plain : Bool) (text : String)
deriving DecidableEq, Repr

structure Placed where
  token : Token
  start : Mark
deriving DecidableEq, Repr

def Placed.line (t : Placed) : Nat :=
  t.start.line

end Extraction.Yaml
