/-!
# Tags

The kinds of YAML values, each with the name under which it is known.
-/

namespace Extraction.Yaml

inductive Tag where
  | null
  | flag
  | int
  | float
  | timestamp
  | text
  | binary
  | merge
  | sequence
  | mapping
  | other (name : String)
deriving DecidableEq, Repr

namespace Tag

def name : Tag → String
  | null => "!!null"
  | flag => "!!bool"
  | int => "!!int"
  | float => "!!float"
  | timestamp => "!!timestamp"
  | text => "!!str"
  | binary => "!!binary"
  | merge => "!!merge"
  | sequence => "!!seq"
  | mapping => "!!map"
  | other name => name

/-- What the two exclamation marks before the name of a common tag stand for. -/
def commonStart : String := "tag:yaml.org,2002:"

def ofName (full : String) : Tag :=
  let short := if full.startsWith commonStart
    then "!!" ++ (full.drop commonStart.length).toString else full
  ([null, flag, int, float, timestamp, text, binary, merge, sequence, mapping].find?
    (·.name == short)).getD (other short)

end Tag

end Extraction.Yaml
