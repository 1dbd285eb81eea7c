import Extraction.Text.Quoted

/-!
# JSON documents

A document and its text, on one line or indented.  Strings are safe inside HTML: angle brackets,
ampersands and the two separators of lines and paragraphs are escaped.
-/

namespace Extraction.Report

inductive Document where
  | text (value : String)
  | number (value : Int)
  | flag (value : Bool)
  | array (items : List Document)
  | record (fields : List (String × Document))

namespace Document

def escape (c : Char) : List Char :=
  match c with
  | '"' => ['\\', '"']
  | '\\' => ['\\', '\\']
  | '\x08' => ['\\', 'b']
  | '\x0c' => ['\\', 'f']
  | '\n' => ['\\', 'n']
  | '\r' => ['\\', 'r']
  | '\t' => ['\\', 't']
  | _ =>
    if c.toNat < 0x20 ∨ c ∈ ['<', '>', '&', '\u2028', '\u2029'] then
      '\\' :: 'u' :: Quoted.hex 4 c.toNat
    else [c]

def quote (text : String) : String :=
  String.ofList ('"' :: (text.toList.flatMap escape ++ ['"']))

def scalar : Bool → String
  | true => "true"
  | false => "false"

mutual

def compact : Document → String
  | text value => quote value
  | number value => toString value
  | flag value => scalar value
  | array items => "[" ++ ",".intercalate (compactItems items) ++ "]"
  | record fields => "\x7b" ++ ",".intercalate (compactFields fields) ++ "\x7d"

def compactItems : List Document → List String
  | [] => []
  | d :: rest => d.compact :: compactItems rest

def compactFields : List (String × Document) → List String
  | [] => []
  | (key, d) :: rest => (quote key ++ ":" ++ d.compact) :: compactFields rest

end

/-- Lines one step deeper than `margin` between an opening and a closing bracket. -/
def bracket (opening closing margin : String) (lines : List String) : String :=
  if lines.isEmpty then opening ++ closing
  else
    opening ++ "\n" ++ ",\n".intercalate (lines.map fun line => margin ++ "  " ++ line) ++ "\n" ++
      margin ++ closing

mutual

def indented (margin : String) : Document → String
  | text value => quote value
  | number value => toString value
  | flag value => scalar value
  | array items => bracket "[" "]" margin (indentedItems (margin ++ "  ") items)
  | record fields => bracket "\x7b" "\x7d" margin (indentedFields (margin ++ "  ") fields)

def indentedItems (margin : String) : List Document → List String
  | [] => []
  | d :: rest => d.indented margin :: indentedItems margin rest

def indentedFields (margin : String) : List (String × Document) → List String
  | [] => []
  | (key, d) :: rest => (quote key ++ ": " ++ d.indented margin) :: indentedFields margin rest

end

end Document

end Extraction.Report
