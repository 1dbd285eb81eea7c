/-!
# Records of comma-separated values

One record of fields between commas.  A field that starts with a quote goes on, over commas and line
ends, up to the quote that closes it; a quote inside is written twice.  Lines and columns count from
one, columns in bytes.
-/

namespace Extraction

inductive CsvError where
  | empty
  /-- A quote inside a field that does not start with one. -/
  | bareQuote (start line column : Nat)
  /-- A quoted field that is not closed where it should be. -/
  | strayQuote (start line column : Nat)
deriving DecidableEq, Repr

namespace CsvError

def place (start line column : Nat) : String :=
  if start = line then s!"parse error on line {line}, column {column}"
  else s!"record on line {start}; parse error on line {line}, column {column}"

def message : CsvError → String
  | empty => "EOF"
  | bareQuote start line column => place start line column ++ ": bare \" in non-quoted-field"
  | strayQuote start line column =>
    place start line column ++ ": extraneous or missing \" in quoted-field"

end CsvError

namespace Csv

/-- Where in a field the reading is. -/
inductive Progress where
  | start
  | plain
  | quoted
  /-- After a quote that closes the field, unless another one follows. -/
  | closed
deriving DecidableEq, Repr

/-- Ends every line with a newline alone; a carriage return at the very end is dropped. -/
def normalize : List Char → List Char
  | '\r' :: '\n' :: rest => '\n' :: normalize rest
  | ['\r'] => []
  | c :: rest => c :: normalize rest
  | [] => []

/-- Reads on in a record.  The field so far is kept in reverse. -/
def fields (start line column : Nat) (progress : Progress) (field : List Char) :
    List Char → Except CsvError (List String)
  | [] =>
    if progress = .quoted then .error (.strayQuote start line column)
    else .ok [String.ofList field.reverse]
  | c :: rest =>
    match progress with
    | .quoted =>
      if c = '"' then fields start line (column + 1) .closed field rest
      else if c = '\n' ∧ rest ≠ [] then fields start (line + 1) 1 .quoted (c :: field) rest
      else fields start line (column + c.utf8Size) .quoted (c :: field) rest
    | _ =>
      if c = ',' then
        return String.ofList field.reverse :: (← fields start line (column + 1) .start [] rest)
      else if c = '\n' then .ok [String.ofList field.reverse]
      else if c = '"' then
        match progress with
        | .start => fields start line (column + 1) .quoted field rest
        | .closed => fields start line (column + 1) .quoted (c :: field) rest
        | _ => .error (.bareQuote start line column)
      else if progress = .closed then .error (.strayQuote start line (column - 1))
      else fields start line (column + c.utf8Size) .plain (c :: field) rest

/-- The fields of the first record of a text; empty lines before it are skipped. -/
def record (text : String) : Except CsvError (List String) :=
  let cs := normalize text.toList
  let body := cs.dropWhile (· = '\n')
  if body.isEmpty then .error .empty
  else
    let start := cs.length - body.length + 1
    fields start start 1 .start [] body

end Csv

end Extraction
