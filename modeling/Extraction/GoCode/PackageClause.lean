import Extraction.GoCode.Lexeme
import Extraction.Text.SourceFile

/-!
# Package clauses

A source file starts with the keyword `package`, a name and the end of the line.  A file without
this clause is taken for something other than source text and is not read any further.
`PackageClause.ofSource` reports what is expected and what is found instead, and how far the text
was read.
-/

namespace Extraction.GoCode

inductive WordKind where
  | literal
  | keyword
  | operator
  | lineEnd
  | fileEnd
deriving DecidableEq, Repr

structure Word where
  kind : WordKind
  offset : Nat
  text : String
deriving DecidableEq, Repr

namespace Word

def keywords : List String :=
  ["break", "case", "chan", "const", "continue", "default", "defer", "else", "fallthrough", "for",
    "func", "go", "goto", "if", "import", "interface", "map", "package", "range", "return",
    "select", "struct", "switch", "type", "var"]

def starters : List String :=
  ["break", "const", "continue", "defer", "fallthrough", "for", "go", "goto", "if", "return",
    "select", "switch", "type", "var"]

def mayEndStatement (w : Word) : Bool :=
  match w.kind with
  | .literal => true
  | .keyword => w.text ∈ ["break", "continue", "fallthrough", "return"]
  | .operator => w.text ∈ ["++", "--", ")", "]", "\x7d"]
  | _ => false

def found (w : Word) : String :=
  match w.kind with
  | .literal => w.text
  | .lineEnd => "newline"
  | .fileEnd => "'EOF'"
  | _ => s!"'{w.text}'"

def ofToken (offset : Nat) (bytes : List UInt8) : Word :=
  let text := (String.fromUTF8? ⟨bytes.toArray⟩).getD "ILLEGAL"
  let isLiteral : Bool :=
    match Glyph.ofBytes bytes with
    | [] => false
    | g :: rest =>
      g.isLetter || g.isDecimal || g.is '"' || g.is '\'' || g.is '\x60' ||
        (g.is '.' && rest.head?.any (·.isDecimal))
  if text ∈ keywords then ⟨.keyword, offset, text⟩
  else if isLiteral then ⟨.literal, offset, text⟩
  else if text = ";" ∨ text ∈ Lexeme.operators then ⟨.operator, offset, text⟩
  else ⟨.operator, offset, "ILLEGAL"⟩

/-- The words of a text of which `bytes` are left from an offset on; `ends` says whether a line end
counts. -/
def scan (offset : Nat) (bytes : List UInt8) (ends : Bool) : List Lexeme → List Word
  | [] =>
    let rest := if ends then [⟨.lineEnd, offset + (bytes.takeWhile (· ≠ 10)).length, ""⟩] else []
    rest ++ [⟨.fileEnd, offset + bytes.length, ""⟩]
  | l :: more =>
    let gap := bytes.take (l.start - offset)
    let taken := (bytes.drop (l.start - offset)).take l.taken
    let after := bytes.drop (l.start - offset + l.taken)
    let next := l.start + l.taken
    let broken := ends && gap.contains 10
    let lineEnd := if broken then [⟨.lineEnd, offset + (gap.takeWhile (· ≠ 10)).length, ""⟩] else []
    lineEnd ++
      match l.kind with
      | .comment =>
        let ended := ends && !broken && (taken.contains 10 || taken.take 2 == [47, 47])
        (if ended then [⟨.lineEnd, l.start, ""⟩] else []) ++ scan next after
          (ends && !broken && !ended) more
      | _ =>
        let w := ofToken l.start taken
        w :: scan next after w.mayEndStatement more

def ofSource (source : List UInt8) : List Word :=
  scan 0 source false (Lexeme.ofSource source)

end Word

/-- What is wrong with the clause, by offset, and how far the text was read to find out. -/
structure PackageClause where
  complaints : List (Nat × String)
  reached : Nat
deriving DecidableEq, Repr

namespace PackageClause

def expected (what : String) (w : Word) : Nat × String :=
  (w.offset, s!"expected {what}, found {w.found}")

/-- Looks at the end of the clause.  Without one, the text is skipped up to a statement. -/
def finish (complaints : List (Nat × String)) : List Word → PackageClause
  | [] => ⟨complaints, 0⟩
  | w :: rest =>
    if w.kind = .lineEnd ∨ w.text ∈ [";", ")", "\x7d"] then ⟨complaints, w.offset⟩
    else
      let complaints := complaints ++ [expected "';'" w]
      if w.text = "," then ⟨complaints, w.offset⟩
      else
        let stop := (w :: rest).find? fun w => (w.kind = .keyword ∧ w.text ∈ Word.starters) ∨
          w.kind = .fileEnd
        ⟨complaints, (stop.map (·.offset)).getD w.offset⟩

def ofWords (words : List Word) : PackageClause :=
  match words with
  | keyword :: rest =>
    let first := if keyword.text = "package" then [] else [expected "'package'" keyword]
    match if keyword.kind = .fileEnd then words else rest with
    | name :: rest' =>
      let isName := name.kind == .literal && name.text.toList.head?.any fun c =>
        CharClass.isLetter c.toNat
      let second := if isName then [] else [expected "'IDENT'" name]
      finish (first ++ second) (if name.kind = .fileEnd then [name] else rest')
    | [] => finish first []
  | [] => ⟨[], 0⟩

def ofSource (source : List UInt8) : PackageClause :=
  let clause := ofWords (Word.ofSource source)
  { clause with
    complaints := clause.complaints.mergeSort fun a b =>
      decide (a.1 < b.1) || (a.1 == b.1 && !decide (b.2 < a.2)) }

end PackageClause

end Extraction.GoCode
