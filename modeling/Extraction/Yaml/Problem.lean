/-!
# Problems of YAML texts

What can be wrong with a text, and the line that is reported with it.
-/

namespace Extraction.Yaml

/-- How deep block collections, and flow collections, may be nested. -/
def maxDepth : Nat := 10000

inductive Problem where
  | controlCharacter
  | strayCharacter
  | valueNotAllowed
  | entryNotAllowed
  | keyNotAllowed
  | missingColon
  | tooDeep
  | tabInIndentation
  | tabForSpace
  | zeroIndentation
  | missingLineEnd
  | documentInQuotes
  | endInQuotes
  | unknownEscape
  | badHexEscape
  | badEscapeCode
  | missingName
  | missingTagClose
  | missingTagEnd
  | missingTagText
  | missingTagMark
  | missingTagEscape
  | badTagLead
  | badTagTrail
  | missingDirectiveName
  | badDirectiveName
  | unknownDirective
  | missingVersion
  | longVersion
  | missingVersionDot
  | missingBlank
  | repeatedVersion
  | otherVersion
  | repeatedHandle
  | unknownHandle
  | missingDocumentStart
  | missingContent
  | missingDash
  | missingKey
  | missingComma (closing : Char)
  | unknownAnchor (name : String)
deriving DecidableEq, Repr

namespace Problem

def message : Problem → String
  | controlCharacter => "control characters are not allowed"
  | strayCharacter => "found character that cannot start any token"
  | valueNotAllowed => "mapping values are not allowed in this context"
  | entryNotAllowed => "block sequence entries are not allowed in this context"
  | keyNotAllowed => "mapping keys are not allowed in this context"
  | missingColon => "could not find expected ':'"
  | tooDeep => s!"exceeded max depth of {maxDepth}"
  | tabInIndentation => "found a tab character that violates indentation"
  | tabForSpace => "found a tab character where an indentation space is expected"
  | zeroIndentation => "found an indentation indicator equal to 0"
  | missingLineEnd => "did not find expected comment or line break"
  | documentInQuotes => "found unexpected document indicator"
  | endInQuotes => "found unexpected end of stream"
  | unknownEscape => "found unknown escape character"
  | badHexEscape => "did not find expected hexdecimal number"
  | badEscapeCode => "found invalid Unicode character escape code"
  | missingName => "did not find expected alphabetic or numeric character"
  | missingTagClose => "did not find the expected '>'"
  | missingTagEnd => "did not find expected whitespace or line break"
  | missingTagText => "did not find expected tag URI"
  | missingTagMark => "did not find expected '!'"
  | missingTagEscape => "did not find URI escaped octet"
  | badTagLead => "found an incorrect leading UTF-8 octet"
  | badTagTrail => "found an incorrect trailing UTF-8 octet"
  | missingDirectiveName => "could not find expected directive name"
  | badDirectiveName => "found unexpected non-alphabetical character"
  | unknownDirective => "found unknown directive name"
  | missingVersion => "did not find expected version number"
  | longVersion => "found extremely long version number"
  | missingVersionDot => "did not find expected digit or '.' character"
  | missingBlank => "did not find expected whitespace"
  | repeatedVersion => "found duplicate %YAML directive"
  | otherVersion => "found incompatible YAML document"
  | repeatedHandle => "found duplicate %TAG directive"
  | unknownHandle => "found undefined tag handle"
  | missingDocumentStart => "did not find expected <document start>"
  | missingContent => "did not find expected node content"
  | missingDash => "did not find expected '-' indicator"
  | missingKey => "did not find expected key"
  | missingComma closing => s!"did not find expected ',' or '{closing}'"
  | unknownAnchor name => s!"unknown anchor '{name}' referenced"

end Problem

/-- A problem with the lines, counted from zero, of what was being read and of the place reached. -/
structure SyntaxError where
  problem : Problem
  context : Nat := 0
  place : Nat := 0
  /-- Whether the error is within a token rather than in the order of tokens. -/
  lexical : Bool := true
deriving DecidableEq, Repr

namespace SyntaxError

/-- The line to report.  The first line counts as unknown; in the order of tokens, lines count from
zero. -/
def line? (e : SyntaxError) : Option Nat :=
  let line := if e.context ≠ 0 then e.context else e.place
  if line = 0 then none else some (if e.lexical then line + 1 else line)

def message (e : SyntaxError) : String :=
  match e.line? with
  | none => s!"yaml: {e.problem.message}"
  | some line => s!"yaml: line {line}: {e.problem.message}"

end SyntaxError

end Extraction.Yaml
