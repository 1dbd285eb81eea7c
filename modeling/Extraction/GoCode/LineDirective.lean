import Extraction.GoCode.Lexeme
import Extraction.Text.SourceFile

/-!
# Line directives

A comment `//line name:line:column` at the start of a line, or `/*line name:line:column*/` anywhere,
says where the text after it comes from.  The column may be left out.  A comment that gives no
proper number is no directive.
-/

namespace Extraction.GoCode.LineDirective

/-- The text before the last colon, and the number after it.  A number takes up to 64 bits, of which
the highest counts as a sign; `none` is a text that is no number. -/
def number? (text : List UInt8) : Option (List UInt8 × Option Int) :=
  match text.reverse.dropWhile (· ≠ 58) with
  | [] => none
  | _ :: before =>
    let digits := (text.reverse.takeWhile (· ≠ 58)).reverse
    let isDigit (b : UInt8) : Bool := 48 ≤ b && b ≤ 57
    let value : Nat := digits.foldl (fun n b => n * 10 + (b.toNat - 48)) 0
    let isNumber := !digits.isEmpty && digits.all isDigit && value < 0x10000000000000000
    some (before.reverse, if isNumber then some (word value) else none)

/-- A line or column that a directive may state: not zero and not beyond thirty bits. -/
def admits (n : Int) : Bool :=
  n ≠ 0 && n ≤ 0x40000000

/-- The line and column that a directive's text states.  Where two numbers stand at its end the
second is the column. -/
def place? (text : List UInt8) : Option (Int × Option Int) := do
  let (before, last) ← number? text
  let last ← last
  match number? before with
  | some (_, some line) => if admits last && admits line then some (line, some last) else none
  | _ => if admits last then some (last, none) else none

def text? (atLineStart : Bool) (comment : List UInt8) : Option (List UInt8) :=
  match comment with
  | 47 :: mark :: 108 :: 105 :: 110 :: 101 :: 32 :: text =>
    if mark = 42 then
      if text.reverse.take 2 = [47, 42] then some (text.take (text.length - 2)) else none
    else if !atLineStart then none
    else some (if text.getLast? = some 13 then text.dropLast else text)
  | _ => none

/-- The renumbering that a comment at an offset makes, in a file of a given size.  It holds from the
text after the comment, or from the next line on, and there has to be some. -/
def renumbering? (source : Array UInt8) (comment : Lexeme) : Option Renumbering := do
  let past := comment.start + comment.taken
  let atLineStart := comment.start = 0 || source[comment.start - 1]? = some 10
  let text ← text? atLineStart (source.extract comment.start past).toList
  let (line, column) ← place? text
  let offset := if source[comment.start + 1]? = some 47 ∧ source[past]? = some 10
    then past + 1 else past
  if offset < source.size then some ⟨offset, line, column⟩ else none

def renumberings (source : List UInt8) : List Renumbering :=
  let bytes := source.toArray
  ((Lexeme.ofSource source).filter fun l => l.kind = .comment).filterMap (renumbering? bytes)

end Extraction.GoCode.LineDirective
