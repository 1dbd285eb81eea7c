import Extraction.Text.Extent

/-!
# Token spans and selection boundaries

`Boundaries` tell where a selection may start and end.  Those of a source text are given by the
spans of its tokens and of its comments, both sorted; a question is answered by bisection.
-/

namespace Extraction

structure Span where
  start : Int
  stop : Int
deriving DecidableEq, Repr

namespace Span

/-- Bisection between `lo` and `hi` for the least index at which `test` holds, `test` being
monotone. -/
def bisect (test : Nat → Bool) (lo hi : Nat) : Nat :=
  if lo < hi then
    let mid := (lo + hi) / 2
    if test mid then bisect test lo mid else bisect test (mid + 1) hi
  else lo
termination_by hi - lo

/-- The least index of a span for which the monotone `test` holds, or the number of spans. -/
def search (spans : Array Span) (test : Span → Bool) : Nat :=
  bisect (fun i => (spans[i]?).any test) 0 spans.size

/-- Whether `offset` lies after the first byte and before the end of some span: the last span that
starts before `offset` decides. -/
def splits (spans : Array Span) (offset : Int) : Bool :=
  match search spans (fun s => offset ≤ s.start) with
  | 0 => false
  | i + 1 => (spans[i]?).any fun s => offset < s.stop

/-- Whether some span shares a byte with `[start, stop)`: the first span that ends after `start`
decides. -/
def touches (spans : Array Span) (start stop : Int) : Bool :=
  (spans[search spans fun s => start < s.stop]?).any fun s => s.start < stop

end Span

/-- Whether offsets are legal places for a selection to start or end. -/
structure Boundaries where
  /-- `offset` is not strictly inside a token or a comment. -/
  allows : Int → Bool
  /-- `[start, stop)` holds nothing but blanks, separators and complete comments. -/
  blank : Int → Int → Bool

namespace Boundaries

/-- Accepts every offset; for trees without a source text. -/
def everywhere : Boundaries where
  allows _ := true
  blank _ _ := true

def ofSpans (tokens comments : Array Span) : Boundaries where
  allows offset := !Span.splits tokens offset && !Span.splits comments offset
  blank start stop :=
    decide (stop ≤ start) ||
      (!Span.touches tokens start stop &&
        !Span.splits comments start && !Span.splits comments stop)

end Boundaries

end Extraction
