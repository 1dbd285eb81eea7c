import Extraction.Text.Extent

/-!
# Diagnostics

A diagnostic is one reason why a selection cannot be extracted.
-/

namespace Extraction

inductive DiagnosticKind where
  | invalidBoundary
  | endsMidStatement
  | noEnclosingMethod
  | mixedParents
  | singleReturn
  | unresolvedBranch
  | partialReturn
  | ambiguousReturnValue
  | multipleReturnCandidates
  | unknown (code : Int)
deriving DecidableEq, Repr

namespace DiagnosticKind

/-- Diagnostics are numbered from one. -/
def ofCode : Int → DiagnosticKind
  | 1 => invalidBoundary
  | 2 => endsMidStatement
  | 3 => noEnclosingMethod
  | 4 => mixedParents
  | 5 => singleReturn
  | 6 => unresolvedBranch
  | 7 => partialReturn
  | 8 => ambiguousReturnValue
  | 9 => multipleReturnCandidates
  | code => unknown code

def describe : DiagnosticKind → String
  | invalidBoundary => "InvalidBoundary"
  | endsMidStatement => "EndsMidStatement"
  | noEnclosingMethod => "NoEnclosingMethod"
  | mixedParents => "MixedParents"
  | singleReturn => "SingleReturnNotExtractable"
  | unresolvedBranch => "UnresolvedBranch"
  | partialReturn => "PartialReturn"
  | ambiguousReturnValue => "AmbiguousReturnValue"
  | multipleReturnCandidates => "MultipleReturnCandidates"
  | unknown code => s!"DiagnosticKind({code})"

end DiagnosticKind

structure Diagnostic where
  kind : DiagnosticKind
  message : String
  node : Option Nat := none
  extent : Extent
deriving DecidableEq, Repr

namespace Diagnostic

def describe (d : Diagnostic) : String :=
  d.kind.describe ++ ": " ++ d.message

end Diagnostic

end Extraction
