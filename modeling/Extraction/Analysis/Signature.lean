import Extraction.Analysis.Verdict

/-!
# Signatures and batches

The signature of the method that a selection would be extracted into, and the analysis of several
selections of one tree.
-/

namespace Extraction

namespace Binding

/-- The variable as a parameter.  Types are written only for variables of the source language. -/
def asParameter (relative : Bool) (b : Binding) : String :=
  match b.type with
  | some (.written qualified short) => b.name ++ " " ++ if relative then short else qualified
  | _ => b.name

end Binding

namespace Verdict

def signature (v : Verdict) (relative : Bool) (result : Option String) : String :=
  "func(" ++ ", ".intercalate (v.arguments.map (Binding.asParameter relative)) ++ ")" ++
    match result with
    | none => ""
    | some type => " " ++ type

end Verdict

inductive BatchError where
  | canceled
  | fault (cause : Fault)
deriving DecidableEq, Repr

namespace BatchError

def message : BatchError → String
  | canceled => "context canceled"
  | fault cause => cause.message

end BatchError

/-- Analyses several selections, each on its own.  A batch that was canceled beforehand starts
none. -/
def analyzeAll (canceled : Bool) (t : SyntaxTree) (boundaries : Boundaries) (sels : List Extent) :
    Except BatchError (List Verdict) :=
  if canceled && !sels.isEmpty then .error .canceled
  else sels.mapM fun sel => (analyze t sel boundaries).mapError .fault

end Extraction
