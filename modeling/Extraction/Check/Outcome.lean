import Extraction.Analysis.Signature
import Extraction.Check.Program
import Extraction.Report.Log
import Extraction.Text.Selection

/-!
# Requests and outcomes

A check is asked about selections of a program and answers with a log and one finding per selection
it could analyze. The host is what the check sees of its surroundings.
-/

namespace Extraction

structure Request where
  /-- The packages to load; none given means the package of the first selected file. -/
  scope : Option (List String) := none
  selections : List Selection
  /-- Contents, by absolute name, of files that differ from those on disk. -/
  overlay : List (String × List UInt8) := []
  /-- The directory in which packages are looked up; the current one if empty. -/
  directory : String := ""
  /-- How many selections may be analyzed at once; no outcome depends on it. -/
  workers : Int := 0
  policy : ErrorPolicy := .report
  verbose : Bool := false

structure Host where
  disk : Disk
  load : Request → Except String Program
  canceled : Bool := false

structure Finding where
  selection : Option Selection := none
  filename : String
  extent : Extent
  function : Option String := none
  verdict : Verdict

structure Outcome where
  log : Log := {}
  findings : List Finding := []
  scope : Option (List String) := none

namespace Outcome

/-- Every one of the requested selections was analyzed and can be extracted. -/
def Extractable (o : Outcome) (request : Request) : Prop :=
  o.findings.length = request.selections.length ∧ ∀ f ∈ o.findings, f.verdict.Legal

instance (o : Outcome) (request : Request) : Decidable (o.Extractable request) :=
  inferInstanceAs (Decidable (_ ∧ _))

end Outcome

end Extraction
