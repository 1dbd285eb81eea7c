import Extraction.Analysis.Flow
import Extraction.Analysis.Locals
import Extraction.Analysis.Raises
import Extraction.Analysis.Trace

/-!
# Verdicts

The verdict on a selection: whether it can be extracted into a method of its own and, if not, every
reason why; what the method takes, keeps, returns and raises.
-/

namespace Extraction

inductive ReturnKind where
  | nothing
  | expression
  /-- The value of a variable that the caller goes on to read. -/
  | variableValue
  /-- The value that the enclosing method returns. -/
  | statementValue
  /-- Nothing, but the caller returns after the call. -/
  | statementVoid
deriving DecidableEq, Repr

namespace ReturnKind

def describe : ReturnKind → String
  | nothing => "NO"
  | expression => "EXPRESSION"
  | variableValue => "ACCESS_TO_LOCAL"
  | statementValue => "RETURN_STATEMENT_VALUE"
  | statementVoid => "RETURN_STATEMENT_VOID"

def describeCode : Int → String
  | 0 => nothing.describe
  | 1 => expression.describe
  | 2 => variableValue.describe
  | 3 => statementValue.describe
  | 4 => statementVoid.describe
  | _ => "UNKNOWN"

end ReturnKind

structure Verdict where
  diagnostics : List Diagnostic
  returnKind : ReturnKind := .nothing
  arguments : List Binding := []
  extractedLocals : List Binding := []
  /-- Variables whose declarations must stay in the caller. -/
  callerLocals : List Binding := []
  returnValue : Option Binding := none
  throws : List ClassType := []
  method : Option Nat := none
  selected : List Nat := []
  flow : Flow := {}
deriving DecidableEq, Repr

namespace Verdict

def Legal (v : Verdict) : Prop :=
  v.diagnostics = []

instance (v : Verdict) : Decidable v.Legal :=
  inferInstanceAs (Decidable (_ = _))

def nameList (label : String) (names : List String) : String :=
  if names.isEmpty then "" else "; " ++ label ++ " " ++ ", ".intercalate names

def describe (v : Verdict) : String :=
  (if v.Legal then "extractable" else "not extractable") ++
    "; return " ++ v.returnKind.describe ++
    nameList "arguments" (v.arguments.map (·.name)) ++
    nameList "locals" (v.extractedLocals.map (·.name)) ++
    nameList "caller locals" (v.callerLocals.map (·.name)) ++
    nameList "returns" (v.returnValue.toList.map (·.name)) ++
    nameList "throws" (v.throws.map (·.name)) ++
    String.join (v.diagnostics.map fun d => "; " ++ d.describe)

end Verdict

namespace Trace

def flowDiagnostics (sel : Extent) (flow : Flow) : List Diagnostic :=
  (if flow.mode = .someReturn then
    [⟨.partialReturn, "Some, but not all, paths through the selection return", none, sel⟩]
      else []) ++
  if flow.openBranches = [] then []
  else
    let names := ", ".intercalate (flow.sortedBranches.map BranchTarget.describe)
    [⟨.unresolvedBranch, s!"The selection contains a jump whose target is outside it ({names})",
      none, sel⟩]

def candidateDiagnostics (sel : Extent) (candidates : List Binding) : List Diagnostic :=
  if candidates.length ≤ 1 then []
  else
    let names := ", ".intercalate (candidates.map (·.name))
    [⟨.ambiguousReturnValue,
      s!"More than one variable assigned in the selection is used afterward ({names})", none, sel⟩]

/-- The selection may yield the value of an expression, the value of a variable or a return, but
only one of these. -/
def yieldDiagnostics (sel : Extent) (expression variableValue returns : Bool)
    (earlier : List Diagnostic) :
    List Diagnostic :=
  if expression.toNat + variableValue.toNat + returns.toNat ≤ 1 then []
  else
    ⟨.multipleReturnCandidates,
      "The selection yields more than one of an expression, an assigned variable, and a return",
      none, sel⟩ ::
    if earlier.any fun d => d.kind = .ambiguousReturnValue then []
    else
      [⟨.ambiguousReturnValue, "The extracted method cannot return more than one value", none, sel⟩]

def returnKind (expression variableValue returns void : Bool) : ReturnKind :=
  if expression then .expression
  else if variableValue then .variableValue
  else if returns then if void then .statementVoid else .statementValue
  else .nothing

def verdict (s : Trace) (sel : Extent) (validated : List Diagnostic) : Verdict :=
  let base : Verdict :=
    { diagnostics := validated, method := s.method.map (·.id), selected := s.topLevel.map (·.id) }
  if validated.any fun d => d.kind = .noEnclosingMethod then base
  else
    let events := s.events.toList
    let flow := (Returns.ofEvents events).flow
    let locals := Locals.ofEvents events
    let returns := decide (flow.mode = .allReturn)
    let variableValue := locals.returnValue.isSome
    let earlier := validated ++ flowDiagnostics sel flow ++
      candidateDiagnostics sel locals.candidates
    { base with
      diagnostics := earlier ++ yieldDiagnostics sel s.isExpression variableValue returns earlier
      returnKind := returnKind s.isExpression variableValue returns (s.method.any (·.void))
      arguments := locals.arguments sel
      extractedLocals := locals.extractedLocals sel
      callerLocals := locals.callerLocals sel
      returnValue := locals.returnValue
      throws := (Raises.ofEvents events).escaping
      flow }

end Trace

/-- Decides whether the selection can be extracted into a method. -/
def analyze (t : SyntaxTree) (sel : Extent) (boundaries : Boundaries) : Except Fault Verdict :=
  let s := Trace.ofSelection t sel
  match s.fault with
  | some fault => .error fault
  | none => (s.validated sel boundaries).map (s.verdict sel)

end Extraction
