import Extraction.Check.Outcome
import Extraction.GoCode.Lexeme

/-!
# The extractability check

Loads the program, finds the selected file and extents, and analyzes each selection.  The log opens
with the scope and the errors of the program, to which the policy of the request applies; then
follows either the one reason why nothing was analyzed, or what was found of each selection.
-/

namespace Extraction.Extractability

inductive Obstacle where
  | noSelection
  | unloadable (scope reason : String)
  | outsideScope (sel : Selection) (scope : String) (cause : ConvertError)
  | severalFiles (first second : String)
  | notTypeChecked (filename : String)
  | unreadable (filename : String) (cause : DiskError)
  | interrupted (filename : String) (cause : BatchError)
deriving DecidableEq, Repr

namespace Obstacle

def message : Obstacle → String
  | noSelection => "No selection was provided"
  | unloadable scope reason => s!"Unable to load {scope}: {reason}"
  | outsideScope sel scope cause =>
    s!"The selected file, {sel.filename}, was not found in the provided scope ({scope}): " ++
      cause.message
  | severalFiles first second => s!"All selections must be in the same file ({first}, {second})"
  | notTypeChecked filename => s!"The selected file, {filename}, was not type checked"
  | unreadable filename cause => s!"Unable to read {filename}: " ++ cause.message
  | interrupted filename cause => s!"Analysis of {filename} was interrupted: " ++ cause.message

/-- Logs the obstacle, together with the file that was not found. -/
def report (o : Obstacle) (directory : String) (log : Log) : Log :=
  let log := log.add .error o.message
  match o with
  | outsideScope sel _ _ => log.associate directory sel.filename
  | _ => log

end Obstacle

def errorLimit : Nat := 10

def defaultScope (directory filename : String) : List String :=
  ["file=" ++ Path.absolute directory filename]

def scopeMessage (request : Request) (first : Selection) : String :=
  match request.scope with
  | some scope => "Scope is " ++ " ".intercalate scope
  | none =>
    s!"Defaulting to the package containing {Path.base first.filename} (provide an explicit scope to change this)"

def programErrors (errors : List String) : List String :=
  errors.take errorLimit ++
    if errors.length ≤ errorLimit then []
    else [s!"{errors.length - errorLimit} more errors were not reported"]

def openingLog (scopeMessage : String) (policy : ErrorPolicy)
    (loaded : Except String Program) : Log :=
  let (files, errors) :=
    match loaded with
    | .error _ => ([], [])
    | .ok program => (program.sources, programErrors program.errors)
  policy.apply (errors.foldl (fun log e => log.add .error e)
    ({ files := some files : Log }.add .info scopeMessage))

def locate (disk : Disk) (program : Program) (scope : String) (sel : Selection) :
    Except Obstacle (SourceFile × Extent) :=
  (sel.convert program.sources disk).mapError (.outsideScope sel scope)

/-- The extents of further selections, which must be in the file of the first. -/
def extentsIn (disk : Disk) (program : Program) (scope : String) (file : SourceFile) :
    List Selection → Except Obstacle (List Extent)
  | [] => .ok []
  | sel :: rest => do
    let (other, extent) ← locate disk program scope sel
    if other.name ≠ file.name then throw (.severalFiles file.name other.name)
    return extent :: (← extentsIn disk program scope file rest)

def target (disk : Disk) (program : Program) (scope : String) (first : Selection)
    (rest : List Selection) :
    Except Obstacle (SourceFile × List Extent) := do
  let (file, extent) ← locate disk program scope first
  return (file, extent :: (← extentsIn disk program scope file rest))

def contents (host : Host) (request : Request) (filename : String) : Except Obstacle (List UInt8) :=
  match request.overlay.lookup filename with
  | some bytes => .ok bytes
  | none => (host.disk.read filename).mapError (.unreadable filename)

def finding (file : LoadedFile) (sel : Selection) (extent : Extent) (verdict : Verdict) : Finding :=
  { selection := some sel, filename := file.source.name, extent,
    function := file.functionAt extent, verdict }

def analyzeFile (host : Host) (request : Request) (program : Program) (source : SourceFile)
    (extents : List Extent) :
    Except Obstacle (List (LoadedFile × Finding)) := do
  let some file := program.files.find? (·.source.name == source.name)
    | throw (.notTypeChecked source.name)
  let some code := file.code | throw (.notTypeChecked source.name)
  let bytes ← contents host request source.name
  let verdicts ← (analyzeAll host.canceled code.tree (GoCode.boundariesOf bytes) extents).mapError
    (.interrupted source.name)
  return (request.selections.zip (extents.zip verdicts)).map fun (sel, extent, verdict) =>
    (file, finding file sel extent verdict)

def resultType (file : LoadedFile) (extent : Extent) (v : Verdict) : Option String :=
  match v.returnKind with
  | .variableValue =>
    match v.returnValue.bind (·.type) with
    | some (.written _ relative) => some relative
    | _ => none
  | .expression => file.expressionTypeAt extent
  | .statementValue => file.resultsAt extent
  | _ => none

def descriptions (file : LoadedFile) (f : Finding) : List String :=
  let signature := f.verdict.signature true (resultType file f.extent f.verdict)
  let remaining := ", ".intercalate (f.verdict.callerLocals.map (·.name))
  let caller := f.function.getD "the enclosing function"
  s!"Selection can be extracted as {signature} ({f.verdict.returnKind.describe})" ::
    if f.verdict.callerLocals.isEmpty then []
    else [s!"Declarations of {remaining} must remain in {caller}"]

/-- Logs a finding: its diagnostics or, if asked for, what the selection would become. -/
def report (directory : String) (verbose : Bool) (log : Log) (file : LoadedFile)
    (f : Finding) : Log :=
  let log := f.verdict.diagnostics.foldl (fun log d => log.diagnostic directory f.filename d) log
  if verbose ∧ f.verdict.Legal then
    (descriptions file f).foldl
      (fun log text => (log.add .info text).associateExtent directory f.filename f.extent) log
  else log

def investigate (host : Host) (request : Request) (scope : String) (loaded : Except String Program)
    (first : Selection) (rest : List Selection) :
    Except Obstacle (List (LoadedFile × Finding)) := do
  let program ← loaded.mapError (.unloadable scope)
  let (source, extents) ← target host.disk program scope first rest
  analyzeFile host request program source extents

/-- Decides for each selection of the request whether it can be extracted into a function of its
own. -/
def run (host : Host) (request : Request) : Outcome :=
  let directory := host.disk.current
  match request.selections with
  | [] => { log := Obstacle.noSelection.report directory {}, scope := request.scope }
  | first :: rest =>
    let scope := request.scope.getD (defaultScope directory first.filename)
    let loaded := host.load { request with scope := some scope }
    let log := openingLog (scopeMessage request first) request.policy loaded
    match investigate host request (" ".intercalate scope) loaded first rest with
    | .error obstacle => { log := obstacle.report directory log, scope := some scope }
    | .ok findings =>
      { log := findings.foldl (fun log (file, f) => report directory request.verbose log file f) log
        findings := findings.map (·.2)
        scope := some scope }

end Extraction.Extractability
