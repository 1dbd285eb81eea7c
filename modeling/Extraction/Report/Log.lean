import Extraction.Analysis.Diagnostic
import Extraction.Report.Document
import Extraction.Text.SourceFile

/-!
# Logs

Every check returns a log of messages, warnings and errors.  Initial entries are those made while
the program was loaded; errors among them can be turned into warnings, or the entries be removed,
without touching later entries.
-/

namespace Extraction

inductive Severity where
  | info
  | warning
  | error
deriving DecidableEq, Repr

namespace Severity

/-- Every number but the first two means an error. -/
def ofCode : Int → Severity
  | 0 => info
  | 1 => warning
  | _ => error

def describe : Severity → String
  | info => "info"
  | warning => "warning"
  | error => "error"

end Severity

structure Entry where
  isInitial : Bool := false
  severity : Severity
  message : String
  filename : Option String := none
  position : Option Extent := none
  kind : Option DiagnosticKind := none
deriving DecidableEq, Repr

namespace Entry

def isInitialError (e : Entry) : Bool :=
  e.isInitial && e.severity == .error

def downgrade (e : Entry) : Entry :=
  if e.isInitialError then { e with severity := .warning } else e

def describe (e : Entry) : String :=
  (match e.severity with
    | .info => ""
    | .warning => "Warning: "
    | .error => "Error: ") ++
  (match e.filename with
    | none => ""
    | some name =>
      name ++ (match e.position with
        | none => ""
        | some extent => ", " ++ extent.describe) ++ ": ") ++
  e.message

def document (e : Entry) : Report.Document :=
  .record ([("severity", .text e.severity.describe), ("message", .text e.message)] ++
    (e.filename.toList.map fun name => ("filename", .text name)) ++
    (e.position.toList.map fun extent =>
      ("position", .record [("offset", .number extent.offset),
        ("length", .number extent.length)])) ++
    (e.kind.toList.map fun kind => ("kind", .text kind.describe)))

end Entry

structure Log where
  files : Option FileSet := none
  entries : List Entry := []
  /-- Names to display in place of absolute file names, latest first. -/
  aliases : List (String × String) := []

namespace Log

/-- The template with its places `%s` filled in order; `%%` is a percent sign. -/
def fill : List Char → List String → String
  | [], [] => ""
  | [], extra => "%!(EXTRA " ++ ", ".intercalate (extra.map ("string=" ++ ·)) ++ ")"
  | '%' :: '%' :: rest, args => "%" ++ fill rest args
  | '%' :: 's' :: rest, [] => "%!s(MISSING)" ++ fill rest []
  | '%' :: 's' :: rest, arg :: args => arg ++ fill rest args
  | c :: rest, args => c.toString ++ fill rest args

def add (log : Log) (severity : Severity) (message : String) : Log :=
  { log with entries := log.entries ++ [{ severity, message }] }

def modifyLast (f : Entry → Entry) : List Entry → List Entry
  | [] => []
  | [e] => [f e]
  | e :: rest => e :: modifyLast f rest

/-- Associates the last entry with a file, named relative to `directory`. -/
def associate (log : Log) (directory filename : String) : Log :=
  { log with
    entries := modifyLast (fun e => { e with filename := some (Path.absolute directory filename) })
      log.entries }

def associateExtent (log : Log) (directory filename : String) (extent : Extent) : Log :=
  { log with
    entries := modifyLast
      (fun e =>
      { e with filename := some (Path.absolute directory filename), position := some extent })
      log.entries }

def diagnostic (log : Log) (directory filename : String) (d : Diagnostic) : Log :=
  let log := (log.add .error d.message).associateExtent directory filename d.extent
  { log with entries := modifyLast (fun e => { e with kind := some d.kind }) log.entries }

def setAlias (log : Log) (directory filename name : String) : Log :=
  { log with aliases := (Path.absolute directory filename, name) :: log.aliases }

/-- The name to display for a file: its alias, its path relative to `cwd` if there is one, or the
name as it is. -/
def displayName (log : Log) (file cwd : String) : String :=
  match log.aliases.lookup file with
  | some name => name
  | none => if cwd = "" then file else (Path.relative? cwd file).getD file

def markInitial (log : Log) : Log :=
  { log with entries := log.entries.map fun e => { e with isInitial := true } }

def removeInitial (log : Log) : Log :=
  { log with entries := log.entries.filter fun e => !e.isInitial }

def downgradeInitial (log : Log) : Log :=
  { log with entries := log.entries.map Entry.downgrade }

def clear (log : Log) : Log :=
  { log with entries := [] }

def containsErrors (log : Log) : Bool :=
  log.entries.any fun e => e.severity == .error

def containsInitialErrors (log : Log) : Bool :=
  log.entries.any Entry.isInitialError

def describe (log : Log) : String :=
  String.join (log.entries.map fun e => e.describe ++ "\n")

/-- Where a region of a file is: lines and columns if the file was loaded and holds the region, else
its offset and length. -/
def region (log : Log) (disk : Disk) (filename name : String) (extent : Extent) : String :=
  match log.files.bind fun files => files.find? disk filename with
  | some f =>
    if (f.size : Int) < extent.past then s!"{name}:#{extent.offset},{extent.length}"
    else
      let (startLine, startCol) := f.displayed extent.offset
      let (endLine, endCol) := f.displayed extent.past
      s!"{name}:{startLine}.{startCol}-{endLine}.{endCol}"
  | none => s!"{name}:#{extent.offset},{extent.length}"

/-- Where an entry is, as the log displays it.  An entry without a file is attributed to the
program. -/
def location (log : Log) (disk : Disk) (e : Entry) (cwd : String) : String :=
  match e.filename with
  | none => "extractcheck"
  | some filename =>
    let name := log.displayName filename cwd
    match e.position with
    | none => name
    | some extent => log.region disk filename name extent

/-- One line an entry: its location, its severity unless it is a mere message, and its text. -/
def write (log : Log) (disk : Disk) (cwd : String) : String :=
  String.join (log.entries.map fun e =>
    log.location disk e cwd ++ ": " ++
      (match e.severity with
        | .info => ""
        | .warning => "warning: "
        | .error => "error: ") ++
      e.message ++ "\n")

def document (log : Log) : Report.Document :=
  .record [("entries", .array (log.entries.map Entry.document))]

end Log

inductive ErrorPolicy where
  | report
  | downgrade
  | ignore
deriving DecidableEq, Repr

namespace ErrorPolicy

def parse? : String → Option ErrorPolicy
  | "" | "error" => some report
  | "warn" | "warning" => some downgrade
  | "ignore" => some ignore
  | _ => none

def rejectionOf (quoted : String) : String :=
  s!"invalid error policy {quoted} (valid: error, warn, ignore)"

def rejection (text : String) : String :=
  rejectionOf (Quoted.encode text)

def code : ErrorPolicy → Int
  | report => 0
  | downgrade => 1
  | ignore => 2

def ofCode : Int → ErrorPolicy
  | 1 => downgrade
  | 2 => ignore
  | _ => report

/-- Treats the entries so far as initial and applies the policy to them. -/
def apply (policy : ErrorPolicy) (log : Log) : Log :=
  match policy with
  | report => log.markInitial
  | downgrade => log.markInitial.downgradeInitial
  | ignore => log.markInitial.removeInitial

end ErrorPolicy

end Extraction
