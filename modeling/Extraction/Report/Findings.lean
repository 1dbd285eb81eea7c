import Extraction.Check.Outcome
import Extraction.Report.Table

/-!
# Reports of outcomes

An outcome is shown as plain text, with or without color, as a table, or as one JSON document.
-/

namespace Extraction

namespace Report

inductive Style where
  | place
  | info
  | warning
  | error
  | legal
  | illegal
deriving DecidableEq, Repr

namespace Style

def code : Style → String
  | place => "1"
  | info => "36"
  | warning => "33"
  | error => "31;1"
  | legal => "32"
  | illegal => "31"

def paint (style : Style) (color : Bool) (text : String) : String :=
  if color then "\x1b[" ++ style.code ++ "m" ++ text ++ "\x1b[0m" else text

end Style

end Report

namespace Log

open Report

def paintEntry (log : Log) (disk : Disk) (cwd : String) (color : Bool) (e : Entry) : String :=
  Style.place.paint color (log.location disk e cwd ++ ":") ++
    match e.severity with
    | .info => Style.info.paint color s!" {e.message}\n"
    | .warning => Style.warning.paint color " warning:" ++ s!" {e.message}\n"
    | .error => Style.error.paint color " error:" ++ s!" {e.message}\n"

def paint (log : Log) (disk : Disk) (cwd : String) (color : Bool) : String :=
  String.join (log.entries.map (log.paintEntry disk cwd color))

def displayed (log : Log) (cwd : String) (e : Entry) : Entry :=
  { e with filename := (e.filename.map fun name => log.displayName name cwd).filter (· ≠ "") }

end Log

namespace Outcome

open Report

def place (o : Outcome) (disk : Disk) (cwd : String) (f : Finding) : String :=
  o.log.region disk f.filename (o.log.displayName f.filename cwd) f.extent

def plain (o : Outcome) (disk : Disk) (cwd : String) (color : Bool) : String :=
  String.join (o.findings.map fun f =>
    Style.place.paint color (o.place disk cwd f ++ ":") ++
      (if f.verdict.Legal then Style.legal else Style.illegal).paint color
      s!" {f.verdict.describe}\n")

/-- One row a finding, and below them how many selections can be extracted. -/
def table (o : Outcome) (disk : Disk) (cwd : String) : Table where
  header := ["SELECTION", "FUNCTION", "EXTRACTABLE", "RETURN", "ARGUMENTS", "RESULT"]
  rows := o.findings.map fun f =>
    let v := f.verdict
    [o.place disk cwd f, f.function.getD "", if v.Legal then "yes" else "no", v.returnKind.describe,
      ", ".intercalate (v.arguments.map (·.name)), (v.returnValue.map (·.name)).getD ""]
  footer :=
    let legal := (o.findings.filter fun f => decide f.verdict.Legal).length
    [s!"{o.findings.length} SELECTIONS", "", toString legal, "", "", ""]

def diagnosticDocument (d : Diagnostic) : Document :=
  .record [("kind", .text d.kind.describe), ("message", .text d.message),
    ("offset", .number d.extent.offset), ("length", .number d.extent.length)]

/-- A finding and the position that asked for it.  Fields that say nothing are left out. -/
def findingDocument (o : Outcome) (cwd : String) (f : Finding) (position : String) : Document :=
  let v := f.verdict
  let texts (items : List String) : Document := .array (items.map .text)
  let names (bs : List Binding) : Document := texts (bs.map (·.name))
  let optional (empty : Bool) (key : String) (d : Document) : List (String × Document) :=
    if empty then [] else [(key, d)]
  let function := f.function.getD ""
  let value := (v.returnValue.map (·.name)).getD ""
  .record
    ([("file", .text (o.log.displayName f.filename cwd)), ("pos", .text position),
        ("offset", .number f.extent.offset), ("length", .number f.extent.length)] ++
      optional (function == "") "func" (.text function) ++
      [("extractable", .flag (decide v.Legal)), ("return_kind", .text v.returnKind.describe),
        ("arguments", names v.arguments), ("extracted_locals", names v.extractedLocals),
        ("caller_locals", names v.callerLocals)] ++
      optional (value == "") "return_value" (.text value) ++
      optional v.throws.isEmpty "throws" (texts (v.throws.map (·.name))) ++
      optional v.diagnostics.isEmpty "diagnostics" (.array (v.diagnostics.map diagnosticDocument)))

/-- The findings, in the order of the positions that asked for them, and the log. -/
def document (o : Outcome) (cwd : String) (positions : List String) : Document :=
  .record
    [("checks", .array (o.findings.zipIdx.map fun (f, i) =>
    o.findingDocument cwd f ((positions[i]?).getD ""))),
      ("log", .array (o.log.entries.map fun e => (o.log.displayed cwd e).document))]

end Outcome

end Extraction
