import Extraction.Report.Log
import Extraction.Yaml.Written

/-!
# Settings

The settings of the program, what makes them valid, and how they are written.
-/

namespace Extraction

structure Settings where
  /-- The form of the output: `plain`, `table` or `json`. -/
  format : String := "plain"
  color : Bool := true
  verbose : Bool := false
  /-- How many selections are analyzed at once; zero leaves it open. -/
  workers : Int := 0
  /-- How errors that were there before the analysis are reported: `error`, `warn` or `ignore`. -/
  initialErrors : String := "error"
  /-- The packages to load; none given means the package of the selected file. -/
  scope : Option (List String) := none
  path : String := ""
deriving DecidableEq, Repr

inductive SettingsError where
  | format (text : String)
  | negativeWorkers
  | policy (text : String)
  /-- Bytes in place of the name of a policy. -/
  | policyBytes (bytes : List UInt8)
deriving DecidableEq, Repr

namespace SettingsError

def message : SettingsError → String
  | format text => s!"invalid output format: {text} (valid: plain, table, json)"
  | negativeWorkers => "workers must not be negative"
  | policy text => ErrorPolicy.rejection text
  | policyBytes bytes => ErrorPolicy.rejectionOf (Quoted.encodeBytes bytes)

end SettingsError

inductive OutputFormat where
  | plain
  | table
  | json
deriving DecidableEq, Repr

namespace OutputFormat

def parse? : String → Option OutputFormat
  | "plain" => some plain
  | "table" => some table
  | "json" => some json
  | _ => none

end OutputFormat

namespace Settings

def outputFormat (s : Settings) : OutputFormat :=
  (OutputFormat.parse? s.format).getD .plain

def policy (s : Settings) : ErrorPolicy :=
  (ErrorPolicy.parse? s.initialErrors).getD .report

/-- The settings if they are valid, or else the first thing that is wrong with them. -/
def validate (s : Settings) : Except SettingsError Settings :=
  if (OutputFormat.parse? s.format).isNone then .error (.format s.format)
  else if s.workers < 0 then .error .negativeWorkers
  else if (ErrorPolicy.parse? s.initialErrors).isNone then .error (.policy s.initialErrors)
  else .ok s

/-- The settings as a YAML document.  An empty scope is left out. -/
def write (s : Settings) : String :=
  let flag (b : Bool) : String := if b then "true\n" else "false\n"
  let items := (s.scope.getD []).map (Yaml.Written.line "  - " 4)
  Yaml.Written.line "format: " 2 s.format ++ "color: " ++ flag s.color ++ "verbose: " ++
    flag s.verbose ++
    s!"workers: {s.workers}\n" ++ Yaml.Written.line "initial_errors: " 2 s.initialErrors ++
    (if items.isEmpty then "" else "scope:\n" ++ String.join items)

end Settings

end Extraction
