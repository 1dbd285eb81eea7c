import Extraction.Check.Registry
import Extraction.CommandLine.Help
import Extraction.CommandLine.Script
import Extraction.CommandLine.Suggestion
import Extraction.Report.Findings
import Extraction.Settings.Reading

/-!
# The command line

`CommandLine.run` reads the arguments, runs a check and shows its outcome.  Messages about the use
of the program go to the error output; the exit code tells whether every selection can be extracted.
-/

namespace Extraction.CommandLine

inductive ExitCode where
  | extractable
  | usage
  | help
  | notExtractable
deriving DecidableEq, Repr

namespace ExitCode

def code : ExitCode → Nat
  | extractable => 0
  | usage => 1
  | help => 2
  | notExtractable => 3

end ExitCode

structure Response where
  exit : ExitCode
  output : String := ""
  errors : String := ""
deriving DecidableEq, Repr

/-- What the command line can see of its surroundings. -/
structure Surroundings where
  registry : Registry := Registry.standard
  host : Host
  input : List UInt8 := []
  /-- An empty directory, for a file that holds the standard input. -/
  scratch : String

inductive UsageError where
  | flag (cause : FlagError)
  | tooManyArguments (count : Nat)
  | noArguments
  | unknownCommand (name : String) (parent : Command)
  | listNotAlone
  | noSuchCheck (name : String)
  | unusableSettings (cause : Settings.LoadError)
  | invalidSettings (cause : SettingsError)
  | noPosition
  | invalidPosition (text : String) (cause : PositionError)
deriving DecidableEq, Repr

namespace UsageError

def message : UsageError → String
  | flag cause => cause.message
  | tooManyArguments count => s!"accepts at most 1 arg(s), received {count}"
  | noArguments => "requires at least 1 arg(s), only received 0"
  | unknownCommand name parent =>
    s!"unknown command {Quoted.encode name} for {Quoted.encode parent.path}"
  | listNotAlone => "The --list flag cannot be used with any other flags or arguments"
  | noSuchCheck name => s!"There is no check named \"{name}\""
  | unusableSettings cause => cause.message
  | invalidSettings cause => cause.message
  | noPosition => "At least one --pos is required"
  | invalidPosition text cause => s!"{text}: {cause.message}"

end UsageError

/-- Why a command line has no response of its own. -/
inductive Failure where
  | usage (cause : UsageError)
  | fault (cause : Fault)
deriving DecidableEq, Repr

namespace Failure

def response : Failure → Response
  | usage cause =>
    { exit := .usage,
      errors := s!"Error: {cause.message}\nRun 'extractcheck --help' for more information.\n" }
  | fault cause => { exit := .notExtractable, errors := s!"Error: {cause.message}\n" }

end Failure

def versionText : String :=
  s!"extractcheck version {Registry.version}\n"

def inputName : String := "<stdin>"

def pad (width : Nat) (text : String) : String :=
  text ++ Report.Table.spaces (width - text.length)

/-- The checks that are not hidden, with what they do. -/
def listing (registry : Registry) : String :=
  let row (name synopsis : String) : String := pad 15 name ++ "\t" ++ synopsis ++ "\n"
  row "Check" "Description" ++ String.ofList (List.replicate 80 '-') ++ "\n" ++
    String.join (registry.names.filterMap fun name =>
      match registry.find? name with
      | some check =>
        if check.description.isHidden then none else some (row name check.description.synopsis)
      | none => none)

/-- The settings with the flags that were given in place of theirs. -/
def Options.override (o : Options) (s : Settings) : Settings where
  format := if o.has .format then o.format else s.format
  color := if o.has .noColor then !o.noColor else s.color
  verbose := if o.has .verbose then o.verbose else s.verbose
  workers := if o.has .workers then o.workers else s.workers
  initialErrors := if o.has .initialErrors then o.initialErrors else s.initialErrors
  scope := if o.has .scope then some o.scope else s.scope
  path := s.path

def settings (disk : Disk) (o : Options) : Except UsageError Settings := do
  let s ← (Settings.load disk o.config disk.current).mapError .unusableSettings
  (o.override s).validate.mapError .invalidSettings

/-- The file that holds the standard input, if no other file is named. -/
def inputFile? (scratch : String) (o : Options) : Option String :=
  if o.file = "" ∨ o.file = "-" then some (Path.join scratch "stdin.go") else none

/-- Whether a command line, as far as it can be read, has the standard input checked. -/
def readsInput (arguments : List String) : Bool :=
  match Options.parse Command.check.flags arguments with
  | .ok o => (inputFile? "" o).isSome && !o.positions.isEmpty
  | .error _ => false

/-- The files that a command line may look at. -/
def filesRead (arguments : List String) : List String :=
  match Options.parse Command.check.flags arguments with
  | .ok o => Settings.fileNames ++ [o.config, o.file].filter (· ≠ "")
  | .error _ => []

/-- The request to a check.  Standard input is a package of its own; a file is looked up from its
own directory, unless a scope is given. -/
def request (s : Surroundings) (o : Options) (given : Settings) : Except UsageError Request := do
  let cwd := s.host.disk.current
  let input := inputFile? s.scratch o
  let file := input.getD o.file
  let selections ← o.positions.mapM fun text =>
    (Selection.parse cwd file text).mapError (.invalidPosition text)
  return {
    scope := given.scope.or (input.map fun path => [path])
    selections
    overlay := input.toList.map fun path => (path, s.input)
    directory :=
      match input, given.scope with
      | some _, _ => s.scratch
      | none, none => Path.directory (Path.absolute cwd file)
      | none, some _ => ""
    workers := given.workers
    policy := given.policy
    verbose := given.verbose }

def present (disk : Disk) (given : Settings) (positions : List String) (o : Outcome) :
    String × String :=
  let cwd := disk.current
  match given.outputFormat with
  | .json => ((o.document cwd positions).indented "" ++ "\n", "")
  | .table => ((o.table disk cwd).render, o.log.paint disk cwd given.color)
  | .plain => (o.plain disk cwd given.color, o.log.paint disk cwd given.color)

def runCheck (s : Surroundings) (o : Options) : Except Failure Response := do
  let disk := s.host.disk
  let name := o.arguments.headD "extract"
  let some check := s.registry.find? name | throw (.usage (.noSuchCheck name))
  let given ← (settings disk o).mapError .usage
  if o.positions.isEmpty then throw (.usage .noPosition)
  let request ← (request s o given).mapError .usage
  let outcome ← (check.run s.host request).mapError .fault
  let log :=
    match inputFile? s.scratch o with
    | some path => outcome.log.setAlias disk.current path inputName
    | none => outcome.log
  let outcome := { outcome with log }
  let (output, errors) := present disk given o.positions outcome
  let failed := log.containsErrors || !decide (outcome.Extractable request)
  return { exit := if failed then .notExtractable else .extractable, output, errors }

def help (c : Command) : Response :=
  { exit := .help, errors := c.help }

def obey (s : Surroundings) (o : Options) : Except Failure Response :=
  if o.help then .ok (help .check)
  else if o.version then .ok { exit := .extractable, errors := versionText }
  else if 1 < o.arguments.length then .error (.usage (.tooManyArguments o.arguments.length))
  else if o.arguments = ["help"] ∨ (o.arguments = [] ∧ o.given = []) then .ok (help .check)
  else if o.list then
    if o.arguments = [] ∧ o.given.length = 1 then
      .ok { exit := .extractable, output := listing s.registry }
    else .error (.usage .listNotAlone)
  else runCheck s o

def runCommand (s : Surroundings) (c : Command) (arguments : List String) :
    Except Failure Response := do
  let options := (Options.parse c.flags arguments).mapError fun cause => Failure.usage (.flag cause)
  match c with
  | .check => obey s (← options)
  | .completion =>
    let _ ← options
    return help c
  | .script shell =>
    let o ← options
    if o.help then return help c
    if let some name := o.arguments.head? then throw (.usage (.unknownCommand name c))
    return { exit := .extractable, errors := shell.script (!o.noDescriptions) }
  | .suggest described =>
    if arguments.isEmpty then throw (.usage .noArguments)
    return { exit := .extractable, errors := (Suggestions.ofArguments arguments).render described }

def respond (s : Surroundings) (arguments : List String) : Except Failure Response :=
  let (c, rest) := Command.find arguments
  runCommand s c rest

def run (s : Surroundings) (arguments : List String) : Response :=
  match respond s arguments with
  | .ok response => response
  | .error e => e.response

end Extraction.CommandLine
