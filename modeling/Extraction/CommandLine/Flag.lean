/-!
# Flags

A flag has a name, which follows two dashes, and some also have a letter, which follows one.  A
switch is on or off; every other flag has a value.
-/

namespace Extraction.CommandLine

inductive Flag where
  | config
  | file
  | format
  | help
  | initialErrors
  | list
  | noColor
  | noDescriptions
  | pos
  | scope
  | verbose
  | version
  | workers
deriving DecidableEq, Repr

namespace Flag

def name : Flag → String
  | config => "config"
  | file => "file"
  | format => "format"
  | help => "help"
  | initialErrors => "initial-errors"
  | list => "list"
  | noColor => "no-color"
  | noDescriptions => "no-descriptions"
  | pos => "pos"
  | scope => "scope"
  | verbose => "verbose"
  | version => "version"
  | workers => "workers"

def letter? : Flag → Option Char
  | config => some 'c'
  | format => some 'f'
  | help => some 'h'
  | verbose => some 'v'
  | _ => none

def isSwitch : Flag → Bool
  | help | list | noColor | noDescriptions | verbose | version => true
  | _ => false

def isRepeatable : Flag → Bool
  | pos | scope => true
  | _ => false

def valueName : Flag → String
  | config | file | format | initialErrors => "string"
  | pos => "stringArray"
  | scope => "strings"
  | workers => "int"
  | _ => ""

def usage (command : String) : Flag → String
  | config => "Path to configuration file (default: .extractcheck.yml, if present)"
  | file => "Filename containing the selections (default: stdin)"
  | format => "Output format (plain, table, json)"
  | help => s!"help for {command}"
  | initialErrors => "Reporting of errors in the program before analysis (error, warn, ignore)"
  | list => "List all checks and exit"
  | noColor => "Disable colored output"
  | noDescriptions => "disable completion descriptions"
  | pos => "Selection to check, line,col:line,col or offset,length (repeatable)"
  | scope => "Package pattern(s) to load (default: the package of the file)"
  | verbose => "Describe the function each extractable selection would become"
  | version => s!"version for {command}"
  | workers => "Maximum number of selections analyzed at once (default: GOMAXPROCS)"

def ofName? (known : List Flag) (name : String) : Option Flag :=
  known.find? fun f => f.name == name

def ofLetter? (known : List Flag) (letter : Char) : Option Flag :=
  known.find? fun f => f.letter? == some letter

def title (f : Flag) : String :=
  match f.letter? with
  | some letter => s!"-{letter}, --{f.name}"
  | none => s!"--{f.name}"

/-- The flag as a list of flags shows it, without what it is for. -/
def entry (f : Flag) : String :=
  let value := if f.valueName = "" then "" else " " ++ f.valueName
  (if f.letter?.isSome then "  " else "      ") ++ f.title ++ value

/-- The flags of a command, one a line, and what they are for in a column of its own. -/
def listing (command : String) (flags : List Flag) : String :=
  let column := flags.foldl (fun n f => max n (f.entry.length + 3)) 0
  String.join (flags.map fun f =>
    f.entry ++ String.ofList (List.replicate (column - f.entry.length) ' ') ++
      f.usage command ++ "\n")

end Flag

end Extraction.CommandLine
