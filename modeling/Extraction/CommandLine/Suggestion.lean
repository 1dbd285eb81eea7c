import Extraction.CommandLine.Command
import Extraction.CommandLine.Options

/-!
# Suggestions

How the last argument of an unfinished command line may be completed: to the name of a flag, or of a
command.
-/

namespace Extraction.CommandLine

/-- What a shell may do beside offering the suggestions. -/
inductive Directive where
  /-- Offer files if there are no suggestions. -/
  | default
  | noFiles
deriving DecidableEq, Repr

namespace Directive

def code : Directive → Nat
  | default => 0
  | noFiles => 4

def name : Directive → String
  | default => "ShellCompDirectiveDefault"
  | noFiles => "ShellCompDirectiveNoFileComp"

end Directive

structure Suggestions where
  items : List (String × String) := []
  directive : Directive := .default
deriving DecidableEq, Repr

namespace Suggestions

/-- The command that unfinished arguments are for.  Other commands than a check are looked at only
after the word that starts them. -/
def target (arguments : List String) (finished : List String) : Command × List String :=
  if 1 < arguments.length ∧ arguments.head? = some "completion" then Command.find finished
  else (.check, finished)

inductive Role where
  /-- It stands for itself, or what follows an equals sign in it does. -/
  | word (text : String)
  /-- It is, or ends with, the value of a flag; the other arguments are left. -/
  | value (finished : List String)
  /-- It is, or ends with, the value of a flag that is not known. -/
  | unknown
deriving DecidableEq, Repr

/-- A flag by its name, or by its letter if the name is no longer than that. -/
def flag? (known : List Flag) (name : List Char) : Option Flag :=
  match name with
  | [letter] => if letter.utf8Size = 1 then Flag.ofLetter? known letter else none
  | _ => Flag.ofName? known (String.ofList name)

/-- The name of a flag in an argument, which for a group of letters is the last of them. -/
def flagName : List Char → List Char
  | '-' :: '-' :: name => name
  | '-' :: group => group.getLast?.toList
  | _ => []

/-- The role of a text after finished arguments.  Before a value of its own the last of them is a
flag that has one; `assigned` tells that an equals sign stood before the text. -/
def roleAfter (known : List Flag) (finished : List String) (assigned : Bool)
    (text : String) : Role :=
  match finished.getLast? with
  | none => .word text
  | some argument =>
    let name := flagName argument.toList
    if argument.contains '=' ∨ name.isEmpty then .word text
    else
      match flag? known name with
      | some flag => if flag.isSwitch && !assigned then .word text else .value finished.dropLast
      | none => .unknown

def role (known : List Flag) (finished : List String) (last : String) : Role :=
  if !last.startsWith "-" then roleAfter known finished false last
  else if !last.contains '=' then .word last
  else
    let before := last.toList.takeWhile (· ≠ '=')
    let name := if before = ['-'] then before else flagName before
    if name.isEmpty then
      roleAfter known finished true (String.ofList (last.toList.drop (before.length + 1)))
    else if (flag? known name).isSome then .value finished
    else .unknown

/-- The flags that the last argument may be the start of.  A flag that was given is not suggested
again, unless it may be repeated. -/
def flags (command : Command) (o : Options) (last : String) : List (String × String) :=
  let usable := command.flags.filter fun f => !o.has f || f.isRepeatable
  usable.flatMap fun f =>
    let spellings := ("--" ++ f.name) :: (f.letter?.map fun letter => s!"-{letter}").toList
    (spellings.filter fun s => last.toList.isPrefixOf s.toList).map fun s =>
      (s, f.usage command.name)

def words (command : Command) (o : Options) (last : String) : Suggestions :=
  match command with
  | .completion =>
    let shells := Shell.all.filter fun s => last.toList.isPrefixOf s.name.toList
    { items := if o.arguments = [] then shells.map fun s => (s.name, s.synopsis)
      else [], directive := .noFiles }
  | .script _ => { directive := .noFiles }
  | .check | .suggest _ => {}

/-- The suggestions for the last of the arguments.  Once help or the version is asked for there are
none. -/
def ofArguments (arguments : List String) : Suggestions :=
  let last := arguments.getLastD ""
  let (command, finished) := target arguments arguments.dropLast
  let role := role command.flags finished last
  let finished :=
    match role with
    | .value finished => finished
    | _ => finished
  match Options.parse command.flags finished, Options.parse command.flags (finished ++ ["--"]) with
  | .ok o, .ok more =>
    let flagsEnded := decide (o.arguments.length < more.arguments.length)
    if role = .unknown ∧ !flagsEnded then {}
    else if o.has .help || o.has .version then { directive := .noFiles }
    else
      match role with
      | .value _ => if flagsEnded then { words command o last with items := [] } else {}
      | .word text => if flagsEnded then words command o text else flagsOrWords command o text
      | .unknown => words command o last
  | _, _ => {}
where
  flagsOrWords (command : Command) (o : Options) (text : String) : Suggestions :=
    if text.startsWith "-" && !text.contains '=' then
      { items := flags command o text, directive := .noFiles }
    else words command o text

/-- The suggestions, one a line, and last what else the shell may do. -/
def render (described : Bool) (s : Suggestions) : String :=
  let line (item description : String) :=
    (if described then item ++ "\t" ++ description else item) ++ "\n"
  String.join (s.items.map fun (item, description) => line item description) ++
    s!":{s.directive.code}\nCompletion ended with directive: {s.directive.name}\n"

end Suggestions

end Extraction.CommandLine
