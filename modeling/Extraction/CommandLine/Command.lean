import Extraction.CommandLine.Flag

/-!
# Commands

What a command line is about: a check, unless its first word names another command.  `Command.find`
tells the command and the arguments that are left for it.
-/

namespace Extraction.CommandLine

inductive Shell where
  | bash
  | fish
  | powershell
  | zsh
deriving DecidableEq, Repr

namespace Shell

def all : List Shell :=
  [bash, fish, powershell, zsh]

def name : Shell → String
  | bash => "bash"
  | fish => "fish"
  | powershell => "powershell"
  | zsh => "zsh"

def ofName? (name : String) : Option Shell :=
  all.find? fun s => s.name == name

def synopsis (s : Shell) : String :=
  s!"Generate the autocompletion script for {s.name}"

end Shell

inductive Command where
  | check
  | completion
  | script (shell : Shell)
  /-- Suggest how an unfinished command line may go on, with or without descriptions. -/
  | suggest (described : Bool)
deriving DecidableEq, Repr

namespace Command

def name : Command → String
  | check => "extractcheck"
  | completion => "completion"
  | script shell => shell.name
  | suggest _ => "__complete"

/-- The flags of a command, by name.  To suggest, all arguments are left as they are. -/
def flags : Command → List Flag
  | check =>
    [.config, .file, .format, .help, .initialErrors, .list, .noColor, .pos, .scope, .verbose,
      .version, .workers]
  | completion => [.help]
  | script _ => [.help, .noDescriptions]
  | suggest _ => []

/-- The flags that are known while the command is looked for. -/
def early (c : Command) : List Flag :=
  c.flags.filter fun f => f ≠ .help ∧ f ≠ .version

/-- Whether the argument after this one is its value.  Flags that are not known count as having
one. -/
def takesNext (known : List Flag) (argument : String) : Bool :=
  !argument.contains '=' &&
    match argument.toList with
    | '-' :: '-' :: name => !(Flag.ofName? known (String.ofList name)).any Flag.isSwitch
    | ['-', letter] =>
      argument.utf8ByteSize == 2 && !(Flag.ofLetter? known letter).any Flag.isSwitch
    | _ => false

/-- The first argument that is neither a flag nor its value.  A value at the very end hides what it
stands for. -/
def firstWord? (known : List Flag) : List String → Option String
  | [] => none
  | argument :: rest =>
    if argument = "--" then none
    else if takesNext known argument then
      match rest with
      | _ :: next :: rest => firstWord? known (next :: rest)
      | _ => none
    else if argument = "" ∨ argument.startsWith "-" then firstWord? known rest
    else some argument

/-- The arguments without the given word, where it stands for the first time as a word of its
own. -/
def without (known : List Flag) (word : String) : List String → List String
  | [] => []
  | argument :: rest =>
    if argument = "--" then argument :: rest
    else if takesNext known argument then
      match rest with
      | [] => [argument]
      | value :: rest => argument :: value :: without known word rest
    else if argument = word ∧ !argument.startsWith "-" then rest
    else argument :: without known word rest

def find (arguments : List String) : Command × List String :=
  let rest (word : String) : List String := without check.early word arguments
  match firstWord? check.early arguments with
  | some "completion" =>
    let rest := rest "completion"
    match (firstWord? completion.early rest).bind Shell.ofName? with
    | some shell => (script shell, without completion.early shell.name rest)
    | none => (completion, rest)
  | some "__complete" => (suggest true, rest "__complete")
  | some "__completeNoDesc" => (suggest false, rest "__completeNoDesc")
  | _ => (check, arguments)

end Command

end Extraction.CommandLine
