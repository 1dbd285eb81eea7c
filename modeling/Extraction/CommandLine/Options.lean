import Extraction.CommandLine.Flag
import Extraction.Text.Csv
import Extraction.Text.Integer
import Extraction.Text.Quoted

/-!
# Command-line options

Letters of flags may be grouped; flags and arguments may come in any order, and `--` ends the
flags.  A switch takes a value only after an equals sign, every other flag needs one.  Which flags
there are depends on the command.
-/

namespace Extraction.CommandLine

structure Options where
  /-- The flags that were given, each once. -/
  given : List Flag := []
  arguments : List String := []
  file : String := ""
  positions : List String := []
  scope : List String := []
  format : String := ""
  config : String := ""
  noColor : Bool := false
  verbose : Bool := false
  workers : Int := 0
  initialErrors : String := ""
  list : Bool := false
  help : Bool := false
  version : Bool := false
  noDescriptions : Bool := false
deriving DecidableEq, Repr

inductive ValueError where
  | switch (text : String)
  | number (text : String) (cause : IntegerError)
  | record (cause : CsvError)
deriving DecidableEq, Repr

namespace ValueError

def message : ValueError → String
  | switch text => s!"strconv.ParseBool: parsing {Quoted.encode text}: invalid syntax"
  | number text cause => s!"strconv.ParseInt: parsing {Quoted.encode text}: {cause.message}"
  | record cause => cause.message

end ValueError

inductive FlagError where
  | badSyntax (argument : String)
  | unknownName (name : String)
  | unknownLetter (group : List Char)
  | missingValue (argument : String)
  | missingLetterValue (group : List Char)
  | invalidValue (flag : Flag) (value : String) (cause : ValueError)
deriving DecidableEq, Repr

namespace FlagError

/-- The first byte of a group of letters, in single quotes. -/
def quoteFirst (group : List Char) : String :=
  match group with
  | [] => "''"
  | c :: _ =>
    let byte := Char.ofNat (((String.singleton c).toUTF8.toList.map UInt8.toNat).headD 0)
    let text := if byte = '\'' then ['\\', '\''] else if byte = '"' then ['"']
      else Quoted.escape byte
    String.ofList ('\'' :: text ++ ['\''])

def message : FlagError → String
  | badSyntax argument => s!"bad flag syntax: {argument}"
  | unknownName name => s!"unknown flag: --{name}"
  | unknownLetter group => s!"unknown shorthand flag: {quoteFirst group} in -{String.ofList group}"
  | missingValue argument => s!"flag needs an argument: {argument}"
  | missingLetterValue group =>
    s!"flag needs an argument: {quoteFirst group} in -{String.ofList group}"
  | invalidValue flag value cause =>
    s!"invalid argument {Quoted.encode value} for {Quoted.encode flag.title} flag: {cause.message}"

end FlagError

namespace Options

def switch (text : String) : Except ValueError Bool :=
  if text ∈ ["1", "t", "T", "TRUE", "true", "True"] then .ok true
  else if text ∈ ["0", "f", "F", "FALSE", "false", "False"] then .ok false
  else .error (.switch text)

/-- Sets the value of a flag.  Positions and scopes add up, every other value replaces the one
before. -/
def assign (o : Options) (flag : Flag) (value : String) : Except ValueError Options :=
  match flag with
  | .config => .ok { o with config := value }
  | .file => .ok { o with file := value }
  | .format => .ok { o with format := value }
  | .initialErrors => .ok { o with initialErrors := value }
  | .pos => .ok { o with positions := o.positions ++ [value] }
  | .scope =>
    if value = "" then .ok o
    else
      match Csv.record value with
      | .ok items => .ok { o with scope := o.scope ++ items }
      | .error cause => .error (.record cause)
  | .workers =>
    match Integer.signed value.toList with
    | .ok n => .ok { o with workers := n }
    | .error cause => .error (.number value cause)
  | .help => return { o with help := ← switch value }
  | .list => return { o with list := ← switch value }
  | .noColor => return { o with noColor := ← switch value }
  | .noDescriptions => return { o with noDescriptions := ← switch value }
  | .verbose => return { o with verbose := ← switch value }
  | .version => return { o with version := ← switch value }

def set (o : Options) (flag : Flag) (value : String) : Except FlagError Options :=
  match o.assign flag value with
  | .ok o => .ok { o with given := if flag ∈ o.given then o.given else o.given ++ [flag] }
  | .error cause => .error (.invalidValue flag value cause)

/-- A group of letters that belongs to a test runner and is left alone. -/
def isForeign (group : List Char) : Bool :=
  ['t', 'e', 's', 't', '.'].isPrefixOf group

/-- Reads a group of letters.  The result tells whether the next argument was taken as a value. -/
def readLetters (known : List Flag) (o : Options) (next : Option String) :
    List Char → Except FlagError (Options × Bool)
  | [] => .ok (o, false)
  | c :: rest =>
    if isForeign (c :: rest) then .ok (o, false)
    else
      match Flag.ofLetter? known c with
      | none => .error (.unknownLetter (c :: rest))
      | some flag =>
        match rest with
        | '=' :: v :: value => return (← o.set flag (String.ofList (v :: value)), false)
        | _ =>
          if flag.isSwitch then do
            let o ← o.set flag "true"
            readLetters known o next rest
          else if rest ≠ [] then return (← o.set flag (String.ofList rest), false)
          else
            match next with
            | some value => return (← o.set flag value, true)
            | none => .error (.missingLetterValue (c :: rest))

/-- Reads a flag by its name, which may be followed by an equals sign and the value. -/
def readName (known : List Flag) (o : Options) (next : Option String) (text : List Char) :
    Except FlagError (Options × Bool) :=
  let argument := String.ofList ('-' :: '-' :: text)
  if text.head? = some '-' ∨ text.head? = some '=' then .error (.badSyntax argument)
  else
    let name := String.ofList (text.takeWhile (· ≠ '='))
    match Flag.ofName? known name, text.dropWhile (· ≠ '=') with
    | none, _ => .error (.unknownName name)
    | some flag, _ :: value => return (← o.set flag (String.ofList value), false)
    | some flag, [] =>
      if flag.isSwitch then return (← o.set flag "true", false)
      else
        match next with
        | some value => return (← o.set flag value, true)
        | none => .error (.missingValue argument)

def read (known : List Flag) (o : Options) : List String → Except FlagError Options
  | [] => .ok o
  | argument :: rest => do
    let next (o : Options) (taken : Bool) : Except FlagError Options :=
      match rest, taken with
      | _ :: rest, true => read known o rest
      | rest, _ => read known o rest
    match argument.toList with
    | ['-', '-'] => return { o with arguments := o.arguments ++ rest }
    | '-' :: '-' :: text =>
      let (o, taken) ← readName known o rest.head? text
      next o taken
    | '-' :: c :: group =>
      let (o, taken) ← readLetters known o rest.head? (c :: group)
      next o taken
    | _ => read known { o with arguments := o.arguments ++ [argument] } rest

def parse (known : List Flag) (arguments : List String) : Except FlagError Options :=
  read known {} arguments

def has (o : Options) (flag : Flag) : Bool :=
  o.given.contains flag

end Options

end Extraction.CommandLine
