import Extraction.Settings.Decoder
import Extraction.Text.Disk

/-!
# Reading settings

Settings are read from a YAML mapping, in which every field may be left out, and other mappings may
be merged.  A field that is not known, or not of the type it should have, is a mismatch; all of them
are reported, in order.
-/

namespace Extraction

open Yaml

inductive ReadingError where
  | encoding
  | malformed (cause : SyntaxError)
  | undecodable (cause : DecodingError)
  | mismatches (all : List Mismatch)
  | invalid (cause : SettingsError)
deriving DecidableEq, Repr

namespace ReadingError

def message : ReadingError → String
  | encoding => "failed to parse config: yaml: invalid leading UTF-8 octet"
  | malformed cause => "failed to parse config: " ++ cause.message
  | undecodable cause => "failed to parse config: " ++ cause.message
  | mismatches all =>
    "failed to parse config: yaml: unmarshal errors:" ++
      String.join (all.map fun m => "\n  " ++ m.message)
  | invalid cause => "invalid configuration: " ++ cause.message

end ReadingError

namespace Decoding

def decodeFlag (doc : Document) : List Nat → Value → Decoding (Option Bool) :=
  decode doc .flag fun _ s =>
    match s with
    | .flag b => some b
    | .text t => Scalar.flagWord? t
    | _ => none

def decodeInt (doc : Document) : List Nat → Value → Decoding (Option Int) :=
  decode doc .int fun _ s => s.toInt?

/-- A list of texts.  Null items are left out, and a null in place of the list means none. -/
def decodeTexts (doc : Document) (active : List Nat) (node : Value) :
    Decoding (Option (Option (List String))) := do
  let (active, node) ← reach doc active node
  match node with
  | .sequence _ _ items => return some (some ((← items.mapM (decodeText doc active)).filterMap id))
  | .scalar _ tag text =>
    if (← scalar tag text) = .null then return some none
    report (mismatch .texts node)
    return none
  | _ =>
    report (mismatch .texts node)
    return none

inductive Field where
  | format
  | color
  | verbose
  | workers
  | initialErrors
  | scope
deriving DecidableEq, Repr

def Field.ofName? : String → Option Field
  | "format" => some format
  | "color" => some color
  | "verbose" => some verbose
  | "workers" => some workers
  | "initial_errors" => some initialErrors
  | "scope" => some scope
  | _ => none

def decodeField (doc : Document) (active : List Nat) (value : Value) : Field → Decoding Unit
  | .format => do
    let v ← decodeText doc active value
    update fun s => { s with format := v.getD s.format }
  | .color => do
    let v ← decodeFlag doc active value
    update fun s => { s with color := v.getD s.color }
  | .verbose => do
    let v ← decodeFlag doc active value
    update fun s => { s with verbose := v.getD s.verbose }
  | .workers => do
    let v ← decodeInt doc active value
    update fun s => { s with workers := v.getD s.workers }
  | .initialErrors => do
    let v ← decodeText doc active value
    modify fun d => { d with policyBytes := if v.isSome then doc.bytes? value else d.policyBytes }
    update fun s => { s with initialErrors := v.getD s.initialErrors }
  | .scope => do
    let v ← decodeTexts doc active value
    update fun s => { s with scope := v.getD s.scope }

/-- Decodes the pairs of a mapping, but for what is to be merged into it. -/
def decodePairs (doc : Document) (active : List Nat) (done : List Field) :
    List (Value × Value) → Decoding Unit
  | [] => return
  | (key, value) :: rest => do
    if key.isMerge then decodePairs doc active done rest
    else
      match ← decodeText doc active key with
      | none => decodePairs doc active done rest
      | some name =>
        if !(← isNew (.text name)) then decodePairs doc active done rest
        else
          match Field.ofName? name with
          | none =>
            report [.unknownField key.line name]
            decodePairs doc active done rest
          | some field =>
            if field ∈ done then
              report [.repeatedField key.line name]
              decodePairs doc active done rest
            else
              decodeField doc active value field
              decodePairs doc active (field :: done) rest

/-- How deep the values of a document may be within each other: no alias leads to itself, and from
one alias to the next the values get smaller. -/
def depthBound (doc : Document) : Nat :=
  (doc.size + 2) * (doc.size + 2)

/-- Decodes a mapping, and then merges the value of its last merge key into it: what is set already
stays.  The fuel bounds the number of mappings within each other. -/
def decodeMapping (doc : Document) : Nat → List Nat → List (Value × Value) → Decoding Unit
  | 0, _, _ => return
  | n + 1, active, pairs => do
    let repeated := duplicates pairs
    if !repeated.isEmpty then report repeated
    else
      decodePairs doc active [] pairs
      let add (_ : Unit) (source : Value) : Decoding Unit := do
        match ← reach doc active source with
        | (active, .mapping _ _ pairs) => decodeMapping doc n active pairs
        | _ => return
      mergeInto doc (anything doc (depthBound doc) none active) add pairs ()

def decodeDocument (doc : Document) : Decoding Unit := do
  visit []
  match ← reach doc [] doc.root with
  | (active, .mapping _ _ pairs) => decodeMapping doc (depthBound doc) active pairs
  | (_, .scalar line tag text) =>
    if (← scalar tag text) ≠ .null then report (mismatch .settings (.scalar line tag text))
  | (_, node) => report (mismatch .settings node)

end Decoding

namespace Settings

def ofDecoder (d : Decoder) : Except ReadingError Settings :=
  if !d.wrong.isEmpty then .error (.mismatches d.wrong.reverse)
  else
    d.settings.validate.mapError fun
      | .policy text => .invalid ((d.policyBytes.map .policyBytes).getD (.policy text))
      | cause => .invalid cause

/-- Reads settings from a text; what is left out has its default. -/
def parse (text : String) : Except ReadingError Settings := do
  match ← (Document.parse text).mapError ReadingError.malformed with
  | none => ofDecoder {}
  | some doc =>
    let (_, d) ← ((Decoding.decodeDocument doc).run {}).mapError ReadingError.undecodable
    ofDecoder d

def fileNames : List String :=
  [".extractcheck.yml", ".extractcheck.yaml"]

inductive LoadError where
  | unreadable (path : String) (cause : DiskError)
  | unusable (path : String) (cause : ReadingError)
deriving DecidableEq, Repr

def LoadError.message : LoadError → String
  | unreadable path cause => s!"failed to read config file {path}: {cause.message}"
  | unusable path cause => s!"{path}: {cause.message}"

def ofBytes (bytes : List UInt8) : Except ReadingError Settings :=
  match String.fromUTF8? ⟨bytes.toArray⟩ with
  | some text => parse text
  | none => .error .encoding

/-- The settings in a file; without a path, in the first file of a usual name in the directory, if
there is any. -/
def load (disk : Disk) (path directory : String) : Except LoadError Settings :=
  let candidates := (fileNames.map (Path.join directory)).filter disk.contains
  match if path = "" then candidates.head? else some path with
  | none => .ok {}
  | some path => do
    let bytes ← (disk.read path).mapError (.unreadable path)
    let s ← (ofBytes bytes).mapError (.unusable path)
    return { s with path }

end Settings

end Extraction
