import Extraction.Text.Quoted
import Extraction.Yaml.Tag

/-!
# Mismatches

Where a document does not fit the settings it is read for, and what is said about it.
-/

namespace Extraction

open Yaml

inductive SettingsType where
  | text
  | flag
  | int
  | texts
  | settings
deriving DecidableEq, Repr

namespace SettingsType

def describe : SettingsType → String
  | text => "string"
  | flag => "bool"
  | int => "int"
  | texts => "[]string"
  | settings => "config.Config"

end SettingsType

inductive Mismatch where
  | unknownField (line : Nat) (name : String)
  | repeatedField (line : Nat) (name : String)
  | duplicateKey (line : Nat) (key : String) (first : Nat)
  | wrongType (line : Nat) (tag : Tag) (text : String) (expected : SettingsType)
deriving DecidableEq, Repr

namespace Mismatch

/-- The first bytes of a text.  Bytes of a character that does not fit are shown as replacement
characters. -/
def firstBytes : Nat → List Char → List Char
  | _, [] => []
  | n, c :: rest =>
    if c.utf8Size ≤ n then c :: firstBytes (n - c.utf8Size) rest else List.replicate n '\ufffd'

/-- At most ten bytes of a text; a longer one is cut after seven. -/
def shorten (text : String) : String :=
  if text.utf8ByteSize ≤ 10 then text else String.ofList (firstBytes 7 text.toList) ++ "..."

/-- A tag and the text it belongs to, which is set apart unless the tag is that of a collection. -/
def describe (tag : Tag) (text : String) : String :=
  if tag = .sequence ∨ tag = .mapping then tag.name ++ text
  else s!"{tag.name} \x60{shorten text}\x60"

def message : Mismatch → String
  | unknownField line name =>
    s!"line {line}: field {name} not found in type {SettingsType.settings.describe}"
  | repeatedField line name =>
    s!"line {line}: field {name} already set in type {SettingsType.settings.describe}"
  | duplicateKey line key first =>
    s!"line {line}: mapping key {Quoted.encode key} already defined at line {first}"
  | wrongType line tag text expected =>
    s!"line {line}: cannot unmarshal {describe tag text} into {expected.describe}"

end Mismatch

end Extraction
