import Extraction.Settings.Basic
import Extraction.Settings.Mismatch
import Extraction.Yaml.Composer
import Extraction.Yaml.Datum

/-!
# Decoding values

The state that is kept while a document is decoded, and what a value denotes: a text where one is
expected, or anything at all, as it has to be known of the keys of a mapping into which others are
merged.
-/

namespace Extraction

open Yaml

inductive DecodingError where
  | scalar (cause : ScalarError)
  | notMergeable
  /-- A named value that has itself as a part. -/
  | recursive (name : String)
  | excessiveAliases
  /-- A merge into a mapping that has a collection as a key. -/
  | collectionKey
  /-- A collection, as shown in messages, that is a key of a table. -/
  | invalidKey (key : String)
deriving DecidableEq, Repr

namespace DecodingError

def message : DecodingError → String
  | scalar cause => cause.message
  | notMergeable => "yaml: map merge requires map or sequence of maps as the value"
  | recursive name => s!"yaml: anchor '{name}' value contains itself"
  | excessiveAliases => "yaml: document contains excessive aliasing"
  | collectionKey => "yaml: merge into a mapping that has a collection as a key"
  | invalidKey key => s!"yaml: invalid map key: {key}"

end DecodingError

/-- The state of decoding: the settings so far, and what did not fit, the latest first. -/
structure Decoder where
  settings : Settings := {}
  wrong : List Mismatch := []
  /-- The bytes that stand for the name of a policy, if it is not given as a text. -/
  policyBytes : Option (List UInt8) := none
  /-- Within a merge, the keys that are set already. -/
  merged : Option (List Scalar) := none
  /-- How many nodes were visited, and how many of them through aliases. -/
  visits : Nat := 0
  aliased : Nat := 0

abbrev Decoding := StateT Decoder (Except DecodingError)

namespace Decoder

/-- Whether too many of the visited nodes were reached through aliases.  The larger a document, the
fewer may be: from 99 in 100 down to one in ten. -/
def isExcessive (d : Decoder) : Bool :=
  let few := 400000
  let many := 4000000
  decide (100 < d.aliased) && decide (1000 < d.visits) &&
    if d.visits ≤ few then decide (99 * d.visits < 100 * d.aliased)
    else if many ≤ d.visits then decide (d.visits < 10 * d.aliased)
    else
      decide (d.visits * (99 * (many - few) - 89 * (d.visits - few)) < 100 *
        (many - few) * d.aliased)

end Decoder

namespace Decoding

def visit (active : List Nat) : Decoding Unit := do
  modify fun d =>
    { d with
      visits := d.visits + 1
      aliased := if active.isEmpty then d.aliased else d.aliased + 1 }
  if (← get).isExcessive then throw .excessiveAliases

/-- The node that is meant, and the places of the aliases it was reached through.  An alias may not
lead to itself. -/
def reach (doc : Document) (active : List Nat) (node : Value) : Decoding (List Nat × Value) := do
  visit active
  match node with
  | .reference _ place name _ =>
    if place ∈ active then throw (.recursive name)
    visit (place :: active)
    return (place :: active, doc.target node)
  | _ => return (active, node)

def report (wrong : List Mismatch) : Decoding Unit :=
  modify fun d => { d with wrong := wrong.reverse ++ d.wrong }

def update (f : Settings → Settings) : Decoding Unit :=
  modify fun d => { d with settings := f d.settings }

/-- Keys that occurred before, each with every earlier line. -/
def duplicates : List (Value × Value) → List Mismatch
  | [] => []
  | (key, _) :: rest =>
    (rest.filter fun (other, _) => key.sameKey other).map
      (fun (other, _) => .duplicateKey other.line other.text key.line) ++ duplicates rest

/-- The mismatch of a value that is of another type altogether. -/
def mismatch (expected : SettingsType) : Value → List Mismatch
  | .scalar line tag text => [.wrongType line tag text expected]
  | .sequence line tag _ => [.wrongType line tag "" expected]
  | .mapping line tag pairs =>
    let repeated := duplicates pairs
    if repeated.isEmpty then [.wrongType line tag "" expected] else repeated
  | .reference _ _ _ _ => []

def scalar (tag : Tag) (text : String) : Decoding Scalar := do
  match Scalar.ofTagged tag text with
  | .ok s => return s
  | .error e => throw (.scalar e)

/-- What a value denotes, unless it is null or of another type. -/
def decode (doc : Document) (expected : SettingsType) (pick : String → Scalar → Option α)
    (active : List Nat) (node : Value) : Decoding (Option α) := do
  let (_, node) ← reach doc active node
  match node with
  | .scalar _ tag text =>
    let s ← scalar tag text
    if s = .null then return none
    match pick text s with
    | some a => return some a
    | none =>
      report (mismatch expected node)
      return none
  | _ =>
    report (mismatch expected node)
    return none

/-- Any scalar is a text, as it is written. -/
def decodeText (doc : Document) : List Nat → Value → Decoding (Option String) :=
  decode doc .text fun text s =>
    match s with
    | .text t => some t
    | _ => some text

def setMerged (merged : Option (List Scalar)) : Decoding Unit :=
  modify fun d => { d with merged }

/-- Within a merge, whether a key is new; it then counts as set. -/
def isNew (key : Scalar) : Decoding Bool := do
  match (← get).merged with
  | none => return true
  | some keys =>
    if keys.any (·.equals key) then return false
    setMerged (some (key :: keys))
    return true

/-! ## Merging -/

def mergeValue? (pairs : List (Value × Value)) : Option Value :=
  ((pairs.filter fun (key, _) => key.isMerge).getLast?).map (·.2)

/-- The mappings, or references to mappings, that a value gives to merge. -/
def mergeSources (doc : Document) (value : Value) : List (Option Value) :=
  let checked (node : Value) : Option Value :=
    match doc.target node with
    | .mapping _ _ _ => some node
    | _ => none
  match value with
  | .sequence _ _ items => items.map checked
  | node => [checked node]

/-- Counts the keys of a mapping as set, unless a merge around it is under way.  A collection cannot
be counted. -/
def markKeys (anything : Value → Decoding (Option Datum)) (pairs : List (Value × Value)) :
    Decoding Unit := do
  if (← get).merged.isNone then
    setMerged (some [])
    for (key, _) in pairs do
      match ← anything key with
      | none => pure ()
      | some (.scalar k) =>
        let _ ← isNew k
      | some _ => throw .collectionKey

/-- Merges the value of the last merge key into what the other pairs of a mapping gave. -/
def mergeInto (doc : Document) (anything : Value → Decoding (Option Datum))
    (merge : α → Value → Decoding α) (pairs : List (Value × Value)) (result : α) : Decoding α := do
  match mergeValue? pairs with
  | none => return result
  | some value =>
    let outer := (← get).merged
    markKeys anything pairs
    let result ← (mergeSources doc value).foldlM (fun result source =>
      match source with
      | none => throw .notMergeable
      | some node => merge result node) result
    setMerged outer
    return result

/-! ## Anything -/

structure Table where
  texts : Bool
  entries : List (Scalar × Datum) := []

/-- Adds the pairs of a mapping to a table, but for what is to be merged into it, and gives the keys
of the merge around it.  A collection is no key of a table. -/
def fill (doc : Document) (active : List Nat) (anything : Value → Decoding (Option Datum))
    (outer : Option (List Scalar)) (t : Table) :
    List (Value × Value) → Decoding (Option (List Scalar) × Table)
  | [] => return (outer, t)
  | (key, value) :: rest => do
    if key.isMerge then fill doc active anything outer t rest
    else
      let k ←
        if t.texts then do
          let name ← decodeText doc active key
          pure (name.map fun name => Datum.scalar (.text name))
        else anything key
      match k with
      | none => fill doc active anything outer t rest
      | some (.scalar k) =>
        if outer.any fun keys => keys.any (·.equals k) then fill doc active anything outer t rest
        else
          let v ← anything value
          let entries := (v.map fun v => Datum.insert k v t.entries).getD t.entries
          fill doc active anything (outer.map (k :: ·)) { t with entries } rest
      | some collection =>
        throw (if outer.isSome then .collectionKey else .invalidKey collection.describe)

/-- What a value denotes where nothing is expected of it.  A mapping may be merged into a table that
is there already. The fuel bounds the number of values within each other. -/
def anything (doc : Document) : Nat → Option Table → List Nat → Value → Decoding (Option Datum)
  | 0, _, _, _ => return none
  | n + 1, into, active, node => do
    let (active, node) ← reach doc active node
    let part := anything doc n none active
    match node with
    | .scalar _ tag text => return some (.scalar (← scalar tag text))
    | .sequence _ _ items => return some (.list ((← items.mapM part).filterMap id))
    | .mapping _ _ pairs =>
      let repeated := duplicates pairs
      if !repeated.isEmpty then
        report repeated
        return none
      let outer := (← get).merged
      setMerged none
      let table := into.getD { texts := pairs.all fun (key, _) => doc.isText key }
      let (outer, t) ← fill doc active part outer table pairs
      setMerged outer
      let add (t : Table) (source : Value) : Decoding Table := do
        match ← anything doc n (some t) active source with
        | some (.table texts entries) => return { texts, entries }
        | _ => return t
      let t ← mergeInto doc part add pairs t
      return some (.table t.texts t.entries)
    | .reference _ _ _ _ => return none

end Decoding

end Extraction
