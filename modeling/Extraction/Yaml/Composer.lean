import Extraction.Yaml.Lexer
import Extraction.Yaml.Value

/-!
# From tokens to documents

Documents are composed by a machine with a stack of open collections, each with the role that the
value being read has in it.  `Document.parse` gives the first document of a text.  An error that
reading went on from is reported as soon as the start or the end of a value is complete.
-/

namespace Extraction.Yaml

structure Header where
  line : Nat
  tag : Option Tag := none
  anchor : Option Nat := none

structure Collection where
  header : Header
  start : Nat
  items : List Value := []
  pairs : List (Value × Value) := []

inductive Role where
  | item
  | dashItem
  | key
  | value (key : Value)
  | flowItem
  | pairKey (line : Nat)
  | pairValue (line : Nat) (key : Value)
  | flowKey
  | loneKey
  | flowValue (key : Value)

/-- What comes next in a collection.  A sequence of dashes is one that is indented as much as the
mapping it is a value of; a pair is a mapping of its own in a flow sequence. -/
inductive Stage where
  | item
  | dashItem
  | key
  | value (key : Value)
  | flowItem (first : Bool)
  | pairKey (line : Nat)
  | pairValue (line : Nat) (key : Value)
  | flowKey (first : Bool)
  | loneKey (key : Value)
  | flowValue (key : Value)

inductive Task where
  /-- Read a value.  `block` says whether block collections may stand here, `dashes` whether a
  sequence of dashes. -/
  | read (block dashes : Bool)
  | give (node : Value)
  | resume (collection : Collection) (stage : Stage)

def Task.isRead : Task → Bool
  | read _ _ => true
  | _ => false

structure Composer where
  stack : List (Collection × Role) := []
  names : List (String × Nat) := []
  named : Array (Option Value) := #[]
  /-- What the handles of tags stand for. -/
  handles : List (String × String) := []

namespace Collection

def addItem (c : Collection) (node : Value) : Collection :=
  { c with items := node :: c.items }

def addPair (c : Collection) (key value : Value) : Collection :=
  { c with pairs := (key, value) :: c.pairs }

def addSinglePair (c : Collection) (line : Nat) (key value : Value) : Collection :=
  c.addItem (.mapping (line + 1) .mapping [(key, value)])

def sequence (c : Collection) : Value :=
  .sequence (c.header.line + 1) (c.header.tag.getD .sequence) c.items.reverse

def mapping (c : Collection) : Value :=
  .mapping (c.header.line + 1) (c.header.tag.getD .mapping) c.pairs.reverse

def receive (c : Collection) (node : Value) : Role → Task
  | .item => .resume (c.addItem node) .item
  | .dashItem => .resume (c.addItem node) .dashItem
  | .key => .resume c (.value node)
  | .value key => .resume (c.addPair key node) .key
  | .flowItem => .resume (c.addItem node) (.flowItem false)
  | .pairKey line => .resume c (.pairValue line node)
  | .pairValue line key => .resume (c.addSinglePair line key node) (.flowItem false)
  | .flowKey => .resume c (.flowValue node)
  | .loneKey => .resume c (.loneKey node)
  | .flowValue key => .resume (c.addPair key node) (.flowKey false)

end Collection

namespace Composer

open Lexing

def unexpected (problem : Problem) (context : Nat) (t : Placed) : Lexing α :=
  throw ⟨problem, context, t.line, false⟩

def addName (c : Composer) (name : String) : Composer × Nat :=
  ({ c with names := (name, c.named.size) :: c.names, named := c.named.push none }, c.named.size)

def finish (c : Composer) (anchor : Option Nat) (node : Value) : Composer × Task :=
  (match anchor with
    | none => c
    | some number => { c with named := c.named.setIfInBounds number (some node) },
    .give node)

def enter (c : Composer) (header : Header) (start : Nat) (stage : Stage) : Composer × Task :=
  (c, .resume { header, start } stage)

def descend (c : Composer) (collection : Collection) (role : Role) (block dashes : Bool) :
    Composer × Task :=
  ({ c with stack := (collection, role) :: c.stack }, .read block dashes)

/-- The tag that a handle and the text after it stand for.  The mark alone states nothing. -/
def tagOf (c : Composer) (handle text : String) (start : Nat) (t : Placed) : Lexing (Option Tag) :=
  let full := if handle = "" then some text else (c.handles.lookup handle).map (· ++ text)
  match full with
  | none | some "" => unexpected .unknownHandle start t
  | some "!" => return none
  | some full => return some (.ofName full)

/-- Reads a tag and a name before a value, in either order. -/
def readProperties : Lexing (Option String × Option (String × String × Placed)) := do
  let t ← peek
  match t.token with
  | .anchor name =>
    take
    let t ← peek
    match t.token with
    | .tag handle text =>
      take
      return (some name, some (handle, text, t))
    | _ => return (some name, none)
  | .tag handle text =>
    take
    let u ← peek
    match u.token with
    | .anchor name =>
      take
      return (some name, some (handle, text, t))
    | _ => return (none, some (handle, text, t))
  | _ => return (none, none)

/-- Moves past the dash of an item.  If there are remarks on it, it is looked once more at what
follows, and they stay with a block collection that starts there. -/
def takeDash : Lexing Unit := do
  let remarks := (← get).remarks
  take
  if 0 < remarks then
    match ← attempt peek with
    | none => return
    | some t =>
      if t.token ∈ [.blockSequence, .blockMapping] then
        modify fun l => { l with remarks := l.remarks - remarks }

def read (c : Composer) (block dashes : Bool) : Lexing (Composer × Task) := do
  let first ← peek
  let line := first.line
  match first.token with
  | .reference name =>
    modify (·.giveRemarks)
    take
    settle
    match c.names.lookup name with
    | none => throw { problem := .unknownAnchor name }
    | some target => return (c, .give (.reference (line + 1) first.start.index name target))
  | _ =>
    let (name, tagged) ← readProperties
    let t ← peek
    let tag ←
      match tagged with
      | none => pure none
      | some (handle, text, place) => c.tagOf handle text line place
    let (c, anchor) := ((name.map c.addName).map fun (c, number) => (c, some number)).getD (c, none)
    let header : Header := { line, tag, anchor }
    let alone : Lexing (Composer × Task) :=
      if name.isSome || tagged.isSome then return c.finish anchor (.plain (line + 1) tag "")
      else unexpected .missingContent line t
    let entered (stage : Stage) : Lexing (Composer × Task) := do
      take
      return c.enter header t.line stage
    let enteredFlow (stage : Stage) : Lexing (Composer × Task) := do
      modify (·.giveRemarks)
      entered stage
    match t.token with
    | .scalar plain text =>
      modify (·.giveRemarks)
      take
      return c.finish anchor
        (if plain then .plain (line + 1) tag text else .scalar (line + 1) (tag.getD .text) text)
    | .openSequence => enteredFlow (.flowItem true)
    | .openMapping => enteredFlow (.flowKey true)
    | .entry => if dashes then return c.enter header t.line .dashItem else alone
    | .blockSequence => if block then entered .item else alone
    | .blockMapping => if block then entered .key else alone
    | _ => alone

/-- Moves past the comma before any member of a flow collection but the first, and gives the token
after it. -/
def skipComma (collection : Collection) (closing : Token) (bracket : Char) (first : Bool) :
    Lexing Placed := do
  let t ← peek
  if first ∨ t.token = closing then return t
  if t.token ≠ .comma then unexpected (.missingComma bracket) collection.start t
  take
  peek

def resume (c : Composer) (collection : Collection) : Stage → Lexing (Composer × Task)
  | .item => do
    let t ← peek
    match t.token with
    | .entry =>
      takeDash
      if (← peek).token ∈ [.entry, .blockEnd] then
        return (c, collection.receive (.absent (t.line + 1)) .item)
      return c.descend collection .item true false
    | .blockEnd =>
      take
      return c.finish collection.header.anchor collection.sequence
    | _ => unexpected .missingDash collection.start t
  | .dashItem => do
    let t ← peek
    match t.token with
    | .entry =>
      takeDash
      if (← peek).token ∈ [.entry, .key, .value, .blockEnd] then
        return (c, collection.receive (.absent (t.line + 1)) .dashItem)
      return c.descend collection .dashItem true false
    | _ => return c.finish collection.header.anchor collection.sequence
  | .key => do
    let t ← peek
    match t.token with
    | .key =>
      take
      if (← peek).token ∈ [.key, .value, .blockEnd] then
        return (c, collection.receive (.absent (t.line + 1)) .key)
      return c.descend collection .key true true
    | .blockEnd =>
      modify (·.giveRemarks)
      take
      return c.finish collection.header.anchor collection.mapping
    | _ => unexpected .missingKey collection.start t
  | .value key => do
    let t ← peek
    if t.token = .value then
      take
      if (← peek).token ∉ [.key, .value, .blockEnd] then
        return c.descend collection (.value key) true true
    return (c, collection.receive (.absent (t.line + 1)) (.value key))
  | .flowItem first => do
    let t ← skipComma collection .closeSequence ']' first
    match t.token with
    | .closeSequence =>
      modify (·.giveRemarks)
      take
      return c.finish collection.header.anchor collection.sequence
    | .key =>
      take
      return (c, .resume collection (.pairKey t.line))
    | _ => return c.descend collection .flowItem false false
  | .pairKey line => do
    let t ← peek
    if t.token ∈ [.value, .comma, .closeSequence] then
      take
      return (c, collection.receive (.absent (t.line + 1)) (.pairKey line))
    return c.descend collection (.pairKey line) false false
  | .pairValue line key => do
    let t ← peek
    if t.token = .value then
      take
      if (← peek).token ∉ [.comma, .closeSequence] then
        return c.descend collection (.pairValue line key) false false
    return (c, collection.receive (.absent (t.line + 1)) (.pairValue line key))
  | .flowKey first => do
    let t ← skipComma collection .closeMapping '\x7d' first
    match t.token with
    | .closeMapping =>
      modify (·.giveRemarks)
      take
      return c.finish collection.header.anchor collection.mapping
    | .key =>
      take
      let t ← peek
      if t.token ∈ [.value, .comma, .closeMapping] then
        return (c, collection.receive (.absent (t.line + 1)) .flowKey)
      return c.descend collection .flowKey false false
    | _ => return c.descend collection .loneKey false false
  | .loneKey key => do
    let t ← peek
    return (c, .resume (collection.addPair key (.absent (t.line + 1))) (.flowKey false))
  | .flowValue key => do
    let t ← peek
    if t.token = .value then
      take
      let t ← peek
      if t.token ∉ [.comma, .closeMapping] then
        return c.descend collection (.flowValue key) false false
      return (c, collection.receive (.absent (t.line + 1)) (.flowValue key))
    return (c, collection.receive (.absent (t.line + 1)) (.flowValue key))

/-- Works on tasks, at most the given number of them, until a value is complete and no collection is
open. -/
def run : Nat → Composer → Task → Lexing (Composer × Value)
  | 0, c, _ => return (c, .absent 0)
  | n + 1, c, .give node =>
    match c.stack with
    | [] => return (c, node)
    | (collection, role) :: stack => run n { c with stack } (collection.receive node role)
  | n + 1, c, .read block dashes => do
    let (c, task) ← c.read block dashes
    settle
    run n c task
  | n + 1, c, .resume collection stage => do
    let (c, task) ← c.resume collection stage
    if !task.isRead then settle
    run n c task

def readDirectives (version : Bool) (c : Composer) : Nat → Lexing Composer
  | 0 => return c
  | n + 1 => do
    let t ← peek
    match t.token with
    | .directive (.version major minor) =>
      if version then unexpected .repeatedVersion 0 t
      if major ≠ 1 ∨ minor ≠ 1 then unexpected .otherVersion 0 t
      take
      readDirectives true c n
    | .directive (.handle name text) =>
      if (c.handles.lookup name).isSome then unexpected .repeatedHandle 0 t
      take
      readDirectives version { c with handles := c.handles ++ [(name, text)] } n
    | _ => return c

def commonHandles : List (String × String) :=
  [("!", "!"), ("!!", Tag.commonStart)]

/-- Composes the first document, whose number of characters bounds the number of tasks. -/
def firstDocument (size : Nat) : Lexing (Option Document) := do
  let _ ← peek
  settle
  take
  let t ← peek
  let fuel := 16 * size + 64
  let composed (c : Composer) (task : Task) : Lexing (Option Document) := do
    let (c, root) ← run fuel { c with handles := c.handles ++ commonHandles } task
    let _ ← peek
    settle
    return some ⟨root, c.named.map fun node => node.getD (.absent 0), size⟩
  match t.token with
  | .streamEnd =>
    settle
    return none
  | .directive _ | .documentStart =>
    let c ← readDirectives false {} (size + 1)
    let t ← peek
    if t.token ≠ .documentStart then unexpected .missingDocumentStart 0 t
    settle
    take
    let t ← peek
    match t.token with
    | .directive _ | .documentStart | .documentEnd | .streamEnd =>
      settle
      composed c (.give (.absent (t.line + 1)))
    | _ => composed c (.read true false)
  | _ =>
    settle
    modify fun l => if l.apart then l.giveRemarks else l
    composed {} (.read true false)

end Composer

namespace Document

def parse (text : String) : Except SyntaxError (Option Document) :=
  match Composer.firstDocument text.length (Lexer.ofText text) with
  | .ok document _ => .ok document
  | .error e _ => .error e

end Document

end Extraction.Yaml
