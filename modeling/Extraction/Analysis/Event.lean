import Extraction.Syntax.Walk

/-!
# Events of a traversal

The analysis of a selection is one traversal of the tree that yields a list of events, each marked
with the phase in which it happens: before, inside or after the selection.
-/

namespace Extraction

inductive Phase where
  | undefined
  | before
  | selected
  | after
deriving DecidableEq, Repr

namespace Phase

def ofCode : Int → Phase
  | 1 => before
  | 2 => selected
  | 3 => after
  | _ => undefined

def describe : Phase → String
  | undefined => "undefined"
  | before => "before"
  | selected => "selected"
  | after => "after"

end Phase

inductive AccessMode where
  | read
  | write
deriving DecidableEq, Repr

namespace AccessMode

def ofCode : Int → AccessMode
  | 1 => write
  | _ => read

def describe : AccessMode → String
  | read => "read"
  | write => "write"

end AccessMode

structure Access where
  binding : Binding
  mode : AccessMode
deriving DecidableEq, Repr

namespace Access

def describe (a : Access) : String :=
  a.mode.describe ++ " " ++ a.binding.name

end Access

inductive EventKind where
  | enter
  | leave
  | name (access : Access)
  /-- A call or throw that raises the types of its node. -/
  | call
  /-- A clause that catches the types of its node. -/
  | catches
deriving DecidableEq, Repr

namespace EventKind

def describe : EventKind → String
  | enter => "enter"
  | leave => "leave"
  | name _ => "name"
  | call => "call"
  | catches => "catch"

def describeCode : Int → String
  | 0 => "enter"
  | 1 => "leave"
  | 2 => "name"
  | 3 => "call"
  | 4 => "catch"
  | code => s!"EventKind({code})"

end EventKind

structure Event where
  kind : EventKind
  phase : Phase
  /-- The event happens inside a lambda or type declared within the enclosing method. -/
  nested : Bool
  place : Place
deriving DecidableEq, Repr

namespace Event

def node (e : Event) : Node :=
  e.place.node

def describe (e : Event) : String :=
  e.phase.describe ++ " " ++ e.kind.describe ++ " " ++
    match e.kind with
    | .name access => access.describe
    | _ => s!"#{e.node.id}"

end Event

end Extraction
