import Extraction.Analysis.Event

/-!
# Exceptions that escape a selection

A stack of frames follows the try statements of the selection.  What is raised in the protected body
of a try statement may be handled by its catch clauses; what is raised in a handler or in the final
block escapes it.
-/

namespace Extraction

abbrev TypeSet := List ClassType

namespace TypeSet

def add (s : TypeSet) (t : ClassType) : TypeSet :=
  if t ∈ s then s else s ++ [t]

def union (s other : TypeSet) : TypeSet :=
  other.foldl add s

/-- Removes every type that one of the caught types handles. -/
def discharge (s : TypeSet) (caught : List ClassType) : TypeSet :=
  s.filter fun t => !caught.any fun c => t.assignableTo c

end TypeSet

/-- The exceptions raised within one try statement, or outside all of them. -/
structure RaiseFrame where
  owner : Option Nat := none
  body : TypeSet := []
  escaping : TypeSet := []
  /-- The protected body has been left. -/
  inHandlers : Bool := false
deriving DecidableEq, Repr

namespace RaiseFrame

def raise (f : RaiseFrame) (raised : TypeSet) : RaiseFrame :=
  if f.inHandlers then { f with escaping := f.escaping.union raised }
  else { f with body := f.body.union raised }

def all (f : RaiseFrame) : TypeSet :=
  f.body.union f.escaping

end RaiseFrame

/-- The frames of the try statements that have been entered and not left, innermost first, above the
frame of the whole selection. -/
structure Raises where
  inner : List RaiseFrame := []
  outermost : RaiseFrame := {}
deriving DecidableEq, Repr

namespace Raises

def top (s : Raises) : RaiseFrame :=
  s.inner.headD s.outermost

def modifyTop (s : Raises) (f : RaiseFrame → RaiseFrame) : Raises :=
  match s.inner with
  | [] => { s with outermost := f s.outermost }
  | frame :: rest => { s with inner := f frame :: rest }

def push (s : Raises) (owner : Nat) : Raises :=
  { s with inner := { owner := some owner } :: s.inner }

/-- Leaves the innermost try statement; what escapes it is raised in the frame around it. -/
def pop (s : Raises) : Raises :=
  match s.inner with
  | [] => s
  | frame :: rest => modifyTop { s with inner := rest } fun outer => outer.raise frame.all

def step (s : Raises) (e : Event) : Raises :=
  let n := e.node
  let parent := e.place.parent?.map (·.id)
  if e.nested || e.phase != .selected then s
  else
    match e.kind with
    | .enter => if n.kind = .tryStmt then s.push n.id else s
    | .call => s.modifyTop fun f => f.raise (TypeSet.union [] (n.types.filter (·.checked)))
    | .catches =>
      if s.top.owner = parent then s.modifyTop fun f => { f with body := f.body.discharge n.types }
      else s
    | .leave =>
      if n.kind = .tryStmt ∧ s.top.owner = some n.id then s.pop
      else if n.role = .body ∧ s.top.owner.isSome ∧ parent = s.top.owner then
        s.modifyTop fun f => { f with inHandlers := true }
      else s
    | .name _ => s

def ofEvents (events : List Event) : Raises :=
  events.foldl step {}

def escaping (s : Raises) : TypeSet :=
  s.outermost.all

end Raises

end Extraction
