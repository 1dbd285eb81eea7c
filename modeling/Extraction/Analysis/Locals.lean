import Extraction.Analysis.Event

/-!
# Local variables of a selection

From the accesses of a traversal: which variables the extracted method takes as arguments, which
become its locals, which stay in the caller, and which carry a value out of the selection.

Code that precedes the selection inside a loop around it runs again after the selection, on the next
iteration.  Its accesses are held back and count as following accesses when the loop is left.
-/

namespace Extraction

structure PrecedingAccess extends Access where
  place : Place

structure Locals where
  /-- The variables in order of their first access that counts. -/
  vars : List Binding := []
  selectedReads : List Binding := []
  selectedWrites : List Binding := []
  /-- Variables read after the selection before they are written there. -/
  followingReads : List Binding := []
  followingWrites : List Binding := []
  preceding : List PrecedingAccess := []
  /-- The loops around the selection that have not been left, innermost first. -/
  loops : List Node := []
  seen : Bool := false

namespace Locals

def enclosingLoops (p : Place) : List Node :=
  (p.ancestors.takeWhile fun n => !n.kind.isFunction).filter fun n => n.kind.isLoop

def note (s : Locals) (b : Binding) : Locals :=
  if b ∈ s.vars then s else { s with vars := s.vars ++ [b] }

/-- Whether a preceding access runs again when a loop is repeated.  The initialiser of a loop runs
only once. -/
def repeats (loop : Place) (a : PrecedingAccess) : Bool :=
  let start := a.place.node.start
  decide (loop.node.start ≤ start) && decide (start < loop.node.stop) &&
    !(loop.node.kind == .loop && (loop.child? .init).any fun i => a.place.isWithin i.id)

/-- Counts one repeated access, given the variables that no longer hold the selection's value. -/
def replay (acc : Locals × List Binding) (a : PrecedingAccess) : Locals × List Binding :=
  let (s, killed) := acc
  let s := s.note a.binding
  match a.mode with
  | .write => (s, killed.insert a.binding)
  | .read =>
    if a.binding ∈ killed then (s, killed)
    else ({ s with followingReads := s.followingReads.insert a.binding }, killed)

/-- Counts the accesses that precede the selection inside a loop as following ones. -/
def reenter (s : Locals) (loop : Place) : Locals :=
  ((s.preceding.filter (repeats loop)).foldl replay (s, s.followingWrites)).1

def count (s : Locals) (phase : Phase) (a : Access) (p : Place) : Locals :=
  match phase with
  | .undefined => s
  | .before => { s with preceding := s.preceding ++ [{ a with place := p }] }
  | .selected =>
    let s := s.note a.binding
    match a.mode with
    | .read => { s with selectedReads := s.selectedReads.insert a.binding }
    | .write => { s with selectedWrites := s.selectedWrites.insert a.binding }
  | .after =>
    let s := s.note a.binding
    match a.mode with
    | .write => { s with followingWrites := s.followingWrites.insert a.binding }
    | .read =>
      if a.binding ∈ s.followingWrites then s
      else { s with followingReads := s.followingReads.insert a.binding }

def step (s : Locals) (e : Event) : Locals :=
  match e.kind with
  | .enter =>
    if e.phase = .selected ∧ s.seen = false then
      { s with seen := true, loops := enclosingLoops e.place }
    else s
  | .leave =>
    match s.loops with
    | loop :: outer => if e.node.id = loop.id then { s.reenter e.place with loops := outer } else s
    | [] => s
  | .name access => s.count e.phase access e.place
  | .call | .catches => s

def ofEvents (events : List Event) : Locals :=
  events.foldl step {}

def selectedAccesses (s : Locals) : List Access :=
  s.vars.flatMap fun b =>
    (if b ∈ s.selectedReads then [⟨b, .read⟩] else []) ++
      (if b ∈ s.selectedWrites then [⟨b, .write⟩] else [])

def IsArgument (s : Locals) (sel : Extent) (b : Binding) : Prop :=
  b ∈ s.selectedReads ∧ ¬ sel.Contains b.pos

def IsCandidate (s : Locals) (b : Binding) : Prop :=
  b ∈ s.followingReads ∧ b ∈ s.selectedWrites

def StaysInCaller (s : Locals) (sel : Extent) (b : Binding) : Prop :=
  sel.Contains b.pos ∧ b ∈ s.followingWrites

instance (s : Locals) (sel : Extent) (b : Binding) : Decidable (s.IsArgument sel b) :=
  inferInstanceAs (Decidable (_ ∧ _))

instance (s : Locals) (b : Binding) : Decidable (s.IsCandidate b) :=
  inferInstanceAs (Decidable (_ ∧ _))

instance (s : Locals) (sel : Extent) (b : Binding) : Decidable (s.StaysInCaller sel b) :=
  inferInstanceAs (Decidable (_ ∧ _))

def arguments (s : Locals) (sel : Extent) : List Binding :=
  s.vars.filter fun b => s.IsArgument sel b

def candidates (s : Locals) : List Binding :=
  s.vars.filter fun b => s.IsCandidate b

def callerLocals (s : Locals) (sel : Extent) : List Binding :=
  s.vars.filter fun b => s.StaysInCaller sel b

def returnValue (s : Locals) : Option Binding :=
  match s.candidates with
  | [b] => some b
  | _ => none

/-- Written in the selection and neither argument nor left to the caller.  A single candidate stays
a local, since the caller assigns the result to a copy of its own. -/
def extractedLocals (s : Locals) (sel : Extent) : List Binding :=
  s.vars.filter fun b =>
    b ∈ s.selectedWrites ∧ ¬ s.IsArgument sel b ∧ ¬ s.StaysInCaller sel b ∧
      (s.returnValue.isSome ∨ ¬ s.IsCandidate b)

end Locals

end Extraction
