import Extraction.Analysis.Diagnostic
import Extraction.Analysis.Event
import Extraction.Text.Boundaries

/-!
# The trace of a selection

The traversal looks for the innermost function whose body strictly encloses the selection and
classifies each of its nodes as before, inside or after the selection.  A function found inside one
that was already taken to enclose the selection is nearer to it, so the classification starts anew
there; events stay.  Reads are noted when a name is entered, writes when the assignment or
declaration is left, so that the reads of a right side come first.
-/

namespace Extraction

structure Trace where
  phase : Phase := .undefined
  /-- The phase in which each classified node was entered, latest first. -/
  phases : List (Nat × Phase) := []
  /-- The rightmost end of a selected node that was left, or -1. -/
  reach : Int := -1
  /-- How many scopes lie between the enclosing method and the current node. -/
  depth : Int := 0
  complete : Bool := false
  method : Option Node := none
  first : Option Node := none
  parentOfFirst : Option Nat := none
  last : Option Node := none
  /-- The selected nodes whose parent is not selected. -/
  topLevel : List Node := []
  diagnostics : List Diagnostic := []
  events : Array Event := #[]
  fault : Option Fault := none

namespace Trace

def enclosesSelection (sel : Extent) (p : Place) : Bool :=
  p.node.kind.isFunction && (p.child? .body).any fun b => decide (sel.EnclosedBy b.start b.stop)

def restart (s : Trace) (n : Node) : Trace :=
  { s with
    method := some n, phase := .before, depth := 0, first := none, parentOfFirst := none,
    last := none, topLevel := [], diagnostics := [] }

def phaseOf (s : Trace) (id : Nat) : Phase :=
  (s.phases.lookup id).getD .undefined

def emit (s : Trace) (kind : EventKind) (phase : Phase) (p : Place) : Trace :=
  { s with events := s.events.push ⟨kind, phase, decide (0 < s.depth), p⟩ }

def has (s : Trace) (kind : DiagnosticKind) : Bool :=
  s.diagnostics.any fun d => d.kind = kind

def report (s : Trace) (kind : DiagnosticKind) (message : String) (n : Node) :
    Except Fault Trace := do
  let extent ← n.extent
  return { s with diagnostics := s.diagnostics ++ [⟨kind, message, some n.id, extent⟩] }

def sort (kind : Kind) : String :=
  if kind.isStatement then "statement"
  else if kind.isExpression then "expression" else "declaration"

def isTopLevel (sel : Extent) (p : Place) : Bool :=
  p.parent?.all fun q => !decide (sel.Covers q.start q.stop)

def classify (sel : Extent) (s : Trace) (p : Place) : Except Fault Trace :=
  let n := p.node
  match s.phase with
  | .before =>
    if n.start < n.stop ∧ sel.Covers n.start n.stop then
      .ok { s with
        phase := .selected, first := some n, parentOfFirst := p.parent?.map (·.id), last := some n,
        topLevel := s.topLevel ++ [n] }
    else .ok s
  | .selected =>
    if sel.past ≤ n.start then .ok { s with phase := .after }
    else if sel.EndsInside n.start n.stop then do
      let s ← s.report .endsMidStatement s!"The selection ends in the middle of a {sort n.kind}" n
      return { s with phase := .after }
    else if isTopLevel sel p then
      let s := { s with last := some n, topLevel := s.topLevel ++ [n] }
      if p.parent?.map (·.id) = s.parentOfFirst ∨ s.has .mixedParents then .ok s
      else s.report .mixedParents "The selected statements do not belong to the same block" n
    else .ok s
  | .undefined | .after => .ok s

def access (s : Trace) (mode : AccessMode) (phase : Phase) (p : Place) : Trace :=
  match p.node.binding with
  | some b => if b.isVariable then s.emit (.name ⟨b, mode⟩) phase p else s
  | none => s

/-- Notes what a name does when it is entered.  The target of a plain assignment is not read. -/
def enterName (s : Trace) (p : Place) : Trace :=
  match p.parent? with
  | some q =>
    if q.kind = .assign ∧ p.node.role = .target then
      if q.compound then s.access .read s.phase p else s
    else if q.kind = .incDec then (s.access .read s.phase p).access .write s.phase p
    else s.access .read s.phase p
  | none => s.access .read s.phase p

def enterClassified (s : Trace) (p : Place) : Trace :=
  let n := p.node
  let s := { s with phases := (n.id, s.phase) :: s.phases }.emit .enter s.phase p
  let s := if n.kind.isScope then { s with depth := s.depth + 1 } else s
  match n.kind with
  | .name => s.enterName p
  | .catchClause => s.emit .catches s.phase p
  | _ => s

def enter (sel : Extent) (s : Trace) (p : Place) : Step × Trace :=
  if s.complete then (.abort "enclosing method complete", s)
  else if enclosesSelection sel p then (.descend, s.restart p.node)
  else if s.method.isNone then
    match p.node.kind with
    | .file => (.descend, s)
    | .typeDecl => (if sel.LiesIn p.node.start p.node.stop then .descend else .skip, s)
    | _ => (.skip, s)
  else
    match classify sel s p with
    | .ok s => (.descend, s.enterClassified p)
    | .error fault => (.abort fault.message, { s with fault := some fault })

def leaveEffects (s : Trace) (p : Place) : Trace :=
  match p.node.kind with
  | .assign =>
    (SyntaxTree.rootPlaces p.below p.children).foldl
      (fun s c =>
        if c.node.role = .target ∧ c.node.kind = .name then s.access .write (s.phaseOf c.node.id) c
        else s)
      s
  | .declarator => if p.node.initialized then s.access .write (s.phaseOf p.node.id) p else s
  | .call | .throwStmt => if p.node.types.isEmpty then s else s.emit .call (s.phaseOf p.node.id) p
  | _ => s

def leave (s : Trace) (p : Place) : Trace :=
  let n := p.node
  if s.method.any fun m => m.id == n.id then { s with complete := true }
  else if s.method.isNone then s
  else
    let phase := s.phaseOf n.id
    let s := s.leaveEffects p
    let s := if n.kind.isScope then { s with depth := s.depth - 1 } else s
    let s := s.emit .leave phase p
    if phase = .selected ∧ s.reach < n.stop then { s with reach := n.stop } else s

def ofSelection (t : SyntaxTree) (sel : Extent) : Trace :=
  (SyntaxTree.walk (enter sel) leave [] t.first {}).state

def returnDiagnostics (s : Trace) : Except Fault (List Diagnostic) :=
  match s.topLevel with
  | [n] =>
    if n.kind = .returnStmt then do
      let extent ← n.extent
      return [⟨.singleReturn, "A single return statement cannot be extracted", some n.id, extent⟩]
    else .ok []
  | _ => .ok []

/-- A diagnostic for the text between an end of the selection and the node next to it, unless the
selection may end there. -/
def boundaryDiagnostics (allowed : Bool) (message : String) (node : Option Nat) (start stop : Int) :
    Except Fault (List Diagnostic) :=
  if allowed then .ok []
  else do
    let extent ← Extent.between start stop
    return [⟨.invalidBoundary, message, node, extent⟩]

def validated (s : Trace) (sel : Extent) (boundaries : Boundaries) :
    Except Fault (List Diagnostic) :=
  match s.method, s.first with
  | some _, some first => do
    let single ← s.returnDiagnostics
    let start ← boundaryDiagnostics
      (boundaries.allows sel.offset && boundaries.blank sel.offset first.start)
      "The beginning of the selection is not a valid statement boundary"
        (some first.id) sel.offset first.start
    let stop ← boundaryDiagnostics
      (s.has .endsMidStatement || decide (s.reach < 0) || decide (sel.past < s.reach) ||
        (boundaries.allows sel.past && boundaries.blank s.reach sel.past))
      "The end of the selection is not a valid statement boundary"
        (s.last.map (·.id)) s.reach sel.past
    return s.diagnostics ++ single ++ start ++ stop
  | _, _ =>
    .ok (s.diagnostics ++
      [⟨.noEnclosingMethod, "The selection does not contain any statements of a method body",
      none, sel⟩])

/-- Whether the selection is one expression that is no assignment target. -/
def isExpression (s : Trace) : Bool :=
  match s.topLevel with
  | [n] => n.kind.isExpression && n.role != .target
  | _ => false

end Trace

end Extraction
