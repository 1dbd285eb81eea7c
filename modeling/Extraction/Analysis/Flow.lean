import Extraction.Analysis.Event

/-!
# Control flow of a selection

A flow says whether all, some or no paths through a fragment return, and which jumps leave it.  The
flow of a statement is computed from the flows of the statements in it; the events of the selected
statements outside nested scopes rebuild that tree of statements.
-/

namespace Extraction

inductive ReturnMode where
  | noReturn
  /-- Some, but not all, paths return. -/
  | someReturn
  | allReturn
  /-- Every path raises; neutral among alternatives. -/
  | throws
  | unknown (code : Int)
deriving DecidableEq, Repr

namespace ReturnMode

def ofCode : Int → ReturnMode
  | 0 => noReturn
  | 1 => someReturn
  | 2 => allReturn
  | 3 => throws
  | code => unknown code

def describe : ReturnMode → String
  | noReturn => "NO_RETURN"
  | someReturn => "SOME_RETURN"
  | allReturn => "ALL_RETURN"
  | throws => "THROW"
  | unknown code => s!"ReturnMode({code})"

/-- The mode of two alternative or consecutive fragments. -/
def merge : ReturnMode → ReturnMode → ReturnMode
  | throws, b => b
  | a, throws => a
  | a, b => if a = b then a else someReturn

/-- What is left of a guarantee if the fragment may not run. -/
def demote : ReturnMode → ReturnMode
  | allReturn => someReturn
  | throws => noReturn
  | mode => mode

end ReturnMode

inductive BranchKind where
  | breakBranch
  | continueBranch
  | gotoBranch
  | fallthroughBranch
  | unknown (code : Int)
deriving DecidableEq, Repr

namespace BranchKind

def ofCode : Int → BranchKind
  | 0 => breakBranch
  | 1 => continueBranch
  | 2 => gotoBranch
  | 3 => fallthroughBranch
  | code => unknown code

def code : BranchKind → Int
  | breakBranch => 0
  | continueBranch => 1
  | gotoBranch => 2
  | fallthroughBranch => 3
  | unknown code => code

def keyword : BranchKind → String
  | breakBranch => "break"
  | continueBranch => "continue"
  | gotoBranch => "goto"
  | fallthroughBranch => "fallthrough"
  | unknown _ => ""

end BranchKind

/-- A jump that has not been matched to its target.  The empty label is that of an unlabeled
jump. -/
structure BranchTarget where
  kind : BranchKind
  label : String
deriving DecidableEq, Repr

namespace BranchTarget

def describe (b : BranchTarget) : String :=
  if b.label = "" then b.kind.keyword else b.kind.keyword ++ " " ++ b.label

def le (a b : BranchTarget) : Bool :=
  if a.kind.code = b.kind.code then !decide (b.label < a.label)
  else decide (a.kind.code < b.kind.code)

end BranchTarget

structure Flow where
  mode : ReturnMode := .noReturn
  openBranches : List BranchTarget := []
deriving DecidableEq, Repr

namespace Flow

def joinBranches (a b : List BranchTarget) : List BranchTarget :=
  a ++ b.filter fun t => t ∉ a

@[simp] theorem mem_joinBranches (a b : List BranchTarget) (t : BranchTarget) :
    t ∈ joinBranches a b ↔ t ∈ a ∨ t ∈ b := by
  by_cases h : t ∈ a <;> simp [joinBranches, h]

/-- The fragment can be replaced by one call: all or no paths return, and no jump leaves it. -/
def Extractable (f : Flow) : Prop :=
  f.mode ≠ .someReturn ∧ f.openBranches = []

instance (f : Flow) : Decidable f.Extractable :=
  inferInstanceAs (Decidable (_ ∧ _))

def sortedBranches (f : Flow) : List BranchTarget :=
  f.openBranches.eraseDups.mergeSort BranchTarget.le

def describe (f : Flow) : String :=
  f.mode.describe ++ " \x7b" ++ ", ".intercalate
    (f.sortedBranches.map BranchTarget.describe) ++ "\x7d"

def merge (a b : Flow) : Flow :=
  ⟨a.mode.merge b.mode, joinBranches a.openBranches b.openBranches⟩

def demote (f : Flow) : Flow :=
  { f with mode := f.mode.demote }

def resolve (f : Flow) (targets : List BranchTarget) : Flow :=
  { f with openBranches := f.openBranches.filter fun b => b ∉ targets }

def meets (f : Flow) (targets : List BranchTarget) : Bool :=
  f.openBranches.any fun b => b ∈ targets

def alternatives : List Flow → Flow
  | [] => {}
  | f :: rest => rest.foldl merge f

/-- The flow of consecutive statements.  If no jump is open and the last statement always returns or
raises, then so does the sequence, and it returns if anything in it does. -/
def sequence (flows : List Flow) : Flow :=
  let all := alternatives flows
  match flows.getLast? with
  | none => all
  | some last =>
    if all.openBranches ≠ [] then all
    else
      match last.mode with
      | .allReturn => { all with mode := .allReturn }
      | .throws =>
        if all.mode = .someReturn ∨ all.mode = .allReturn then { all with mode := .allReturn }
        else { all with mode := .throws }
      | _ => all

end Flow

structure FlowNode where
  place : Place
  flow : Flow

namespace FlowNode

def node (f : FlowNode) : Node :=
  f.place.node

def inRole? (role : Role) (parts : List FlowNode) : Option FlowNode :=
  parts.find? fun f => f.node.role = role

end FlowNode

namespace Flow

def labelOf (p : Place) : String :=
  match p.parent? with
  | some q => if q.kind = .labeled then q.label else ""
  | none => ""

def ofConditional (parts : List FlowNode) : Flow :=
  match FlowNode.inRole? .thenBranch parts, FlowNode.inRole? .elseBranch parts with
  | some a, some b => a.flow.merge b.flow
  | some a, none => a.flow.demote
  | none, some b => b.flow.demote
  | none, none => {}

def loopTargets (p : Place) : List BranchTarget :=
  [⟨.breakBranch, ""⟩, ⟨.continueBranch, ""⟩] ++
    if labelOf p = "" then [] else [⟨.breakBranch, labelOf p⟩, ⟨.continueBranch, labelOf p⟩]

/-- Whether a loop runs its body at least once: it tests afterward or not at all. -/
def runsBody (p : Place) : Bool :=
  p.node.kind == .doWhile || (p.child? .cond).isNone

/-- The outcome of a body that always runs carries over, unless a jump to the loop can skip it. -/
def ofLoop (p : Place) (parts : List FlowNode) : Flow :=
  let body := ((FlowNode.inRole? .body parts).map (·.flow)).getD {}
  let flow := body.resolve (loopTargets p)
  if runsBody p && !body.meets (loopTargets p) then flow else flow.demote

def switchTargets (p : Place) : List BranchTarget :=
  [⟨.breakBranch, ""⟩, ⟨.fallthroughBranch, ""⟩] ++
    if labelOf p = "" then [] else [⟨.breakBranch, labelOf p⟩]

def ofSwitch (p : Place) (parts : List FlowNode) : Flow :=
  let cases := parts.filter fun f => f.node.kind = .caseClause
  let flow := (alternatives (cases.map (·.flow))).resolve (switchTargets p)
  if (cases.any fun f => f.node.isDefault) && flow.openBranches.isEmpty then flow else flow.demote

/-- The body and the handlers are alternatives.  A final block that always returns or raises
replaces their outcome, else it adds its jumps. -/
def ofTry (parts : List FlowNode) : Flow :=
  let isFinal (f : FlowNode) : Bool := f.node.kind == .finallyClause
  let others := parts.filter fun f =>
    !isFinal f && (f.node.role == .body || f.node.kind == .catchClause)
  let flow := alternatives (others.map (·.flow))
  match (parts.filter isFinal).getLast? with
  | none => flow
  | some final =>
    if final.flow.mode = .allReturn ∨ final.flow.mode = .throws then final.flow
    else { flow with openBranches := joinBranches flow.openBranches final.flow.openBranches }

def ofStatement (p : Place) (parts : List FlowNode) : Flow :=
  let flows := parts.map (·.flow)
  match p.node.kind with
  | .breakStmt => ⟨.noReturn, [⟨.breakBranch, p.node.label⟩]⟩
  | .continueStmt => ⟨.noReturn, [⟨.continueBranch, p.node.label⟩]⟩
  | .gotoStmt => ⟨.noReturn, [⟨.gotoBranch, p.node.label⟩]⟩
  | .fallthroughStmt => ⟨.noReturn, [⟨.fallthroughBranch, p.node.label⟩]⟩
  | .returnStmt => ⟨.allReturn, []⟩
  | .throwStmt => ⟨.throws, []⟩
  | .block | .caseClause | .finallyClause => sequence flows
  | .catchClause => ((FlowNode.inRole? .body parts).map (·.flow)).getD {}
  | .ifStmt => ofConditional parts
  | .loop | .doWhile => ofLoop p parts
  | .labeled => (sequence flows).resolve [⟨.breakBranch, p.node.label⟩]
  | .switch => ofSwitch p parts
  | .tryStmt => ofTry parts
  | _ => alternatives flows

end Flow

structure Returns where
  /-- The statements that have been entered and not left, innermost first, each with the statements
  in it. -/
  stack : List (Place × Forest FlowNode) := []
  roots : Forest FlowNode := .nil
  labels : List String := []
  /-- The labels that jumps outside the selection go to. -/
  incoming : List String := []

namespace Returns

/-- Leaves the innermost statement: its flow is known, and it becomes part of the one around it. -/
def close (s : Returns) : Returns :=
  match s.stack with
  | [] => s
  | (p, parts) :: outer =>
    let done : Forest FlowNode := .cons ⟨p, Flow.ofStatement p parts.roots⟩ parts .nil
    match outer with
    | [] => { s with stack := [], roots := s.roots ++ done }
    | (q, others) :: rest => { s with stack := (q, others ++ done) :: rest }

def step (s : Returns) (e : Event) : Returns :=
  if e.nested || !e.node.kind.isStatement then s
  else
    match e.kind with
    | .enter =>
      if e.phase = .selected then
        { s with
          labels := if e.node.kind = .labeled then s.labels.insert e.node.label else s.labels
          stack := (e.place, .nil) :: s.stack }
      else if e.node.kind = .gotoStmt then { s with incoming := s.incoming.insert e.node.label }
      else s
    | .leave => if e.phase = .selected then s.close else s
    | _ => s

def ofEvents (events : List Event) : Returns :=
  events.foldl step {}

/-- The flow of the whole selection.  A jump to a label inside the selection is resolved; a label
inside the selection that is jumped to from outside stays open. -/
def flow (s : Returns) : Flow :=
  let flow := (Flow.sequence (s.roots.roots.map (·.flow))).resolve
    (s.labels.map fun l => ⟨.gotoBranch, l⟩)
  { flow with
    openBranches := Flow.joinBranches flow.openBranches
      ((s.incoming.filter (· ∈ s.labels)).map fun l => ⟨.gotoBranch, l⟩) }

end Returns

end Extraction
