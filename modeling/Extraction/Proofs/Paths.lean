import Extraction.Analysis.Flow
import Extraction.Proofs.Stream

/-!
# Paths of control

A path of control enters a place, runs the children of its parts in order and ends the place in one
of several ways. Which part follows which depends on the kind of the place alone: a condition may
turn out either way, so an `if` goes on with either branch and a loop with a condition may end
whenever it is tested.  A return, a raise or a jump is passed up to the places around it until one
of them takes it.  The inside of a function or type is not run.

Endings that wait for a final block to run are kept in a stack; only `try` statements use it.
-/

namespace Extraction

inductive Ending where
  | normal
  | returned
  | raised
  | jumped (target : BranchTarget)
deriving DecidableEq, Repr

/-- The parts of a place.  The children of one part run in order. -/
inductive Part where
  /-- What is evaluated before a branch or a clause is chosen. -/
  | heads
  | thenPart
  | elsePart
  | init
  | test
  | body
  | post
  | clause (id : Nat)
  | handler (id : Nat)
  | final
deriving DecidableEq, Repr

namespace SyntaxTree

/-- The places that are not inside a function or type of the forest, in preorder. -/
def exposed (path : List Node) : SyntaxTree → List Place
  | .nil => []
  | .cons n children rest =>
    ⟨n, children, path⟩ :: ((if n.kind.isScope then [] else exposed (n :: path) children) ++
      exposed path rest)

end SyntaxTree

namespace Place

def partOf (p : Place) (c : Node) : Part :=
  match p.node.kind with
  | .ifStmt =>
    match c.role with
    | .thenBranch => .thenPart
    | .elseBranch => .elsePart
    | _ => .heads
  | .loop | .doWhile =>
    match c.role with
    | .init => .init
    | .cond => .test
    | .post => .post
    | _ => .body
  | .switch => if c.role = .cond then .heads else .clause c.id
  | .caseClause => if c.role = .cond then .test else .body
  | .tryStmt =>
    match c.kind with
    | .catchClause => .handler c.id
    | .finallyClause => .final
    | _ => .body
  | _ => .body

def part (p : Place) (x : Part) : List Place :=
  (SyntaxTree.rootPlaces p.below p.children).filter fun c => p.partOf c.node = x

def firstPart (p : Place) : Part :=
  match p.node.kind with
  | .ifStmt | .switch => .heads
  | .loop => .init
  | .caseClause => .test
  | _ => .body

def clauses (p : Place) : List Place :=
  (SyntaxTree.rootPlaces p.below p.children).filter fun c => c.node.role ≠ .cond

/-- What may follow a part: another part, or the end of the place.  A loop with a condition may end
at every test.  One without runs its body at least once; a lenient reading lets it end after any
round, a strict one never. -/
def nextParts (lenient : Bool) (p : Place) (x : Part) : List (Option Part) :=
  match p.node.kind, x with
  | .ifStmt, .heads => [some .thenPart, some .elsePart]
  | .loop, .init | .doWhile, .init => [some .test]
  | .loop, .test | .doWhile, .test => some .body :: if p.part .test = [] then [] else [none]
  | .loop, .body | .doWhile, .body => [some .post]
  | .loop, .post | .doWhile, .post =>
    some .test :: if p.part .test = [] ∧ lenient = true then [none] else []
  | .switch, .heads =>
    p.clauses.map (fun c => some (.clause c.node.id)) ++ if p.clauses.any (·.node.isDefault) then []
      else [none]
  | .caseClause, .test => [some .body]
  | _, _ => [none]

/-- The endings of a place whose parts have all been run.  A call may raise. -/
def settles (p : Place) : List Ending :=
  match p.node.kind with
  | .returnStmt => [.returned]
  | .throwStmt => [.raised]
  | .call => [.normal, .raised]
  | .breakStmt => [.jumped ⟨.breakBranch, p.node.label⟩]
  | .continueStmt => [.jumped ⟨.continueBranch, p.node.label⟩]
  | .gotoStmt => [.jumped ⟨.gotoBranch, p.node.label⟩]
  | .fallthroughStmt => [.jumped ⟨.fallthroughBranch, p.node.label⟩]
  | _ => [.normal]

/-- Whether a jump ends the place: a loop, a switch or a labeled statement that the jump breaks out
of. -/
def EndedBy (p : Place) (b : BranchTarget) : Prop :=
  b.kind = .breakBranch ∧
    match p.node.kind with
    | .loop | .doWhile | .switch => b.label = "" ∨ b.label = Flow.labelOf p
    | .labeled => b.label = p.node.label
    | _ => False

/-- Whether a jump goes on with the next round of the place. -/
def ContinuedBy (p : Place) (b : BranchTarget) : Prop :=
  b.kind = .continueBranch ∧ p.node.kind.isLoop = true ∧ (b.label = "" ∨ b.label = Flow.labelOf p)

/-- Whether a jump goes from one clause of the switch to the next. -/
def FallenThroughBy (p : Place) (b : BranchTarget) : Prop :=
  b = ⟨.fallthroughBranch, ""⟩ ∧ p.node.kind = .switch

end Place

/-- Whether a jump goes to a labeled statement among the given places. -/
def BranchTarget.LandsOn (b : BranchTarget) (l : Place) : Prop :=
  b.kind = .gotoBranch ∧ l.node.kind = .labeled ∧ l.node.label = b.label

namespace Place

/-- Whether the place lets an ending of its child pass to the place around it. -/
def Passes (p : Place) : Ending → Prop
  | .normal => False
  | .returned | .raised => p.node.kind ≠ .tryStmt
  | .jumped b =>
    p.node.kind ≠ .tryStmt ∧ ¬ p.EndedBy b ∧ ¬ p.ContinuedBy b ∧ ¬ p.FallenThroughBy b ∧
      ∀ l ∈ SyntaxTree.exposed p.below p.children, ¬ b.LandsOn l

end Place

inductive Moment where
  | enter (p : Place)
  /-- A part is about to be run. -/
  | run (p : Place) (x : Part)
  /-- All of a part has been run. -/
  | ran (p : Place) (x : Part)
  | done (p : Place) (o : Ending)
  /-- The whole forest is left. -/
  | finished (o : Ending)

open SyntaxTree in
/-- One step of control through a forest.  The list holds the endings that wait for final blocks. -/
inductive Moves (lenient : Bool) (path : List Node) (f : SyntaxTree) :
    Moment × List Ending → Moment × List Ending → Prop where
  | skip {p k} (hp : p ∈ exposed path f) (hscope : p.node.kind.isScope = true) :
      Moves lenient path f (.enter p, k) (.done p .normal, k)
  | start {p k} (hp : p ∈ exposed path f) (hscope : p.node.kind.isScope = false) :
      Moves lenient path f (.enter p, k) (.run p p.firstPart, k)
  | first {p x c r k} (hp : p ∈ exposed path f) (hpart : p.part x = c :: r) :
      Moves lenient path f (.run p x, k) (.enter c, k)
  | empty {p x k} (hp : p ∈ exposed path f) (hpart : p.part x = []) :
      Moves lenient path f (.run p x, k) (.ran p x, k)
  | next {p x l c d r k} (hp : p ∈ exposed path f) (hpart : p.part x = l ++ c :: d :: r) :
      Moves lenient path f (.done c .normal, k) (.enter d, k)
  | last {p x l c k} (hp : p ∈ exposed path f) (hpart : p.part x = l ++ [c]) :
      Moves lenient path f (.done c .normal, k) (.ran p x, k)
  | turn {p x y k} (hp : p ∈ exposed path f) (htry : p.node.kind ≠ .tryStmt)
      (hnext : some y ∈ p.nextParts lenient x) :
      Moves lenient path f (.ran p x, k) (.run p y, k)
  | settle {p x o k} (hp : p ∈ exposed path f) (htry : p.node.kind ≠ .tryStmt)
      (hnext : none ∈ p.nextParts lenient x) (ho : o ∈ p.settles) :
      Moves lenient path f (.ran p x, k) (.done p o, k)
  | pass {p x c o k} (hp : p ∈ exposed path f) (hc : c ∈ p.part x) (ho : p.Passes o) :
      Moves lenient path f (.done c o, k) (.done p o, k)
  | breakOut {p x c b k} (hp : p ∈ exposed path f) (hc : c ∈ p.part x) (hb : p.EndedBy b) :
      Moves lenient path f (.done c (.jumped b), k) (.done p .normal, k)
  | again {p x c b k} (hp : p ∈ exposed path f) (hc : c ∈ p.part x) (hb : p.ContinuedBy b) :
      Moves lenient path f (.done c (.jumped b), k) (.run p .post, k)
  | fallThrough {p l c d r b k} (hp : p ∈ exposed path f) (hclauses : p.clauses = l ++ c :: d :: r)
      (hb : p.FallenThroughBy b) : Moves lenient path f (.done c (.jumped b), k) (.run d .body, k)
  | fallOut {p l c b k} (hp : p ∈ exposed path f) (hclauses : p.clauses = l ++ [c])
      (hb : p.FallenThroughBy b) :
      Moves lenient path f (.done c (.jumped b), k) (.done p .normal, k)
  | land {p x c l b k} (hp : p ∈ exposed path f) (hc : c ∈ p.part x)
      (hl : l ∈ exposed p.below p.children)
      (hb : b.LandsOn l) : Moves lenient path f (.done c (.jumped b), k) (.enter l, k)
  | handle {p c h k} (hp : p ∈ exposed path f) (htry : p.node.kind = .tryStmt)
      (hc : c ∈ p.part .body) (hh : h ∈ p.part (.handler h.node.id)) :
      Moves lenient path f (.done c .raised, k) (.run p (.handler h.node.id), k)
  | wait {p x c o k} (hp : p ∈ exposed path f) (htry : p.node.kind = .tryStmt) (hc : c ∈ p.part x)
      (hx : x ≠ .final)
      (ho : o ≠ .normal) : Moves lenient path f (.done c o, k) (.run p .final, o :: k)
  | close {p x k} (hp : p ∈ exposed path f) (htry : p.node.kind = .tryStmt) (hx : x ≠ .final) :
      Moves lenient path f (.ran p x, k) (.run p .final, .normal :: k)
  | release {p o k} (hp : p ∈ exposed path f) (htry : p.node.kind = .tryStmt) :
      Moves lenient path f (.ran p .final, o :: k) (.done p o, k)
  | replace {p c o o' k} (hp : p ∈ exposed path f) (htry : p.node.kind = .tryStmt)
      (hc : c ∈ p.part .final)
      (ho : o ≠ .normal) : Moves lenient path f (.done c o, o' :: k) (.done p o, k)
  | nextRoot {l c d r k} (hroots : rootPlaces path f = l ++ c :: d :: r) :
      Moves lenient path f (.done c .normal, k) (.enter d, k)
  | lastRoot {l c k} (hroots : rootPlaces path f = l ++ [c]) :
      Moves lenient path f (.done c .normal, k) (.finished .normal, k)
  | landRoot {c l b k} (hc : c ∈ rootPlaces path f) (hl : l ∈ exposed path f) (hb : b.LandsOn l) :
      Moves lenient path f (.done c (.jumped b), k) (.enter l, k)
  | leave {c o k} (hc : c ∈ rootPlaces path f) (ho : o ≠ .normal)
      (hland : ∀ b, o = .jumped b → ∀ l ∈ exposed path f, ¬ b.LandsOn l) :
      Moves lenient path f (.done c o, k) (.finished o, k)

def Moment.start (path : List Node) (f : SyntaxTree) : Moment :=
  match SyntaxTree.rootPlaces path f with
  | [] => .finished .normal
  | c :: _ => .enter c

end Extraction
