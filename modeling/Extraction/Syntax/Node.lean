import Extraction.Syntax.Binding
import Extraction.Syntax.Forest
import Extraction.Syntax.Kind
import Extraction.Text.Extent

/-!
# Syntax nodes and their places

A node says what it is and which bytes it spans.  A syntax tree is a forest of nodes whose first
tree is the one that is analysed; the other trees are detached.  A place is a node together with its
children and the path to it, nearest ancestor first.
-/

namespace Extraction

/-- What a node is, apart from where it stands. -/
structure Payload where
  kind : Kind
  role : Role := .unspecified
  label : String := ""
  binding : Option Binding := none
  /-- An assignment that also reads its target. -/
  compound : Bool := false
  /-- A declarator that stores a value. -/
  initialized : Bool := false
  hasValue : Bool := false
  void : Bool := false
  isDefault : Bool := false
  /-- The types a call or throw raises, or a catch clause handles. -/
  types : List ClassType := []
  text : String := ""
  /-- A name by which the node is found again after layout. -/
  tag : String := ""
deriving DecidableEq, Repr

structure Node extends Payload where
  id : Nat
  start : Int
  stop : Int
deriving DecidableEq, Repr

namespace Node

/-- The extent of a node whose range is not reversed. -/
def extent (n : Node) : Except Fault Extent :=
  Extent.between n.start n.stop

end Node

abbrev SyntaxTree := Forest Node

/-- A node with what lies below and above it. -/
structure Place where
  node : Node
  children : Forest Node
  ancestors : List Node
deriving DecidableEq, Repr

namespace Place

def parent? (p : Place) : Option Node :=
  p.ancestors.head?

def below (p : Place) : List Node :=
  p.node :: p.ancestors

def child? (p : Place) (role : Role) : Option Node :=
  p.children.roots.find? fun n => n.role = role

/-- The nearest proper ancestor of one of the given kinds. -/
def ancestor? (p : Place) (kinds : List Kind) : Option Node :=
  p.ancestors.find? fun n => n.kind ∈ kinds

/-- Whether the place is the node `id` or lies below it. -/
def isWithin (p : Place) (id : Nat) : Bool :=
  p.node.id == id || p.ancestors.any fun n => n.id == id

end Place

namespace SyntaxTree

/-- All places in preorder, below the given path. -/
def placesBelow (path : List Node) : SyntaxTree → List Place
  | .nil => []
  | .cons n children rest =>
    ⟨n, children, path⟩ :: (placesBelow (n :: path) children ++ placesBelow path rest)

def places (t : SyntaxTree) : List Place :=
  placesBelow [] t

def rootPlaces (path : List Node) : SyntaxTree → List Place
  | .nil => []
  | .cons n children rest => ⟨n, children, path⟩ :: rootPlaces path rest

def place? (t : SyntaxTree) (id : Int) : Except Fault Place :=
  match t.places.find? fun p => (p.node.id : Int) = id with
  | some p => .ok p
  | none => .error (.noSuchNode id)

/-- Adds a node as the last child of `parent`, or as a detached tree. -/
def add (t : SyntaxTree) (parent : Option Nat) (n : Node) : SyntaxTree :=
  match parent with
  | none => t ++ .cons n .nil .nil
  | some id => t.graft (fun m => m.id == id) n

/-- The tree grown by adding one node after the other, numbered from zero.  The parent of a node, -1
if it has none, must have been added before. -/
def grow (entries : List (Int × (Nat → Node))) : Except Fault SyntaxTree :=
  go .nil 0 entries
where
  go (t : SyntaxTree) (next : Nat) : List (Int × (Nat → Node)) → Except Fault SyntaxTree
    | [] => .ok t
    | (parent, node) :: rest =>
      if parent = -1 then go (t.add none (node next)) (next + 1) rest
      else if 0 ≤ parent ∧ parent < next then
        go (t.add (some parent.toNat) (node next)) (next + 1) rest
      else .error (.noSuchNode parent)

def outlineBelow (depth : Nat) : SyntaxTree → String
  | .nil => ""
  | .cons n children rest =>
    String.join (List.replicate depth "  ") ++ s!"{n.kind.describe} [{n.start},{n.stop})" ++
      (if n.label = "" then "" else " " ++ n.label) ++
      (match n.binding with
        | none => ""
        | some b => " " ++ b.name) ++
      "\n" ++ outlineBelow (depth + 1) children ++ outlineBelow depth rest

def outline (t : SyntaxTree) : String :=
  outlineBelow 0 t.first

end SyntaxTree

end Extraction
