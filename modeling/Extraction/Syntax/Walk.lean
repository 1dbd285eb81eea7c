import Extraction.Syntax.Node

/-!
# Traversals

`walk` visits a forest depth first, with a call before and a call after the children of each node;
the first call may skip the children or stop the whole traversal.  `visit` only lists the nodes it
meets.
-/

namespace Extraction

inductive Step where
  | descend
  | skip
  | abort (reason : String)
deriving DecidableEq, Repr

/-- The state a traversal ended in, and why it was stopped, if it was. -/
structure Walked (σ : Type) where
  state : σ
  stopped : Option String := none

namespace SyntaxTree

variable {σ : Type}

/-- Walks a forest below `path`.  A node whose children are skipped is not left, and nothing is left
once the traversal stops. -/
def walk (enter : σ → Place → Step × σ) (leave : σ → Place → σ) (path : List Node) :
    SyntaxTree → σ → Walked σ
  | .nil, s => ⟨s, none⟩
  | .cons n children rest, s =>
    let place : Place := ⟨n, children, path⟩
    match enter s place with
    | (.abort reason, s) => ⟨s, some reason⟩
    | (.skip, s) => walk enter leave path rest s
    | (.descend, s) =>
      let below := walk enter leave (n :: path) children s
      match below.stopped with
      | some _ => below
      | none => walk enter leave path rest (leave below.state place)

/-- The nodes met in preorder when the children of a node are visited only if `enterable` says
so. -/
def visit (enterable : Node → Bool) : SyntaxTree → List Node
  | .nil => []
  | .cons n children rest =>
    n :: ((if enterable n then visit enterable children else []) ++ visit enterable rest)

end SyntaxTree

namespace Place

def subtree (p : Place) : SyntaxTree :=
  .cons p.node p.children .nil

end Place

end Extraction
