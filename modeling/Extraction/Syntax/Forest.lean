/-!
# Forests

An ordered forest is empty, or a root with its children followed by the rest of the forest.  This is
one plain recursive type, so every traversal is a structural recursion with two recursive calls.
-/

namespace Extraction

inductive Forest (α : Type) where
  | nil
  | cons (root : α) (children rest : Forest α)
deriving DecidableEq, Repr

structure Tree (α : Type) where
  root : α
  children : Forest α := .nil
deriving DecidableEq, Repr

namespace Forest

variable {α β : Type}

def size : Forest α → Nat
  | nil => 0
  | cons _ children rest => children.size + 1 + rest.size

def toList : Forest α → List α
  | nil => []
  | cons root children rest => root :: (children.toList ++ rest.toList)

def roots : Forest α → List α
  | nil => []
  | cons root _ rest => root :: rest.roots

def append : Forest α → Forest α → Forest α
  | nil, other => other
  | cons root children rest, other => cons root children (rest.append other)

instance : Append (Forest α) := ⟨append⟩

def map (f : α → β) : Forest α → Forest β
  | nil => nil
  | cons root children rest => cons (f root) (children.map f) (rest.map f)

def ofTrees : List (Tree α) → Forest α
  | [] => nil
  | t :: rest => cons t.root t.children (ofTrees rest)

def first : Forest α → Forest α
  | nil => nil
  | cons root children _ => cons root children nil

/-- Adds a leaf as last child of every node that `here` accepts. -/
def graft (here : α → Bool) (leaf : α) : Forest α → Forest α
  | nil => nil
  | cons root children rest =>
    let children := children.graft here leaf
    cons root (if here root then children ++ cons leaf nil nil else children) (rest.graft here leaf)

@[simp] theorem length_toList (f : Forest α) : f.toList.length = f.size := by
  induction f with
  | nil => rfl
  | cons _ _ _ ih₁ ih₂ => simp [toList, size, ih₁, ih₂]; omega

@[simp] theorem nil_append (g : Forest α) : nil ++ g = g :=
  rfl

@[simp] theorem cons_append (root : α) (children rest g : Forest α) :
    cons root children rest ++ g = cons root children (rest ++ g) :=
  rfl

@[simp] theorem append_nil (f : Forest α) : f ++ nil = f := by
  induction f with
  | nil => rfl
  | cons _ _ _ _ ih => simp [ih]

theorem append_assoc (f g h : Forest α) : f ++ g ++ h = f ++ (g ++ h) := by
  induction f with
  | nil => rfl
  | cons _ _ _ _ ih => simp [ih]

@[simp] theorem toList_append (f g : Forest α) : (f ++ g).toList = f.toList ++ g.toList := by
  induction f with
  | nil => rfl
  | cons _ _ _ _ ih => simp [toList, ih]

@[simp] theorem size_append (f g : Forest α) : (f ++ g).size = f.size + g.size := by
  rw [← length_toList, toList_append, List.length_append, length_toList, length_toList]

@[simp] theorem roots_append (f g : Forest α) : (f ++ g).roots = f.roots ++ g.roots := by
  induction f with
  | nil => rfl
  | cons _ _ _ _ ih => simp [roots, ih]

@[simp] theorem toList_map (f : α → β) (t : Forest α) : (t.map f).toList = t.toList.map f := by
  induction t with
  | nil => rfl
  | cons _ _ _ ih₁ ih₂ => simp [toList, map, ih₁, ih₂]

end Forest

end Extraction
