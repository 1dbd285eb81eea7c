import Extraction.Syntax.Node

/-!
# Sketches of syntax trees

A sketch describes a tree before its nodes have offsets.  `Sketch.layout` gives every node an
opening and a closing byte, so that the ranges of a laid-out tree are nested as its nodes are; a
selection is then named by the nodes it spans.  Nodes are numbered in preorder.  Absent parts of a
statement are given as `none` and leave no node.
-/

namespace Extraction

abbrev Sketch := Tree Payload

namespace Sketch

/-- A node of a kind with the parts that are present. -/
def ofKind (kind : Kind) (parts : List (Option Sketch)) : Sketch :=
  ⟨{ kind }, .ofTrees (parts.filterMap id)⟩

def modify (f : Payload → Payload) (s : Sketch) : Sketch :=
  { s with root := f s.root }

def inRole (role : Role) (s : Option Sketch) : Option Sketch :=
  s.map (modify fun p => { p with role })

def file (decls : List (Option Sketch)) : Sketch :=
  ofKind .file decls

def type (name : String) (members : List (Option Sketch)) : Sketch :=
  (ofKind .typeDecl members).modify fun p => { p with text := name }

def block (stmts : List (Option Sketch)) : Sketch :=
  ofKind .block stmts

/-- A variable that holds a value from the start, as a parameter does. -/
def parameter (v : Option Binding) : Sketch :=
  (ofKind .declarator []).modify fun p => { p with binding := v, initialized := true }

def method (name : String) (void : Bool) (params : List (Option Binding))
    (body : List (Option Sketch)) : Sketch :=
  (ofKind .method (params.map (fun v => some (parameter v)) ++ [inRole .body (block body)])).modify
    fun p => { p with text := name, void }

def lambda (void : Bool) (body : List (Option Sketch)) : Sketch :=
  (ofKind .lambda [inRole .body (block body)]).modify fun p => { p with void }

def eval (expr : Option Sketch) : Sketch :=
  ofKind .exprStmt [expr]

/-- The declaration of a local variable, initialised if there is a value. -/
def declare (v : Option Binding) (value : Option Sketch) : Sketch :=
  ofKind .localDecl
    [some ((ofKind .declarator [inRole .value value]).modify fun p =>
      { p with binding := v, initialized := value.isSome })]

def ref (v : Option Binding) : Sketch :=
  (ofKind .name []).modify fun p => { p with binding := v }

/-- The statement `v = source`, or `v op= source` if it is compound. -/
def assign (compound : Bool) (v : Option Binding) (source : Option Sketch) : Sketch :=
  eval ((ofKind .assign [inRole .target (ref v), inRole .source source]).modify fun p =>
    { p with compound })

def increment (v : Option Binding) : Sketch :=
  eval (ofKind .incDec [some (ref v)])

def call (name : String) (types : List ClassType) (arguments : List (Option Sketch)) : Sketch :=
  (ofKind .call arguments).modify fun p => { p with text := name, types }

/-- A literal, or an operation on operands. -/
def operation (operands : List (Option Sketch)) : Sketch :=
  ofKind .otherExpr operands

def ret (value : Option Sketch) : Sketch :=
  (ofKind .returnStmt [value]).modify fun p => { p with hasValue := value.isSome }

def jump (kind : Kind) (label : String) : Sketch :=
  (ofKind kind []).modify fun p => { p with label }

def conditional (cond thenBranch elseBranch : Option Sketch) : Sketch :=
  ofKind .ifStmt [inRole .cond cond, inRole .thenBranch thenBranch, inRole .elseBranch elseBranch]

def loop (init cond post body : Option Sketch) : Sketch :=
  ofKind .loop [inRole .init init, inRole .cond cond, inRole .post post, inRole .body body]

def doWhile (body cond : Option Sketch) : Sketch :=
  ofKind .doWhile [inRole .body body, inRole .cond cond]

def labeled (label : String) (stmt : Option Sketch) : Sketch :=
  (ofKind .labeled [inRole .body stmt]).modify fun p => { p with label }

def switch (tag : Option Sketch) (cases : List (Option Sketch)) : Sketch :=
  ofKind .switch (inRole .cond tag :: cases)

def caseOf (value : Option Sketch) (stmts : List (Option Sketch)) : Sketch :=
  ofKind .caseClause (inRole .cond value :: stmts)

def defaultCase (stmts : List (Option Sketch)) : Sketch :=
  (ofKind .caseClause stmts).modify fun p => { p with isDefault := true }

def tryStmt (body : Option Sketch) (catches : List (Option Sketch))
    (final : Option Sketch) : Sketch :=
  ofKind .tryStmt (inRole .body body ::
    (catches ++ [final.map fun f => ofKind .finallyClause [some f]]))

/-- A clause that handles the given types and binds the exception to a parameter. -/
def catchClause (v : Option Binding) (types : List ClassType) (body : Option Sketch) : Sketch :=
  (ofKind .catchClause [some (parameter v), inRole .body body]).modify fun p => { p with types }

def throwStmt (types : List ClassType) (expr : Option Sketch) : Sketch :=
  (ofKind .throwStmt [expr]).modify fun p => { p with types }

def other (parts : List (Option Sketch)) : Sketch :=
  ofKind .otherStmt parts

/-- A node with all that is known of it.  None of its parts may be absent. -/
def ofPayload (payload : Payload) (parts : List (Option Sketch)) : Except Fault Sketch :=
  match parts.mapM id with
  | some parts => .ok ⟨payload, .ofTrees parts⟩
  | none => .error .missingPart

/-- Lays out a forest from the given offset, numbering its nodes from `id`.  A node opens with one
byte, holds its children and closes with one byte. -/
def layoutFrom (offset : Int) (id : Nat) : Forest Payload → SyntaxTree
  | .nil => .nil
  | .cons p children rest =>
    let stop := offset + 2 * (children.size + 1)
    .cons { p with id, start := offset, stop } (layoutFrom (offset + 1) (id + 1) children)
      (layoutFrom stop (id + 1 + children.size) rest)

/-- Where the variable with the given key is declared; the last of several declarators counts. -/
def declaredAt? (t : SyntaxTree) (key : Nat) : Option Int :=
  (t.toList.reverse.find? fun n => n.kind = .declarator && n.binding.any fun b =>
    b.key == key).map (·.start)

/-- The variable with the offset of its declaration in `t`, if it has one. -/
def declaredIn (t : SyntaxTree) (b : Binding) : Binding :=
  { b with pos := (declaredAt? t b.key).getD b.pos }

/-- The laid-out tree, in which every variable knows where it is declared. -/
def layout (s : Sketch) : SyntaxTree :=
  let t := layoutFrom 0 0 (.cons s.root s.children .nil)
  t.map fun n => { n with binding := n.binding.map (declaredIn t) }

end Sketch

namespace SyntaxTree

def tagged? (t : SyntaxTree) (tag : String) : Option Node :=
  t.toList.find? fun n => n.tag == tag

def selectNodes (first last : Node) : Except Fault Extent :=
  Extent.between first.start last.stop

end SyntaxTree

end Extraction
