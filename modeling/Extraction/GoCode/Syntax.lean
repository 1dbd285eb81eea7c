import Extraction.Syntax.Node
import Extraction.Text.Boundaries

/-!
# Type-checked Go syntax

The syntax of a Go file as far as it matters to the analysis, with what the type checker knows of
it.  Every node has its range.  A part that is absent is an empty statement or an empty list.
-/

namespace Extraction.GoCode

structure Variable where
  name : String
  /-- The offset of its declaration, or -1 if that is not in the file. -/
  pos : Int
  /-- Its type with package paths, and relative to the package of the file. -/
  type : String
  relativeType : String
  isField : Bool := false
  isGlobal : Bool := false
deriving DecidableEq, Repr

structure Ident where
  range : Span
  name : String
  var : Option Nat := none
  builtin : Option String := none
deriving DecidableEq, Repr

/-- The receiver, parameters and results of a function; one list of names for each field. -/
structure Signature where
  receiver : List (List Ident) := []
  params : List (List Ident) := []
  results : List (List Ident) := []
deriving DecidableEq, Repr

namespace Signature

def names (s : Signature) : List Ident :=
  (s.receiver ++ s.params ++ s.results).flatten

/-- The results that have a name; a bare return reads them. -/
def namedResults (s : Signature) : List Ident :=
  s.results.flatten

def isVoid (s : Signature) : Bool :=
  s.results.isEmpty

end Signature

structure FieldSelection where
  isField : Bool
  indirect : Bool
deriving DecidableEq, Repr

mutual

inductive Expr where
  | ident (id : Ident)
  | funcLit (range : Span) (sig : Signature) (body : Stmt)
  | call (range : Span) (callee : Expr) (args : List Expr) (text : String)
  | selector (range : Span) (operand : Expr) (selection : Option FieldSelection)
  | paren (range : Span) (inner : Expr)
  /-- `array` says that the operand is known to be an array. -/
  | index (range : Span) (operand : Expr) (indices : List Expr) (array : Bool)
  | other (range : Span) (parts : List Expr)
  /-- A list of fields within a type; it is no expression. -/
  | fields (parts : List Expr)

inductive Stmt where
  | empty
  | block (range : Span) (stmts : List Stmt)
  | expr (range : Span) (x : Expr)
  | varDecl (range : Span) (specs : List Stmt)
  | varSpec (names : List Ident) (values : List Expr)
  | typeDecl (range : Span)
  | assign (range : Span) (compound : Bool) (targets sources : List Expr)
  | incDec (range : Span) (x : Expr)
  | ret (range : Span) (results : List Expr)
  | branch (range : Span) (keyword : String) (label : String)
  | labeled (range : Span) (label : String) (stmt : Stmt)
  | conditional (range : Span) (init : Stmt) (cond : List Expr) (body alternative : Stmt)
  | forLoop (range : Span) (init : Stmt) (cond : List Expr) (post body : Stmt)
  /-- `assigns` says that each iteration stores into the key and value. -/
  | rangeLoop (range : Span) (assigns : Bool) (key value : List Expr) (ranged : List Expr)
      (body : Stmt)
  /-- A switch, type switch or select statement. -/
  | switch (range : Span) (init : Stmt) (tag : List Expr) (clauses : List Stmt)
  | clause (range : Span) (isDefault : Bool) (values : List Expr) (comm : Stmt) (body : List Stmt)
  | other (range : Span) (operands : List Expr)

end

inductive Decl where
  | func (range : Span) (name : String) (sig : Signature) (body : Stmt)
  | type (range : Span)
  /-- The types and initial values of package-level variables, in order. -/
  | vars (parts : List Expr)
  | other

structure File where
  start : Int
  size : Nat
  decls : List Decl
  vars : Array Variable

namespace Expr

def unparen : Expr → Expr
  | paren _ inner => inner.unparen
  | e => e

/-- The variable that holds the storage an expression denotes, unless it is reached through a
pointer, slice or map. -/
def storedIn? : Expr → Option Ident
  | ident id => some id
  | paren _ inner => inner.storedIn?
  | selector _ operand (some ⟨true, false⟩) => operand.storedIn?
  | index _ operand _ true => operand.storedIn?
  | _ => none

def isPanic : Expr → Bool
  | call _ callee _ _ =>
    match callee.unparen with
    | ident id => id.builtin == some "panic"
    | _ => false
  | _ => false

def range : Expr → Span
  | ident id => id.range
  | funcLit range _ _ | call range _ _ _ | selector range _ _ | paren range _ | index range _ _ _
  | other range _ => range
  | fields _ => ⟨0, 0⟩

end Expr

end Extraction.GoCode
