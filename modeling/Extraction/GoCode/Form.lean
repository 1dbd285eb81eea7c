import Extraction.GoCode.Syntax

/-!
# Forms of statements and declarations

The forms that statements and declarations are written in, with the parts already reduced, and what
each of them amounts to.  Several forms are one to the analysis: the statements that choose among
clauses, and those that evaluate operands and have no effect on the flow.
-/

namespace Extraction.GoCode

inductive Spec where
  | value (names : List Ident) (type values : List Expr)
  | other

structure GenDecl where
  keyword : String
  specs : List Spec

namespace GenDecl

/-- The declaration as a statement.  The types of local variables are not evaluated. -/
def stmt (range : Span) (d : GenDecl) : Stmt :=
  match d.keyword with
  | "var" =>
    .varDecl range (d.specs.map fun
      | .value names _ values => .varSpec names values
      | .other => .empty)
  | "type" => .typeDecl range
  | _ => .other range []

def decl (range : Span) (d : GenDecl) : Decl :=
  match d.keyword with
  | "var" =>
    .vars (d.specs.flatMap fun
      | .value _ type values => type ++ values
      | .other => [])
  | "type" => .type range
  | _ => .other

end GenDecl

inductive Form where
  | empty
  | block (stmts : List Stmt)
  | expr (x : Expr)
  | decl (d : GenDecl)
  | assign (token : String) (targets sources : List Expr)
  | incDec (x : Expr)
  | ret (results : List Expr)
  | branch (keyword label : String)
  | labeled (label : String) (stmt : Stmt)
  | conditional (init : Stmt) (cond : List Expr) (body alternative : Stmt)
  | forLoop (init : Stmt) (cond : List Expr) (post body : Stmt)
  /-- Without a token there is no key and no value. -/
  | rangeLoop (token : Option String) (key value ranged : List Expr) (body : Stmt)
  | switch (init : Stmt) (tag : List Expr) (clauses : List Stmt)
  /-- The guard is `x := y.(type)` or `y.(type)`. -/
  | typeSwitch (init guard : Stmt) (clauses : List Stmt)
  | select (clauses : List Stmt)
  | caseClause (values : Option (List Expr)) (body : List Stmt)
  | commClause (comm : Option Stmt) (body : List Stmt)
  | goCall (call : List Expr)
  | deferCall (call : List Expr)
  | send (channel value : List Expr)
  | bad

/-- The operands of the guard of a type switch.  The variable of `x := y.(type)` is bound in each
clause anew, so the guard stores nothing. -/
def Stmt.guarded : Stmt → List Expr
  | assign _ _ _ sources => sources
  | expr _ x => [x]
  | _ => []

def Form.stmt (range : Span) : Form → Stmt
  | empty => .empty
  | block stmts => .block range stmts
  | expr x => .expr range x
  | decl d => d.stmt range
  | assign token targets sources => .assign range (token ≠ "=" && token ≠ ":=") targets sources
  | incDec x => .incDec range x
  | ret results => .ret range results
  | branch keyword label => .branch range keyword label
  | labeled label stmt => .labeled range label stmt
  | conditional init cond body alternative => .conditional range init cond body alternative
  | forLoop init cond post body => .forLoop range init cond post body
  | rangeLoop token key value ranged body => .rangeLoop range token.isSome key value ranged body
  | switch init tag clauses => .switch range init tag clauses
  | typeSwitch init guard clauses => .switch range init guard.guarded clauses
  | select clauses => .switch range .empty [] clauses
  | caseClause values body => .clause range values.isNone (values.getD []) .empty body
  | commClause comm body => .clause range comm.isNone [] (comm.getD .empty) body
  | goCall call | deferCall call => .other range call
  | send channel value => .other range (channel ++ value)
  | bad => .other range []

def Expr.funcType (range : Span) (typeParams params results : Option (List Expr)) : Expr :=
  .other range (([typeParams, params, results].filterMap id).map .fields)

end Extraction.GoCode
