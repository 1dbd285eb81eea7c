/-!
# Kinds and roles of syntax nodes

The kinds are those of statements and expressions in method bodies of an imperative language.  A
kind or role may also be given by its number; a number outside the list is kept and means nothing to
the analysis.
-/

namespace Extraction

inductive Kind where
  | invalid
  | file
  | method
  | typeDecl
  | lambda
  | block
  | exprStmt
  | localDecl
  | declarator
  | assign
  | incDec
  | returnStmt
  | breakStmt
  | continueStmt
  | gotoStmt
  | fallthroughStmt
  | ifStmt
  /-- A loop that tests before its body, if at all. -/
  | loop
  /-- A loop that tests after its body. -/
  | doWhile
  | labeled
  | switch
  | caseClause
  | tryStmt
  | catchClause
  | finallyClause
  | throwStmt
  | otherStmt
  | name
  | call
  | otherExpr
  | unknown (code : Int)
deriving DecidableEq, Repr

namespace Kind

/-- The kinds with a name, in the order of their numbers. -/
def all : List Kind :=
  [invalid, file, method, typeDecl, lambda, block, exprStmt, localDecl, declarator, assign, incDec,
    returnStmt, breakStmt, continueStmt, gotoStmt, fallthroughStmt, ifStmt, loop, doWhile, labeled,
    switch, caseClause, tryStmt, catchClause, finallyClause, throwStmt, otherStmt, name,
      call, otherExpr]

def ofCode (code : Int) : Kind :=
  if code < 0 then unknown code else (all[code.toNat]?).getD (unknown code)

def describe : Kind → String
  | invalid => "Invalid"
  | file => "File"
  | method => "Method"
  | typeDecl => "TypeDecl"
  | lambda => "Lambda"
  | block => "Block"
  | exprStmt => "ExprStmt"
  | localDecl => "LocalDecl"
  | declarator => "Declarator"
  | assign => "Assign"
  | incDec => "IncDec"
  | returnStmt => "Return"
  | breakStmt => "Break"
  | continueStmt => "Continue"
  | gotoStmt => "Goto"
  | fallthroughStmt => "Fallthrough"
  | ifStmt => "If"
  | loop => "Loop"
  | doWhile => "DoWhile"
  | labeled => "Labeled"
  | switch => "Switch"
  | caseClause => "Case"
  | tryStmt => "Try"
  | catchClause => "Catch"
  | finallyClause => "Finally"
  | throwStmt => "Throw"
  | otherStmt => "Stmt"
  | name => "Name"
  | call => "Call"
  | otherExpr => "Expr"
  | unknown code => s!"Kind({code})"

def ofName? (text : String) : Option Kind :=
  all.find? fun k => k.describe == text

/-- Statements and the clauses of statements. -/
def isStatement : Kind → Bool
  | block | exprStmt | localDecl | declarator | assign | incDec | returnStmt | breakStmt | continueStmt
  | gotoStmt | fallthroughStmt | ifStmt | loop | doWhile | labeled | switch | caseClause | tryStmt
  | catchClause | finallyClause | throwStmt | otherStmt => true
  | _ => false

def isExpression : Kind → Bool
  | name | call | otherExpr | lambda => true
  | _ => false

/-- Statements that transfer control to a label or an enclosing statement. -/
def isBranch : Kind → Bool
  | breakStmt | continueStmt | gotoStmt | fallthroughStmt => true
  | _ => false

/-- Kinds that have a body of their own, run at another time. -/
def isScope : Kind → Bool
  | method | lambda | typeDecl => true
  | _ => false

/-- Kinds whose body may hold a selection. -/
def isFunction : Kind → Bool
  | method | lambda => true
  | _ => false

def isLoop : Kind → Bool
  | loop | doWhile => true
  | _ => false

end Kind

inductive Role where
  | unspecified
  | init
  /-- A condition, or the tag of a switch. -/
  | cond
  | thenBranch
  | elseBranch
  /-- What a loop runs after its body. -/
  | post
  | body
  | target
  | source
  | value
  | unknown (code : Int)
deriving DecidableEq, Repr

namespace Role

def all : List Role :=
  [unspecified, init, cond, thenBranch, elseBranch, post, body, target, source, value]

def ofCode (code : Int) : Role :=
  if code < 0 then unknown code else (all[code.toNat]?).getD (unknown code)

def code : Role → Int
  | unspecified => 0
  | init => 1
  | cond => 2
  | thenBranch => 3
  | elseBranch => 4
  | post => 5
  | body => 6
  | target => 7
  | source => 8
  | value => 9
  | unknown code => code

end Role

end Extraction
