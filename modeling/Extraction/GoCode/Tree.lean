import Extraction.GoCode.Syntax
import Extraction.Syntax.Walk

/-!
# Syntax trees of Go files

A Go file as a syntax tree whose offsets are those of the file.  Go has no checked exceptions, so
calls raise no types; a call of `panic` as a statement is a throw.  Every declared variable is
initialised, if only with the zero value of its type.
-/

namespace Extraction

namespace SyntaxTree

def numberFrom (id : Nat) : SyntaxTree → SyntaxTree
  | .nil => .nil
  | .cons n children rest =>
    .cons { n with id } (numberFrom (id + 1) children) (numberFrom (id + 1 + children.size) rest)

def single (range : Span) (payload : Payload) (children : SyntaxTree) : SyntaxTree :=
  .cons { payload with id := 0, start := range.start, stop := range.stop } children .nil

end SyntaxTree

namespace GoCode

structure Scope where
  vars : Array Variable
  params : List Nat := []
  results : List Ident := []

namespace Scope

def enter (s : Scope) (sig : Signature) : Scope :=
  { s with params := sig.names.filterMap (·.var) ++ s.params, results := sig.namedResults }

def kindOf (s : Scope) (index : Nat) (v : Variable) : BindingKind :=
  if v.isField then .field
  else if v.isGlobal then .global
  else if index ∈ s.params then .parameter
  else if v.pos < 0 then .global
  else .localVar

/-- The variable that a name denotes; the blank name denotes none. -/
def binding? (s : Scope) (id : Ident) : Option Binding := do
  if id.name = "_" then none
  else
    let index ← id.var
    let v ← s.vars[index]?
    return { key := index, name := v.name, kind := s.kindOf index v, pos := v.pos,
             type := some (.written v.type v.relativeType) }

def nameNode (s : Scope) (role : Role) (id : Ident) : SyntaxTree :=
  .single id.range { kind := .name, role, binding := s.binding? id } .nil

/-- The name nodes that a bare return reads, spanning its keyword. -/
def resultReads (s : Scope) (start : Int) : SyntaxTree :=
  .ofTrees (s.results.map fun id =>
    ⟨{ kind := .name, binding := s.binding? id, id := 0, start, stop := start + "return".length },
      .nil⟩)

def declarators (s : Scope) (names : List Ident) : SyntaxTree :=
  .ofTrees (names.map fun id =>
    ⟨{ kind := .declarator, initialized := true, binding := s.binding? id, id := 0,
       start := id.range.start, stop := id.range.stop }, .nil⟩)

/-- Storing into a field or element that a variable holds directly also writes the variable, which
is then a target of its own. -/
def storeTarget (s : Scope) (role : Role) (e : Expr) : SyntaxTree :=
  match e with
  | .ident _ => .nil
  | _ =>
    match e.storedIn? with
    | some root => if (s.binding? root).isSome then s.nameNode role root else .nil
    | none => .nil

end Scope

def branchKind (keyword : String) : Kind :=
  match keyword with
  | "break" => .breakStmt
  | "continue" => .continueStmt
  | "goto" => .gotoStmt
  | "fallthrough" => .fallthroughStmt
  | _ => .invalid

/-- From the start of the key to the end of the value, or of the key if there is no value. -/
def storeRange (key value : List Expr) : Span :=
  ⟨(key.head?.map (·.range.start)).getD 0, ((key ++ value).getLast?.map (·.range.stop)).getD 0⟩

mutual

def ofExpr (s : Scope) (role : Role) : Expr → SyntaxTree
  | .ident id => s.nameNode role id
  | .funcLit range sig body =>
    .single range { kind := .lambda, role, void := sig.isVoid } (ofStmt (s.enter sig) .body body)
  | .call range callee args text =>
    .single range { kind := .call, role, text }
      (ofExpr s .unspecified callee ++ ofExprs s .unspecified args)
  | .selector range operand _ =>
    .single range { kind := .otherExpr, role } (ofExpr s .unspecified operand)
  | .paren range inner => .single range { kind := .otherExpr, role } (ofExpr s .unspecified inner)
  | .index range operand indices _ =>
    .single range { kind := .otherExpr, role }
      (ofExpr s .unspecified operand ++ ofExprs s .unspecified indices)
  | .other range parts => .single range { kind := .otherExpr, role } (ofExprs s .unspecified parts)
  | .fields _ => .nil

def ofExprs (s : Scope) (role : Role) : List Expr → SyntaxTree
  | [] => .nil
  | e :: rest => ofExpr s role e ++ ofExprs s role rest

def ofArguments (s : Scope) : Expr → SyntaxTree
  | .call _ _ args _ => ofExprs s .unspecified args
  | _ => .nil

def ofTargets (s : Scope) (role : Role) : List Expr → SyntaxTree
  | [] => .nil
  | e :: rest => ofExpr s role e ++ s.storeTarget role e ++ ofTargets s role rest

def ofStmt (s : Scope) (role : Role) : Stmt → SyntaxTree
  | .empty => .nil
  | .block range stmts => .single range { kind := .block, role } (ofStmts s stmts)
  | .expr range x =>
    if x.isPanic then .single range { kind := .throwStmt, role } (ofArguments s x)
    else .single range { kind := .exprStmt, role } (ofExpr s .unspecified x)
  | .varDecl range specs => .single range { kind := .localDecl, role } (ofStmts s specs)
  | .varSpec names values => s.declarators names ++ ofExprs s .value values
  | .typeDecl range => .single range { kind := .typeDecl, role } .nil
  | .assign range compound targets sources =>
    .single range { kind := .assign, role, compound }
      (ofTargets s .target targets ++ ofExprs s .source sources)
  | .incDec range x =>
    .single range { kind := .incDec, role }
      (ofExpr s .unspecified x ++ s.storeTarget .unspecified x)
  | .ret range results =>
    .single range { kind := .returnStmt, role, hasValue := !results.isEmpty || !s.results.isEmpty }
      (ofExprs s .unspecified results ++ if results.isEmpty
      then s.resultReads range.start else .nil)
  | .branch range keyword label => .single range { kind := branchKind keyword, role, label } .nil
  | .labeled range label stmt =>
    .single range { kind := .labeled, role, label } (ofStmt s .unspecified stmt)
  | .conditional range init cond body alternative =>
    .single range { kind := .ifStmt, role }
      (ofStmt s .init init ++ ofExprs s .cond cond ++ ofStmt s .thenBranch body ++
        ofStmt s .elseBranch alternative)
  | .forLoop range init cond post body =>
    .single range { kind := .loop, role }
      (ofStmt s .init init ++ ofExprs s .cond cond ++ ofStmt s .post post ++ ofStmt s .body body)
  | .rangeLoop range assigns key value ranged body =>
    .single range { kind := .loop, role }
      ((if assigns && !key.isEmpty then
          .single (storeRange key value) { kind := .assign, role := .init }
            (ofTargets s .target key ++ ofTargets s .target value)
        else .nil) ++
        ofExprs s .cond ranged ++ ofStmt s .body body)
  | .switch range init tag clauses =>
    .single range { kind := .switch, role }
      (ofStmt s .init init ++ ofExprs s .cond tag ++ ofStmts s clauses)
  | .clause range isDefault values comm body =>
    .single range { kind := .caseClause, role, isDefault }
      (ofExprs s .cond values ++ ofStmt s .init comm ++ ofStmts s body)
  | .other range operands =>
    .single range { kind := .otherStmt, role } (ofExprs s .unspecified operands)

def ofStmts (s : Scope) : List Stmt → SyntaxTree
  | [] => .nil
  | stmt :: rest => ofStmt s .unspecified stmt ++ ofStmts s rest

end

mutual

/-- The outermost function literals of an expression, each a scope of its own. -/
def ofLiterals (s : Scope) : Expr → SyntaxTree
  | .funcLit range sig body => ofExpr s .unspecified (.funcLit range sig body)
  | .ident _ => .nil
  | .call _ callee args _ => ofLiterals s callee ++ ofAllLiterals s args
  | .selector _ operand _ => ofLiterals s operand
  | .paren _ inner => ofLiterals s inner
  | .index _ operand indices _ => ofLiterals s operand ++ ofAllLiterals s indices
  | .other _ parts => ofAllLiterals s parts
  | .fields parts => ofAllLiterals s parts

def ofAllLiterals (s : Scope) : List Expr → SyntaxTree
  | [] => .nil
  | e :: rest => ofLiterals s e ++ ofAllLiterals s rest

end

def ofDecl (s : Scope) : Decl → SyntaxTree
  | .func range name sig body =>
    .single range { kind := .method, void := sig.isVoid, text := name }
      (ofStmt (s.enter sig) .body body)
  | .type range => .single range { kind := .typeDecl } .nil
  | .vars parts => ofAllLiterals s parts
  | .other => .nil

def ofDecls (s : Scope) : List Decl → SyntaxTree
  | [] => .nil
  | d :: rest => ofDecl s d ++ ofDecls s rest

def File.tree (f : File) : SyntaxTree :=
  (SyntaxTree.single ⟨f.start, f.size⟩ { kind := .file }
    (ofDecls { vars := f.vars } f.decls)).numberFrom 0

end GoCode

end Extraction
