import Extraction.Proofs.SourceOrder

/-!
# Building the tree of a file

The tree of a file can be built in one pass, in which every node is numbered when it is added and a
stack holds the named results of the functions around.  The pass never meets a return statement
outside all functions, and the tree it builds is the tree of the file.
-/

namespace Extraction

namespace GoCode

/-- How many nodes were added, and the named results of the functions that were entered and not
left, innermost first. -/
structure Workbench where
  count : Nat := 0
  frames : List (List Ident) := []

/-- A step of the pass.  It has no result if it needs the innermost function and there is none. -/
abbrev Builder := StateT Workbench Option

namespace Builder

def leaves (f : SyntaxTree) : Builder SyntaxTree := do
  let id := (← get).count
  modify fun w => { w with count := w.count + f.size }
  return f.numberFrom id

def node (range : Span) (payload : Payload) (children : Builder SyntaxTree) :
    Builder SyntaxTree := do
  let id := (← get).count
  modify fun w => { w with count := w.count + 1 }
  return .cons { payload with id, start := range.start, stop := range.stop } (← children) .nil

def both (first second : Builder SyntaxTree) : Builder SyntaxTree := do
  let f ← first
  let g ← second
  return f ++ g

def results : Builder (List Ident) := do
  match (← get).frames with
  | [] => failure
  | named :: _ => return named

def pop : Builder Unit := do
  match (← get).frames with
  | [] => failure
  | _ :: frames => modify fun w => { w with frames }

def inFunction (sig : Signature) (body : Builder SyntaxTree) : Builder SyntaxTree := do
  modify fun w => { w with frames := sig.namedResults :: w.frames }
  let f ← body
  pop
  return f

end Builder

open Builder

mutual

def buildExpr (s : Scope) (role : Role) : Expr → Builder SyntaxTree
  | .ident id => leaves (s.nameNode role id)
  | .funcLit range sig body =>
    inFunction sig (node range { kind := .lambda, role, void := sig.isVoid }
      (buildStmt (s.enter sig) .body body))
  | .call range callee args text =>
    node range { kind := .call, role, text }
      ((buildExpr s .unspecified callee).both (buildExprs s .unspecified args))
  | .selector range operand _ =>
    node range { kind := .otherExpr, role } (buildExpr s .unspecified operand)
  | .paren range inner => node range { kind := .otherExpr, role } (buildExpr s .unspecified inner)
  | .index range operand indices _ =>
    node range { kind := .otherExpr, role }
      ((buildExpr s .unspecified operand).both (buildExprs s .unspecified indices))
  | .other range parts => node range { kind := .otherExpr, role } (buildExprs s .unspecified parts)
  | .fields _ => leaves .nil

def buildExprs (s : Scope) (role : Role) : List Expr → Builder SyntaxTree
  | [] => leaves .nil
  | e :: rest => (buildExpr s role e).both (buildExprs s role rest)

def buildArguments (s : Scope) : Expr → Builder SyntaxTree
  | .call _ _ args _ => buildExprs s .unspecified args
  | _ => leaves .nil

def buildTargets (s : Scope) (role : Role) : List Expr → Builder SyntaxTree
  | [] => leaves .nil
  | e :: rest =>
    ((buildExpr s role e).both (leaves (s.storeTarget role e))).both (buildTargets s role rest)

def buildStmt (s : Scope) (role : Role) : Stmt → Builder SyntaxTree
  | .empty => leaves .nil
  | .block range stmts => node range { kind := .block, role } (buildStmts s stmts)
  | .expr range x =>
    if x.isPanic then node range { kind := .throwStmt, role } (buildArguments s x)
    else node range { kind := .exprStmt, role } (buildExpr s .unspecified x)
  | .varDecl range specs => node range { kind := .localDecl, role } (buildStmts s specs)
  | .varSpec names values => (leaves (s.declarators names)).both (buildExprs s .value values)
  | .typeDecl range => node range { kind := .typeDecl, role } (leaves .nil)
  | .assign range compound targets sources =>
    node range { kind := .assign, role, compound }
      ((buildTargets s .target targets).both (buildExprs s .source sources))
  | .incDec range x =>
    node range { kind := .incDec, role }
      ((buildExpr s .unspecified x).both (leaves (s.storeTarget .unspecified x)))
  | .ret range values => do
    let named ← results
    node range { kind := .returnStmt, role, hasValue := !values.isEmpty || !named.isEmpty }
      ((buildExprs s .unspecified values).both
        (leaves (if values.isEmpty then { s with results := named }.resultReads range.start
        else .nil)))
  | .branch range keyword label =>
    node range { kind := branchKind keyword, role, label } (leaves .nil)
  | .labeled range label stmt =>
    node range { kind := .labeled, role, label } (buildStmt s .unspecified stmt)
  | .conditional range init cond body alternative =>
    node range { kind := .ifStmt, role }
      ((((buildStmt s .init init).both (buildExprs s .cond cond)).both
        (buildStmt s .thenBranch body)).both (buildStmt s .elseBranch alternative))
  | .forLoop range init cond post body =>
    node range { kind := .loop, role }
      ((((buildStmt s .init init).both (buildExprs s .cond cond)).both
        (buildStmt s .post post)).both (buildStmt s .body body))
  | .rangeLoop range assigns key value ranged body =>
    node range { kind := .loop, role }
      (((if assigns && !key.isEmpty then
            node (storeRange key value) { kind := .assign, role := .init }
              ((buildTargets s .target key).both (buildTargets s .target value))
          else leaves .nil).both
        (buildExprs s .cond ranged)).both (buildStmt s .body body))
  | .switch range init tag clauses =>
    node range { kind := .switch, role }
      (((buildStmt s .init init).both (buildExprs s .cond tag)).both (buildStmts s clauses))
  | .clause range isDefault values comm body =>
    node range { kind := .caseClause, role, isDefault }
      (((buildExprs s .cond values).both (buildStmt s .init comm)).both (buildStmts s body))
  | .other range operands =>
    node range { kind := .otherStmt, role } (buildExprs s .unspecified operands)

def buildStmts (s : Scope) : List Stmt → Builder SyntaxTree
  | [] => leaves .nil
  | stmt :: rest => (buildStmt s .unspecified stmt).both (buildStmts s rest)

end

mutual

def buildLiterals (s : Scope) : Expr → Builder SyntaxTree
  | .funcLit range sig body => buildExpr s .unspecified (.funcLit range sig body)
  | .ident _ => leaves .nil
  | .call _ callee args _ => (buildLiterals s callee).both (buildAllLiterals s args)
  | .selector _ operand _ => buildLiterals s operand
  | .paren _ inner => buildLiterals s inner
  | .index _ operand indices _ => (buildLiterals s operand).both (buildAllLiterals s indices)
  | .other _ parts => buildAllLiterals s parts
  | .fields parts => buildAllLiterals s parts

def buildAllLiterals (s : Scope) : List Expr → Builder SyntaxTree
  | [] => leaves .nil
  | e :: rest => (buildLiterals s e).both (buildAllLiterals s rest)

end

def buildDecl (s : Scope) : Decl → Builder SyntaxTree
  | .func range name sig body =>
    inFunction sig
      (node range { kind := .method, void := sig.isVoid, text := name }
      (buildStmt (s.enter sig) .body body))
  | .type range => node range { kind := .typeDecl } (leaves .nil)
  | .vars parts => buildAllLiterals s parts
  | .other => leaves .nil

def buildDecls (s : Scope) : List Decl → Builder SyntaxTree
  | [] => leaves .nil
  | d :: rest => (buildDecl s d).both (buildDecls s rest)

/-- The tree that one pass over the file builds. -/
def File.build (f : File) : Option SyntaxTree :=
  (node ⟨f.start, f.size⟩ { kind := .file } (buildDecls { vars := f.vars } f.decls)).run' {}

/-- Below the given functions the step builds `t` and leaves the stack as it was. -/
def Builds (frames : List (List Ident)) (b : Builder SyntaxTree) (t : SyntaxTree) : Prop :=
  ∀ count, b.run ⟨count, frames⟩ = some (t.numberFrom count, ⟨count + t.size, frames⟩)

variable {frames : List (List Ident)}

theorem builds_leaves (f : SyntaxTree) : Builds frames (leaves f) f :=
  fun _ => rfl

theorem Builds.both {a b : Builder SyntaxTree} {f g : SyntaxTree} (ha : Builds frames a f)
    (hb : Builds frames b g) :
    Builds frames (a.both b) (f ++ g) := by
  intro count
  rw [SyntaxTree.numberFrom_append, Forest.size_append, ← Nat.add_assoc]
  simp only [Builder.both, StateT.run_bind, ha count, hb (count + f.size), Option.bind_eq_bind,
    Option.bind_some]
  rfl

theorem Builds.node {b : Builder SyntaxTree} {f : SyntaxTree} (range : Span) (payload : Payload)
    (hb : Builds frames b f) : Builds frames (node range payload b) (.single range payload f) := by
  intro count
  have hsize : count + (SyntaxTree.single range payload f).size = count + 1 + f.size := by
    simp only [SyntaxTree.single, Forest.size]
    omega
  rw [hsize]
  simp only [Builder.node, StateT.run_bind, StateT.run_get, StateT.run_modify, hb (count + 1),
    Option.bind_eq_bind, Option.bind_some, Option.pure_def]
  rfl

theorem Builds.inFunction {b : Builder SyntaxTree} {f : SyntaxTree} {sig : Signature}
    (hb : Builds (sig.namedResults :: frames) b f) : Builds frames (inFunction sig b) f := by
  intro count
  simp only [Builder.inFunction, StateT.run_bind, StateT.run_modify, hb count, Option.bind_eq_bind,
    Option.bind_some, Option.pure_def]
  rfl

theorem Builds.results {k : List Ident → Builder SyntaxTree} {f : SyntaxTree} {named : List Ident}
    (hk : Builds (named :: frames) (k named) f) : Builds (named :: frames) (results >>= k) f :=
  fun count => hk count

mutual

theorem builds_expr (s : Scope) (role : Role) (frames : List (List Ident)) (e : Expr) :
    Builds (s.results :: frames) (buildExpr s role e) (ofExpr s role e) := by
  cases e with
  | ident id => exact builds_leaves _
  | funcLit range sig body =>
    exact (builds_stmt (s.enter sig) .body _ body).node range _ |>.inFunction
  | call range callee args text =>
    exact ((builds_expr s _ frames callee).both (builds_exprs s _ frames args)).node range _
  | selector range operand selection => exact (builds_expr s _ frames operand).node range _
  | paren range inner => exact (builds_expr s _ frames inner).node range _
  | index range operand indices array =>
    exact ((builds_expr s _ frames operand).both (builds_exprs s _ frames indices)).node range _
  | other range parts => exact (builds_exprs s _ frames parts).node range _
  | fields parts => exact builds_leaves _

theorem builds_exprs (s : Scope) (role : Role) (frames : List (List Ident)) (es : List Expr) :
    Builds (s.results :: frames) (buildExprs s role es) (ofExprs s role es) := by
  cases es with
  | nil => exact builds_leaves _
  | cons e rest => exact (builds_expr s role frames e).both (builds_exprs s role frames rest)

theorem builds_targets (s : Scope) (role : Role) (frames : List (List Ident)) (es : List Expr) :
    Builds (s.results :: frames) (buildTargets s role es) (ofTargets s role es) := by
  cases es with
  | nil => exact builds_leaves _
  | cons e rest =>
    exact ((builds_expr s role frames e).both (builds_leaves _)).both
      (builds_targets s role frames rest)

theorem builds_stmt (s : Scope) (role : Role) (frames : List (List Ident)) (stmt : Stmt) :
    Builds (s.results :: frames) (buildStmt s role stmt) (ofStmt s role stmt) := by
  cases stmt with
  | empty => exact builds_leaves _
  | block range stmts => exact (builds_stmts s frames stmts).node range _
  | expr range x =>
    rw [buildStmt, ofStmt]
    split
    next hpanic =>
      cases x with
      | call calls callee args text => exact (builds_exprs s _ frames args).node range _
      | _ => cases hpanic
    next => exact (builds_expr s _ frames x).node range _
  | varDecl range specs => exact (builds_stmts s frames specs).node range _
  | varSpec names values => exact (builds_leaves _).both (builds_exprs s _ frames values)
  | typeDecl range => exact (builds_leaves _).node range _
  | assign range compound targets sources =>
    exact ((builds_targets s _ frames targets).both (builds_exprs s _ frames sources)).node range _
  | incDec range x => exact ((builds_expr s _ frames x).both (builds_leaves _)).node range _
  | ret range values =>
    exact (((builds_exprs s _ frames values).both (builds_leaves _)).node range _).results
  | branch range keyword label => exact (builds_leaves _).node range _
  | labeled range label stmt => exact (builds_stmt s _ frames stmt).node range _
  | conditional range init cond body alternative =>
    exact ((((builds_stmt s _ frames init).both (builds_exprs s _ frames cond)).both
      (builds_stmt s _ frames body)).both (builds_stmt s _ frames alternative)).node range _
  | forLoop range init cond post body =>
    exact ((((builds_stmt s _ frames init).both (builds_exprs s _ frames cond)).both
      (builds_stmt s _ frames post)).both (builds_stmt s _ frames body)).node range _
  | rangeLoop range assigns key value ranged body =>
    refine ((Builds.both ?_ (builds_exprs s _ frames ranged)).both
      (builds_stmt s _ frames body)).node range _
    split
    · exact ((builds_targets s _ frames key).both (builds_targets s _ frames value)).node _ _
    · exact builds_leaves _
  | switch range init tag clauses =>
    exact (((builds_stmt s _ frames init).both (builds_exprs s _ frames tag)).both
      (builds_stmts s frames clauses)).node range _
  | clause range isDefault values comm body =>
    exact (((builds_exprs s _ frames values).both (builds_stmt s _ frames comm)).both
      (builds_stmts s frames body)).node range _
  | other range operands => exact (builds_exprs s _ frames operands).node range _

theorem builds_stmts (s : Scope) (frames : List (List Ident)) (stmts : List Stmt) :
    Builds (s.results :: frames) (buildStmts s stmts) (ofStmts s stmts) := by
  cases stmts with
  | nil => exact builds_leaves _
  | cons stmt rest => exact (builds_stmt s _ frames stmt).both (builds_stmts s frames rest)

end

mutual

/-- Outside all functions, only function literals are translated. -/
theorem builds_literals (s : Scope) (frames : List (List Ident)) (e : Expr) :
    Builds frames (buildLiterals s e) (ofLiterals s e) := by
  cases e with
  | ident id => exact builds_leaves _
  | funcLit range sig body =>
    exact (builds_stmt (s.enter sig) .body frames body).node range _ |>.inFunction
  | call range callee args text =>
    exact (builds_literals s frames callee).both (builds_allLiterals s frames args)
  | selector range operand selection => exact builds_literals s frames operand
  | paren range inner => exact builds_literals s frames inner
  | index range operand indices array =>
    exact (builds_literals s frames operand).both (builds_allLiterals s frames indices)
  | other range parts => exact builds_allLiterals s frames parts
  | fields parts => exact builds_allLiterals s frames parts

theorem builds_allLiterals (s : Scope) (frames : List (List Ident)) (es : List Expr) :
    Builds frames (buildAllLiterals s es) (ofAllLiterals s es) := by
  cases es with
  | nil => exact builds_leaves _
  | cons e rest => exact (builds_literals s frames e).both (builds_allLiterals s frames rest)

end

theorem builds_decl (s : Scope) (d : Decl) : Builds [] (buildDecl s d) (ofDecl s d) := by
  cases d with
  | func range name sig body =>
    exact (builds_stmt (s.enter sig) .body [] body).node range _ |>.inFunction
  | type range => exact (builds_leaves _).node range _
  | vars parts => exact builds_allLiterals s [] parts
  | other => exact builds_leaves _

theorem builds_decls (s : Scope) (ds : List Decl) : Builds [] (buildDecls s ds) (ofDecls s ds) := by
  induction ds with
  | nil => exact builds_leaves _
  | cons d rest ih => exact (builds_decl s d).both ih

theorem File.build_eq (f : File) : f.build = some f.tree := by
  have hbuilds := (builds_decls { vars := f.vars } f.decls).node ⟨f.start, f.size⟩
    { kind := .file } 0
  rw [File.build, StateT.run'_eq, hbuilds]
  rfl

end GoCode

end Extraction
