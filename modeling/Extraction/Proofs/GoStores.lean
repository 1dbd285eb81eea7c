import Extraction.Proofs.AccessOrder
import Extraction.Proofs.GoTrees

/-!
# Stores of Go code

An assignment reads its sources before it writes its targets.  A variable specification and a loop
over a range do it the other way round: their targets stand before the values in the tree, and are
written when they are left.  So a value that is ranged over and assigned by the same loop is taken
to be overwritten before it is read.
-/

namespace Extraction.GoCode

open SyntaxTree

mutual

/-- The statements within an expression.  A list of fields is not translated. -/
def Expr.statements : Expr → List Stmt
  | .ident _ | .fields _ => []
  | .funcLit _ _ body => body.statements
  | .call _ callee args _ => callee.statements ++ Expr.allStatements args
  | .selector _ operand _ => operand.statements
  | .paren _ inner => inner.statements
  | .index _ operand indices _ => operand.statements ++ Expr.allStatements indices
  | .other _ parts => Expr.allStatements parts

def Expr.allStatements : List Expr → List Stmt
  | [] => []
  | e :: rest => e.statements ++ Expr.allStatements rest

def Stmt.statements : Stmt → List Stmt
  | .empty => [.empty]
  | .block range stmts => .block range stmts :: Stmt.allStatements stmts
  | .expr range x => .expr range x :: x.statements
  | .varDecl range specs => .varDecl range specs :: Stmt.allStatements specs
  | .varSpec names values => .varSpec names values :: Expr.allStatements values
  | .typeDecl range => [.typeDecl range]
  | .assign range compound targets sources =>
    .assign range compound targets sources ::
      (Expr.allStatements targets ++ Expr.allStatements sources)
  | .incDec range x => .incDec range x :: x.statements
  | .ret range results => .ret range results :: Expr.allStatements results
  | .branch range keyword label => [.branch range keyword label]
  | .labeled range label stmt => .labeled range label stmt :: stmt.statements
  | .conditional range init cond body alternative =>
    .conditional range init cond body alternative ::
      (init.statements ++ Expr.allStatements cond ++ body.statements ++ alternative.statements)
  | .forLoop range init cond post body =>
    .forLoop range init cond post body ::
      (init.statements ++ Expr.allStatements cond ++ post.statements ++ body.statements)
  | .rangeLoop range assigns key value ranged body =>
    .rangeLoop range assigns key value ranged body ::
      ((if assigns && !key.isEmpty then Expr.allStatements key ++ Expr.allStatements value
        else []) ++ Expr.allStatements ranged ++ body.statements)
  | .switch range init tag clauses =>
    .switch range init tag clauses ::
      (init.statements ++ Expr.allStatements tag ++ Stmt.allStatements clauses)
  | .clause range isDefault values comm body =>
    .clause range isDefault values comm body ::
      (Expr.allStatements values ++ comm.statements ++ Stmt.allStatements body)
  | .other range operands => .other range operands :: Expr.allStatements operands

def Stmt.allStatements : List Stmt → List Stmt
  | [] => []
  | stmt :: rest => stmt.statements ++ Stmt.allStatements rest

end

mutual

def Expr.literalStatements : Expr → List Stmt
  | .ident _ => []
  | .funcLit _ _ body => body.statements
  | .call _ callee args _ => callee.literalStatements ++ Expr.allLiteralStatements args
  | .selector _ operand _ => operand.literalStatements
  | .paren _ inner => inner.literalStatements
  | .index _ operand indices _ => operand.literalStatements ++ Expr.allLiteralStatements indices
  | .other _ parts | .fields parts => Expr.allLiteralStatements parts

def Expr.allLiteralStatements : List Expr → List Stmt
  | [] => []
  | e :: rest => e.literalStatements ++ Expr.allLiteralStatements rest

end

def Decl.statements : Decl → List Stmt
  | .func _ _ _ body => body.statements
  | .vars parts => Expr.allLiteralStatements parts
  | .type _ | .other => []

def File.statements (f : File) : List Stmt :=
  f.decls.flatMap Decl.statements

/-- The statement is translated, in some scope and role, into places of the forest, wherever this is
put. -/
def Holds (stmt : Stmt) (f : SyntaxTree) : Prop :=
  ∀ outer first, ∃ path id s role, ∀ p ∈ placesBelow path ((ofStmt s role stmt).numberFrom id),
    p ∈ placesBelow outer (f.numberFrom first)

section Holds

variable {stmt : Stmt} {f g : SyntaxTree}

theorem holds_self (s : Scope) (role : Role) (stmt : Stmt) : Holds stmt (ofStmt s role stmt) :=
  fun outer first => ⟨outer, first, s, role, fun _ hp => hp⟩

theorem Holds.left (h : Holds stmt f) : Holds stmt (f ++ g) := by
  intro outer first
  obtain ⟨path, id, s, role, hplaces⟩ := h outer first
  refine ⟨path, id, s, role, fun p hp => ?_⟩
  rw [numberFrom_append, placesBelow_append]
  exact List.mem_append_left _ (hplaces p hp)

theorem Holds.right (h : Holds stmt g) : Holds stmt (f ++ g) := by
  intro outer first
  obtain ⟨path, id, s, role, hplaces⟩ := h outer (first + f.size)
  refine ⟨path, id, s, role, fun p hp => ?_⟩
  rw [numberFrom_append, placesBelow_append]
  exact List.mem_append_right _ (hplaces p hp)

theorem Holds.single (h : Holds stmt f) {range : Span} {payload : Payload} :
    Holds stmt (.single range payload f) := by
  intro outer first
  obtain ⟨path, id, s, role, hplaces⟩ :=
    h ({ payload with id := first, start := range.start, stop := range.stop } :: outer) (first + 1)
  refine ⟨path, id, s, role, fun p hp => ?_⟩
  exact List.mem_cons_of_mem _ (List.mem_append_left _ (hplaces p hp))

end Holds

theorem Expr.statements_of_unparen {id : Ident} :
    ∀ {e : Expr}, e.unparen = .ident id → e.statements = []
  | .ident _, _ => rfl
  | .paren _ inner, h => by
    rw [Expr.statements]
    exact Expr.statements_of_unparen (e := inner) (by rwa [Expr.unparen] at h)
  | .funcLit .., h | .call .., h | .selector .., h | .index .., h | .other .., h | .fields .., h => by
    cases h

theorem Expr.statements_callee {range : Span} {callee : Expr} {args : List Expr} {text : String}
    (h : (Expr.call range callee args text).isPanic = true) : callee.statements = [] := by
  simp only [Expr.isPanic] at h
  split at h
  next hid => exact Expr.statements_of_unparen hid
  next => cases h

mutual

theorem holds_ofExpr (s : Scope) (role : Role) (e : Expr) {stmt : Stmt} (h : stmt ∈ e.statements) :
    Holds stmt (ofExpr s role e) := by
  cases e with
  | ident id => cases h
  | funcLit range sig body => exact (holds_ofStmt _ _ body h).single
  | call range callee args text =>
    rcases List.mem_append.mp h with h | h
    · exact (holds_ofExpr s _ callee h).left.single
    · exact (holds_ofExprs s _ args h).right.single
  | selector range operand selection => exact (holds_ofExpr s _ operand h).single
  | paren range inner => exact (holds_ofExpr s _ inner h).single
  | index range operand indices array =>
    rcases List.mem_append.mp h with h | h
    · exact (holds_ofExpr s _ operand h).left.single
    · exact (holds_ofExprs s _ indices h).right.single
  | other range parts => exact (holds_ofExprs s _ parts h).single
  | fields parts => cases h

theorem holds_ofExprs (s : Scope) (role : Role) (es : List Expr) {stmt : Stmt}
    (h : stmt ∈ Expr.allStatements es) :
    Holds stmt (ofExprs s role es) := by
  cases es with
  | nil => cases h
  | cons e rest =>
    rcases List.mem_append.mp h with h | h
    · exact (holds_ofExpr s role e h).left
    · exact (holds_ofExprs s role rest h).right

theorem holds_ofTargets (s : Scope) (role : Role) (es : List Expr) {stmt : Stmt}
    (h : stmt ∈ Expr.allStatements es) :
    Holds stmt (ofTargets s role es) := by
  cases es with
  | nil => cases h
  | cons e rest =>
    rcases List.mem_append.mp h with h | h
    · exact (holds_ofExpr s role e h).left.left
    · exact (holds_ofTargets s role rest h).right

theorem holds_ofStmt (s : Scope) (role : Role) (st : Stmt) {stmt : Stmt}
    (h : stmt ∈ st.statements) :
    Holds stmt (ofStmt s role st) := by
  -- a statement stands for itself; the other members are those of its parts
  rcases eq_or_ne stmt st with rfl | hne
  · exact holds_self s role stmt
  cases st with
  | empty | typeDecl range | branch range keyword label =>
    exact absurd (List.mem_singleton.mp h) hne
  | block range stmts =>
    exact (holds_ofStmts s stmts (List.mem_of_ne_of_mem hne h)).single
  | expr range x =>
    have h := List.mem_of_ne_of_mem hne h
    rw [ofStmt]
    split
    next hpanic =>
      cases x with
      | call calls callee args text =>
        rw [Expr.statements, Expr.statements_callee hpanic] at h
        exact (holds_ofExprs s _ args h).single
      | _ => cases hpanic
    next => exact (holds_ofExpr s _ x h).single
  | varDecl range specs => exact (holds_ofStmts s specs (List.mem_of_ne_of_mem hne h)).single
  | varSpec names values => exact (holds_ofExprs s _ values (List.mem_of_ne_of_mem hne h)).right
  | assign range compound targets sources =>
    rcases List.mem_append.mp (List.mem_of_ne_of_mem hne h) with h | h
    · exact (holds_ofTargets s _ targets h).left.single
    · exact (holds_ofExprs s _ sources h).right.single
  | incDec range x => exact (holds_ofExpr s _ x (List.mem_of_ne_of_mem hne h)).left.single
  | ret range results => exact (holds_ofExprs s _ results (List.mem_of_ne_of_mem hne h)).left.single
  | labeled range label stmt => exact (holds_ofStmt s _ stmt (List.mem_of_ne_of_mem hne h)).single
  | conditional range init cond body alternative =>
    simp only [Stmt.statements, List.mem_cons, List.mem_append, hne, false_or] at h
    rcases h with ((h | h) | h) | h
    · exact (holds_ofStmt s _ init h).left.left.left.single
    · exact (holds_ofExprs s _ cond h).right.left.left.single
    · exact (holds_ofStmt s _ body h).right.left.single
    · exact (holds_ofStmt s _ alternative h).right.single
  | forLoop range init cond post body =>
    simp only [Stmt.statements, List.mem_cons, List.mem_append, hne, false_or] at h
    rcases h with ((h | h) | h) | h
    · exact (holds_ofStmt s _ init h).left.left.left.single
    · exact (holds_ofExprs s _ cond h).right.left.left.single
    · exact (holds_ofStmt s _ post h).right.left.single
    · exact (holds_ofStmt s _ body h).right.single
  | rangeLoop range assigns key value ranged body =>
    simp only [Stmt.statements, List.mem_cons, List.mem_append, hne, false_or] at h
    rw [ofStmt]
    rcases h with (h | h) | h
    · split at h
      next hassigns =>
        rw [if_pos hassigns]
        rcases List.mem_append.mp h with h | h
        · exact (holds_ofTargets s _ key h).left.single.left.left.single
        · exact (holds_ofTargets s _ value h).right.single.left.left.single
      next => cases h
    · exact (holds_ofExprs s _ ranged h).right.left.single
    · exact (holds_ofStmt s _ body h).right.single
  | switch range init tag clauses =>
    simp only [Stmt.statements, List.mem_cons, List.mem_append, hne, false_or] at h
    rcases h with (h | h) | h
    · exact (holds_ofStmt s _ init h).left.left.single
    · exact (holds_ofExprs s _ tag h).right.left.single
    · exact (holds_ofStmts s clauses h).right.single
  | clause range isDefault values comm body =>
    simp only [Stmt.statements, List.mem_cons, List.mem_append, hne, false_or] at h
    rcases h with (h | h) | h
    · exact (holds_ofExprs s _ values h).left.left.single
    · exact (holds_ofStmt s _ comm h).right.left.single
    · exact (holds_ofStmts s body h).right.single
  | other range operands => exact (holds_ofExprs s _ operands (List.mem_of_ne_of_mem hne h)).single

theorem holds_ofStmts (s : Scope) (stmts : List Stmt) {stmt : Stmt}
    (h : stmt ∈ Stmt.allStatements stmts) :
    Holds stmt (ofStmts s stmts) := by
  cases stmts with
  | nil => cases h
  | cons st rest =>
    rcases List.mem_append.mp h with h | h
    · exact (holds_ofStmt s _ st h).left
    · exact (holds_ofStmts s rest h).right

end

mutual

theorem holds_ofLiterals (s : Scope) (e : Expr) {stmt : Stmt} (h : stmt ∈ e.literalStatements) :
    Holds stmt (ofLiterals s e) := by
  cases e with
  | ident id => cases h
  | funcLit range sig body => exact (holds_ofStmt _ _ body h).single
  | call range callee args text =>
    rcases List.mem_append.mp h with h | h
    · exact (holds_ofLiterals s callee h).left
    · exact (holds_ofAllLiterals s args h).right
  | selector range operand selection => exact holds_ofLiterals s operand h
  | paren range inner => exact holds_ofLiterals s inner h
  | index range operand indices array =>
    rcases List.mem_append.mp h with h | h
    · exact (holds_ofLiterals s operand h).left
    · exact (holds_ofAllLiterals s indices h).right
  | other range parts => exact holds_ofAllLiterals s parts h
  | fields parts => exact holds_ofAllLiterals s parts h

theorem holds_ofAllLiterals (s : Scope) (es : List Expr) {stmt : Stmt}
    (h : stmt ∈ Expr.allLiteralStatements es) :
    Holds stmt (ofAllLiterals s es) := by
  cases es with
  | nil => cases h
  | cons e rest =>
    rcases List.mem_append.mp h with h | h
    · exact (holds_ofLiterals s e h).left
    · exact (holds_ofAllLiterals s rest h).right

end

theorem holds_ofDecls (s : Scope) {ds : List Decl} {stmt : Stmt}
    (h : stmt ∈ ds.flatMap Decl.statements) :
    Holds stmt (ofDecls s ds) := by
  induction ds with
  | nil => cases h
  | cons d rest ih =>
    rw [List.flatMap_cons] at h
    rcases List.mem_append.mp h with h | h
    · cases d with
      | func range name sig body => exact (holds_ofStmt _ _ body h).single.left
      | vars parts => exact (holds_ofAllLiterals s parts h).left
      | type range => cases h
      | other => cases h
    · exact (ih h).right

/-- The statement stands in the file: translated in the scope and role, and numbered from `id` below
the path, it consists of places of the tree. -/
def File.Stands (f : File) (path : List Node) (id : Nat) (s : Scope) (role : Role)
    (stmt : Stmt) : Prop :=
  ∀ p ∈ placesBelow path ((ofStmt s role stmt).numberFrom id), p ∈ f.tree.places

instance (f : File) (path : List Node) (id : Nat) (s : Scope) (role : Role) (stmt : Stmt) :
    Decidable (f.Stands path id s role stmt) :=
  inferInstanceAs (Decidable (∀ p ∈ placesBelow path _, p ∈ _))

theorem File.exists_stands (f : File) {stmt : Stmt} (h : stmt ∈ f.statements) :
    ∃ path id s role, f.Stands path id s role stmt :=
  (holds_ofDecls { vars := f.vars } h).single [] 0

/-- The places that a statement stores into, and all places of the values it stores. -/
structure Store where
  targets : List Place
  values : List Place

namespace Store

/-- What is stored into is a part of the node of the statement, and so are the values. -/
def ofAssign (path : List Node) (n : Node) (left right : SyntaxTree) : Store where
  targets := rootPlaces (n :: path) (left.numberFrom (n.id + 1))
  values := placesBelow (n :: path) (right.numberFrom (n.id + 1 + left.size))

/-- The declared variables stand before the values, below the same node. -/
def ofSpec (path : List Node) (id : Nat) (names values : SyntaxTree) : Store where
  targets := rootPlaces path (names.numberFrom id)
  values := placesBelow path (values.numberFrom (id + names.size))

/-- The key and value stand below a node of their own, before what is ranged over. -/
def ofRange (path : List Node) (loop n : Node) (left ranged : SyntaxTree) : Store where
  targets := rootPlaces (n :: loop :: path) (left.numberFrom (n.id + 1))
  values := placesBelow (loop :: path) (ranged.numberFrom (n.id + 1 + left.size))

end Store

/-- The store that an assignment, a variable specification or a loop over a range makes, if it
stands below the path and is numbered from `id`. -/
def Stmt.store? (path : List Node) (id : Nat) (s : Scope) (role : Role) : Stmt → Option Store
  | .assign range compound targets sources =>
    some (.ofAssign path
      { kind := .assign, role, compound, id, start := range.start, stop := range.stop }
      (ofTargets s .target targets) (ofExprs s .source sources))
  | .varSpec names values => some (.ofSpec path id (s.declarators names) (ofExprs s .value values))
  | .rangeLoop range assigns key value ranged _ =>
    if assigns && !key.isEmpty then
      some (.ofRange path { kind := .loop, role, id, start := range.start, stop := range.stop }
        { kind := .assign, role := .init, id := id + 1, start := (storeRange key value).start,
          stop := (storeRange key value).stop }
        (ofTargets s .target key ++ ofTargets s .target value) (ofExprs s .cond ranged))
    else none
  | _ => none

def Stmt.isAssign : Stmt → Bool
  | .assign .. => true
  | _ => false

section Roots

theorem kinds_numberFrom (f : SyntaxTree) (id : Nat) :
    (f.numberFrom id).roots.map (·.kind) = f.roots.map (·.kind) := by
  induction f generalizing id with
  | nil => rfl
  | cons n children rest _ ihr => simp [numberFrom, Forest.roots, ihr]

theorem kind_mem_of_root {path : List Node} {f : SyntaxTree} {id : Nat} {c : Place}
    (hc : c ∈ rootPlaces path (f.numberFrom id)) : c.node.kind ∈ f.roots.map (·.kind) := by
  rw [← kinds_numberFrom f id, ← map_node_rootPlaces path, List.map_map]
  exact List.mem_map_of_mem (f := fun c : Place => c.node.kind) hc

theorem declarator_not_mem_ofExpr (s : Scope) (role : Role) (e : Expr) :
    .declarator ∉ (ofExpr s role e).roots.map (·.kind) := by
  cases e <;> simp [ofExpr, Scope.nameNode, SyntaxTree.single, Forest.roots]

theorem declarator_not_mem_ofTargets (s : Scope) (role : Role) (es : List Expr) :
    .declarator ∉ (ofTargets s role es).roots.map (·.kind) := by
  induction es with
  | nil => simp [ofTargets, Forest.roots]
  | cons e rest ih =>
    have he := declarator_not_mem_ofExpr s role e
    have hstore : .declarator ∉ (s.storeTarget role e).roots.map (·.kind) := by
      rcases s.storeTarget_cases role e with hnil | ⟨root, -, -, hname⟩
      · simp [hnil, Forest.roots]
      · simp [hname, Scope.nameNode, SyntaxTree.single, Forest.roots]
    simp only [ofTargets, Forest.roots_append, List.map_append, List.mem_append]
    rintro ((hmem | hmem) | hmem)
    · exact he hmem
    · exact hstore hmem
    · exact ih hmem

theorem declarator_of_root (s : Scope) {names : List Ident} {path : List Node} {id : Nat}
    {c : Place} (hc : c ∈ rootPlaces path ((s.declarators names).numberFrom id)) :
    c.node.kind = .declarator ∧ c.children = .nil := by
  induction names generalizing id with
  | nil => cases hc
  | cons name rest ih =>
    rcases List.mem_cons.mp hc with rfl | hc
    · exact ⟨rfl, rfl⟩
    · exact ih hc

end Roots

section Orders

variable {g : SyntaxTree} {path : List Node} {n : Node} {left right : SyntaxTree}

theorem time_of_left {m : Place} (hm : m ∈ placesBelow [] (g.numberFrom 0))
    (hkind : m.node.kind = .assign) (hleft : .declarator ∉ left.roots.map (·.kind))
    {x : TimedAccess} (hx : x ∈ accesses [] (g.numberFrom 0)) (hwrite : x.access.mode = .write)
    {id : Nat} (hplace : x.place ∈ rootPlaces m.below (left.numberFrom id)) :
    x.time = m.exitTime := by
  apply time_of_target hm hkind hx hwrite (rootPlaces_subset _ _ _ hplace).2
  intro hdeclarator
  exact hleft (hdeclarator ▸ kind_mem_of_root hplace)

theorem Store.ofAssign_precede (sel : Extent) (hfirst : (g.numberFrom 0).first = g.numberFrom 0)
    (hm : ⟨n, (left ++ right).numberFrom (n.id + 1), path⟩ ∈ placesBelow [] (g.numberFrom 0))
    (hkind : n.kind = .assign) (hleft : .declarator ∉ left.roots.map (·.kind)) :
    Event.Precede .read (ofAssign path n left right).values .write
      (ofAssign path n left right).targets
      (Trace.ofSelection (g.numberFrom 0) sel).events.toList := by
  refine Event.precede_of_times sel hfirst fun x hx y hy hread hvalue hwrite htarget => ?_
  have hbounds := id_bounds hvalue
  rw [time_of_read hx hread, time_of_left hm hkind hleft hy hwrite htarget]
  simp only [Place.entryTime, Place.exitTime, size_numberFrom, Forest.size_append]
  omega

theorem Store.ofRange_precede (sel : Extent) (hfirst : (g.numberFrom 0).first = g.numberFrom 0)
    {loop : Node} (hm : ⟨n, left.numberFrom (n.id + 1), loop :: path⟩ ∈ placesBelow []
    (g.numberFrom 0)) (hkind : n.kind = .assign) (hleft : .declarator ∉ left.roots.map (·.kind)) :
    Event.Precede .write (ofRange path loop n left right).targets .read
      (ofRange path loop n left right).values
      (Trace.ofSelection (g.numberFrom 0) sel).events.toList := by
  refine Event.precede_of_times sel hfirst fun x hx y hy hwrite htarget hread hvalue => ?_
  have hbounds := id_bounds hvalue
  rw [time_of_read hy hread, time_of_left hm hkind hleft hx hwrite htarget]
  simp only [Place.entryTime, Place.exitTime, size_numberFrom]
  omega

theorem Store.ofSpec_precede (sel : Extent) (hfirst : (g.numberFrom 0).first = g.numberFrom 0)
    (s : Scope) (names : List Ident) {id : Nat} :
    Event.Precede .write (ofSpec path id (s.declarators names) right).targets .read
      (ofSpec path id (s.declarators names) right).values
      (Trace.ofSelection (g.numberFrom 0) sel).events.toList := by
  refine Event.precede_of_times sel hfirst fun x hx y hy _ htarget hread hvalue => ?_
  obtain ⟨hkind, hleaf⟩ := declarator_of_root s htarget
  have hbounds := id_bounds hvalue
  have hbounds' := id_bounds (rootPlaces_subset _ _ _ htarget).1
  rw [time_of_read hy hread, time_of_declarator hx hkind, Place.entryTime, Place.exitTime, hleaf]
  simp only [Forest.size]
  omega

end Orders

/-- Every assignment, variable specification and loop over a range in the functions of a file stands
in its tree.  For every selection, an assignment reads the values before it writes its targets.  The
other two write their targets before they read the values. -/
theorem stores_ordered (f : File) (sel : Extent) :
    (∀ stmt ∈ f.statements, ∃ path id s role, f.Stands path id s role stmt) ∧
    ∀ path id s role stmt store, f.Stands path id s role stmt → stmt.store? path id s role =
      some store → (stmt.isAssign = true →
        Event.Precede .read store.values .write store.targets
        (Trace.ofSelection f.tree sel).events.toList) ∧
      (stmt.isAssign = false →
        Event.Precede .write store.targets .read store.values
        (Trace.ofSelection f.tree sel).events.toList) := by
  refine ⟨fun stmt hstmt => f.exists_stands hstmt,
    fun path id s role stmt store hstands hstore => ?_⟩
  unfold Stmt.store? at hstore
  split at hstore
  next range compound targets sources =>
    cases hstore
    constructor
    · intro _
      apply Store.ofAssign_precede sel rfl _ rfl (declarator_not_mem_ofTargets s .target targets)
      apply hstands
      exact List.mem_cons_self
    · intro hnot
      cases hnot
  next names values =>
    cases hstore
    constructor
    · intro hassign
      cases hassign
    · intro _
      exact Store.ofSpec_precede sel rfl s names
  next range assigns key value ranged body =>
    split at hstore
    next hassigns =>
      cases hstore
      constructor
      · intro hassign
        cases hassign
      · intro _
        apply Store.ofRange_precede sel rfl _ rfl
        · rw [Forest.roots_append, List.map_append, List.mem_append]
          exact not_or.mpr ⟨declarator_not_mem_ofTargets s _ key,
            declarator_not_mem_ofTargets s _ value⟩
        · apply hstands
          rw [ofStmt, if_pos hassigns]
          exact List.mem_cons_of_mem _ (List.mem_append_left _ List.mem_cons_self)
    next => cases hstore
  next => cases hstore

namespace Ranging

def increase : Stmt :=
  .assign ⟨31, 40⟩ false [.ident ⟨⟨31, 32⟩, "x", some 0, none⟩]
    [.other ⟨35, 40⟩ [.ident ⟨⟨35, 36⟩, "x", some 0, none⟩, .other ⟨39, 40⟩ []]]

def loop : Stmt :=
  .rangeLoop ⟨42, 62⟩ true [.ident ⟨⟨46, 47⟩, "x", some 0, none⟩] []
    [.ident ⟨⟨56, 57⟩, "x", some 0, none⟩] (.block ⟨58, 62⟩ [])

def copy : Stmt :=
  .varSpec [⟨⟨68, 69⟩, "y", some 1, none⟩] [.ident ⟨⟨72, 73⟩, "x", some 0, none⟩]

/-- A variable is set and increased, then ranged over by a loop that assigns it, and then copied. -/
def file : File where
  start := 0
  size := 88
  decls :=
    [.func ⟨11, 87⟩ "f" {}
      (.block ⟨20, 87⟩
        [.assign ⟨23, 29⟩ false [.ident ⟨⟨23, 24⟩, "x", some 0, none⟩] [.other ⟨28, 29⟩ []],
          increase, loop, .varDecl ⟨64, 73⟩ [copy],
          .expr ⟨75, 85⟩
            (.call ⟨75, 85⟩ (.ident ⟨⟨75, 82⟩, "println", none, some "println"⟩)
              [.ident ⟨⟨83, 84⟩, "y", some 1, none⟩] "println")])]
  vars :=
    #[{ name := "x", pos := 23, type := "int", relativeType := "int" },
      { name := "y", pos := 68, type := "int", relativeType := "int" }]

def scope : Scope :=
  { vars := file.vars }

def path : List Node :=
  [{ kind := .block, role := .body, id := 2, start := 20, stop := 87 },
    { kind := .method, void := true, text := "f", id := 1, start := 11, stop := 87 },
    { kind := .file, id := 0, start := 0, stop := 88 }]

def declaration : Node :=
  { kind := .localDecl, id := 16, start := 64, stop := 73 }

/-- The accesses along a trace that selects the increase. -/
def events : List Event :=
  (Trace.ofSelection file.tree ⟨31, 9⟩).events.toList

theorem increase_readsFirst : file.Stands path 6 scope .unspecified increase ∧
    ∃ store, increase.store? path 6 scope .unspecified = some store ∧
      Event.Precede .read store.values .write store.targets events ∧
      (∃ e ∈ events, e.AccessesAt .read store.values) ∧
          ∃ e ∈ events, e.AccessesAt .write store.targets := by
  have hstands : file.Stands path 6 scope .unspecified increase := by decide +kernel
  refine ⟨hstands, _, rfl, ?_, by decide +kernel, by decide +kernel⟩
  exact ((stores_ordered file ⟨31, 9⟩).2 path 6 scope .unspecified increase _ hstands rfl).1 rfl

/-- The loop is taken to overwrite the variable before it ranges over it.  So the increase is lost
when it is extracted, though nothing keeps it from being extracted. -/
theorem loop_losesUpdate :
    (loop ∈ file.statements ∧ file.Stands path 11 scope .unspecified loop ∧
      ∃ store, loop.store? path 11 scope .unspecified = some store ∧
        ¬ Event.Precede .read store.values .write store.targets events) ∧
    (copy ∈ file.statements ∧ file.Stands (declaration :: path) 17 scope .unspecified copy ∧
      ∃ store, copy.store? (declaration :: path) 17 scope .unspecified = some store ∧
        ¬ Event.Precede .read store.values .write store.targets events) ∧
    ∃ w, analyze file.tree ⟨31, 9⟩ .everywhere = .ok w ∧ w.Legal ∧ w.returnValue = none := by
  have hmem : loop ∈ file.statements ∧ copy ∈ file.statements := by
    simp [file, File.statements, Decl.statements, Stmt.statements, Stmt.allStatements, loop, copy]
  have hrun : (analyze file.tree ⟨31, 9⟩ .everywhere).map
      (fun w => (w.diagnostics, w.returnValue)) = .ok ([], none) := by
    decide +kernel
  refine ⟨⟨hmem.1, by decide +kernel, _, rfl, by decide +kernel⟩,
    ⟨hmem.2, by decide +kernel, _, rfl, by decide +kernel⟩, ?_⟩
  obtain ⟨w, hw, hfound⟩ := map_eq_ok.mp hrun
  obtain ⟨hlegal, hreturn⟩ := Prod.mk.inj hfound
  exact ⟨w, hw, hlegal, hreturn⟩

end Ranging

end Extraction.GoCode
