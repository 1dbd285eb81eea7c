import Extraction.Proofs.SourceOrder

/-!
# Go code in source order

In code that was read from a text every part lies within what it is a part of, the parts stand one
after the other, and a return statement holds its keyword.  The tree of such code is in source
order.
-/

namespace Extraction

namespace GoCode

/-- The end of a range that starts at `lo` or later, if its parts come to an end within it. -/
def stopOver? (range : Span) (parts : Int → Option Int) (lo : Int) : Option Int :=
  if lo ≤ range.start then
    (parts range.start).bind fun stop => if stop ≤ range.stop then some range.stop else none
  else none

def Ident.stopAll? : List Ident → Int → Option Int
  | [], lo => some lo
  | id :: rest, lo => (stopOver? id.range some lo).bind (stopAll? rest)

def Expr.isFields : Expr → Bool
  | .fields _ => true
  | _ => false

mutual

/-- The end of an expression that starts at `lo` or later, if all its parts are in place. -/
def Expr.stop? : Expr → Int → Option Int
  | .ident id, lo => stopOver? id.range some lo
  | .funcLit range _ body, lo => stopOver? range (fun lo => body.stop? lo) lo
  | .call range callee args _, lo =>
    stopOver? range (fun lo => (callee.stop? lo).bind fun lo => Expr.stopAll? args lo) lo
  | .selector range operand _, lo => stopOver? range (fun lo => operand.stop? lo) lo
  | .paren range inner, lo => stopOver? range (fun lo => inner.stop? lo) lo
  | .index range operand indices _, lo =>
    stopOver? range (fun lo => (operand.stop? lo).bind fun lo => Expr.stopAll? indices lo) lo
  | .other range parts, lo => stopOver? range (fun lo => Expr.stopAll? parts lo) lo
  | .fields parts, lo => Expr.stopAll? parts lo

def Expr.stopAll? : List Expr → Int → Option Int
  | [], lo => some lo
  | e :: rest, lo => (e.stop? lo).bind fun lo => Expr.stopAll? rest lo

def Stmt.stop? : Stmt → Int → Option Int
  | .empty, lo => some lo
  | .block range stmts, lo => stopOver? range (fun lo => Stmt.stopAll? stmts lo) lo
  | .expr range x, lo => stopOver? range (fun lo => x.stop? lo) lo
  | .varDecl range specs, lo => stopOver? range (fun lo => Stmt.stopAll? specs lo) lo
  | .varSpec names values, lo => (Ident.stopAll? names lo).bind fun lo => Expr.stopAll? values lo
  | .typeDecl range, lo => stopOver? range some lo
  | .assign range _ targets sources, lo =>
    stopOver? range (fun lo => (Expr.stopAll? targets lo).bind fun lo =>
      Expr.stopAll? sources lo) lo
  | .incDec range x, lo => stopOver? range (fun lo => x.stop? lo) lo
  | .ret range results, lo =>
    stopOver? range (fun lo => (Expr.stopAll? results lo).map fun stop =>
      max stop (lo + "return".length)) lo
  | .branch range _ _, lo => stopOver? range some lo
  | .labeled range _ stmt, lo => stopOver? range (fun lo => stmt.stop? lo) lo
  | .conditional range init cond body alternative, lo =>
    stopOver? range (fun lo => (init.stop? lo).bind fun lo => (Expr.stopAll? cond lo).bind fun lo =>
      (body.stop? lo).bind fun lo => alternative.stop? lo) lo
  | .forLoop range init cond post body, lo =>
    stopOver? range (fun lo => (init.stop? lo).bind fun lo => (Expr.stopAll? cond lo).bind fun lo =>
      (post.stop? lo).bind fun lo => body.stop? lo) lo
  | .rangeLoop range _ key value ranged body, lo =>
    if (key ++ value).any Expr.isFields then none
    else
      stopOver? range (fun lo => (Expr.stopAll? key lo).bind fun lo =>
        (Expr.stopAll? value lo).bind fun lo =>
        (Expr.stopAll? ranged lo).bind fun lo => body.stop? lo) lo
  | .switch range init tag clauses, lo =>
    stopOver? range (fun lo => (init.stop? lo).bind fun lo => (Expr.stopAll? tag lo).bind fun lo =>
      Stmt.stopAll? clauses lo) lo
  | .clause range _ values comm body, lo =>
    stopOver? range (fun lo => (Expr.stopAll? values lo).bind fun lo =>
      (comm.stop? lo).bind fun lo =>
      Stmt.stopAll? body lo) lo
  | .other range operands, lo => stopOver? range (fun lo => Expr.stopAll? operands lo) lo

def Stmt.stopAll? : List Stmt → Int → Option Int
  | [], lo => some lo
  | stmt :: rest, lo => (stmt.stop? lo).bind fun lo => Stmt.stopAll? rest lo

end

def Decl.stop? : Decl → Int → Option Int
  | .func range _ _ body, lo => stopOver? range body.stop? lo
  | .type range, lo => stopOver? range some lo
  | .vars parts, lo => Expr.stopAll? parts lo
  | .other, lo => some lo

def Decl.stopAll? : List Decl → Int → Option Int
  | [], lo => some lo
  | d :: rest, lo => (d.stop? lo).bind fun lo => stopAll? rest lo

/-- Every part of the file lies within what it is a part of, the parts stand one after the other,
and a return statement holds its keyword. -/
def File.WellPlaced (f : File) : Prop :=
  ∃ stop, Decl.stopAll? f.decls f.start = some stop ∧ stop ≤ f.size

instance (f : File) : Decidable f.WellPlaced :=
  decidable_of_iff ((Decl.stopAll? f.decls f.start).any fun stop : Int => stop ≤ f.size) (by
    simp [File.WellPlaced, Option.any_eq_true])

theorem stopOver?_eq_some {range : Span} {parts : Int → Option Int} {lo hi : Int} :
    stopOver? range parts lo = some hi ↔
      lo ≤ range.start ∧ range.stop = hi ∧ ∃ stop, parts range.start = some stop ∧ stop ≤ hi := by
  unfold stopOver?
  split
  next hlo =>
    simp only [Option.bind_eq_some_iff, Option.ite_none_right_eq_some, Option.some.injEq]
    constructor
    · rintro ⟨stop, hstop, hle, rfl⟩
      exact ⟨hlo, rfl, stop, hstop, hle⟩
    · rintro ⟨-, rfl, stop, hstop, hle⟩
      exact ⟨stop, hstop, hle, rfl⟩
  next hlo => simp [hlo]

open SyntaxTree

variable {parent : Option Kind} {lo hi : Int}

theorem inOrder_nil (h : some lo = some hi) : InOrder parent none lo hi .nil :=
  .nil (Int.le_of_eq (Option.some.inj h))

theorem inOrder_within {range : Span} {parts : Int → Option Int} {f : SyntaxTree}
    (h : stopOver? range parts lo = some hi)
    (hparts : ∀ stop, parts range.start = some stop → InOrder parent none range.start stop f) :
    InOrder parent none lo hi f := by
  obtain ⟨hlo, -, stop, hstop, hle⟩ := stopOver?_eq_some.mp h
  exact ((hparts stop hstop).raise hle).behind hlo

theorem inOrder_over {range : Span} {parts : Int → Option Int} {payload : Payload}
    {children : SyntaxTree} (h : stopOver? range parts lo = some hi) (hplain : payload.Plain)
    (hchildren : ∀ stop, parts range.start = some stop →
    InOrder (some payload.kind) none range.start stop children) :
    InOrder parent none lo hi (.single range payload children) := by
  obtain ⟨hlo, hrange, stop, hstop, hle⟩ := stopOver?_eq_some.mp h
  exact .single hplain hlo hrange ((hchildren stop hstop).raise hle)

theorem inOrder_leaf {range : Span} {payload : Payload} (h : stopOver? range some lo = some hi)
    (hplain : payload.Plain) :
    InOrder parent none lo hi (.single range payload .nil) :=
  inOrder_over h hplain fun _ hstop => inOrder_nil hstop

namespace Scope

variable (s : Scope)

theorem inOrder_nameNode (role : Role) {id : Ident} (h : stopOver? id.range some lo = some hi) :
    InOrder parent none lo hi (s.nameNode role id) :=
  inOrder_leaf h (by simp [Payload.Plain])

theorem inOrder_declarators {names : List Ident} (h : Ident.stopAll? names lo = some hi) :
    InOrder parent none lo hi (s.declarators names) := by
  induction names generalizing lo with
  | nil => exact inOrder_nil h
  | cons id rest ih =>
    obtain ⟨mid, hid, hrest⟩ := Option.bind_eq_some_iff.mp h
    exact (inOrder_leaf hid (by simp [Payload.Plain])).append (ih hrest)

theorem inOrder_resultReads {start : Int} (hle : start + "return".length ≤ hi) :
    InOrder parent none start hi (s.resultReads start) := by
  have hkeyword : start ≤ start + "return".length := by omega
  suffices h : ∀ ids : List Ident, InOrder parent (some (⟨start, start + "return".length⟩, true))
      (start + "return".length) hi (.ofTrees (ids.map fun id =>
        ⟨{ kind := .name, binding := s.binding? id, id := 0, start,
           stop := start + "return".length }, .nil⟩)) by
    unfold resultReads
    cases s.results with
    | nil => exact .nil (Int.le_trans hkeyword hle)
    | cons id rest =>
      exact .next true (fun _ => rfl) (by simp [Payload.Plain]) (Int.le_refl _)
        (.nil hkeyword) (h rest)
  intro ids
  induction ids with
  | nil => exact .nil hle
  | cons id rest ih =>
    exact .again (by simp [Payload.Plain]) ⟨Int.le_refl _, hkeyword, Int.le_refl _⟩
      (Int.le_refl _) ih

end Scope

theorem Expr.stop?_eq_some {e : Expr} (he : e.isFields = false) (h : e.stop? lo = some hi) :
    lo ≤ e.range.start ∧ e.range.stop = hi ∧ e.stop? e.range.start = some hi := by
  cases e with
  | fields => cases he
  | _ =>
    simp only [Expr.stop?, Expr.range] at h ⊢
    obtain ⟨hlo, hstop, hparts⟩ := stopOver?_eq_some.mp h
    exact ⟨hlo, hstop, stopOver?_eq_some.mpr ⟨Int.le_refl _, hstop, hparts⟩⟩

theorem exists_ofExpr_eq_cons (s : Scope) (role : Role) {e : Expr} (he : e.isFields = false) :
    ∃ n children, ofExpr s role e = .cons n children .nil ∧ n.start = e.range.start ∧
      n.stop = e.range.stop := by
  cases e with
  | fields => cases he
  | _ => exact ⟨_, _, rfl, rfl, rfl⟩

theorem exists_mem_ofExpr (s : Scope) (role : Role) {e : Expr} {root : Ident}
    (hroot : e.storedIn? = some root) :
    ∃ n ∈ (ofExpr s role e).toList, n.start = root.range.start ∧ n.stop = root.range.stop := by
  fun_induction Expr.storedIn? e generalizing role with
  | case1 id =>
    cases hroot
    exact ⟨_, List.mem_cons_self, rfl, rfl⟩
  | case2 range inner ih =>
    obtain ⟨n, hn, hrange⟩ := ih .unspecified hroot
    exact ⟨n, by simp [ofExpr, single, Forest.toList, hn], hrange⟩
  | case3 range operand ih =>
    obtain ⟨n, hn, hrange⟩ := ih .unspecified hroot
    exact ⟨n, by simp [ofExpr, single, Forest.toList, hn], hrange⟩
  | case4 range operand indices ih =>
    obtain ⟨n, hn, hrange⟩ := ih .unspecified hroot
    exact ⟨n, by simp [ofExpr, single, Forest.toList, hn], hrange⟩
  | case5 => cases hroot

theorem Scope.storeTarget_cases (s : Scope) (role : Role) (e : Expr) :
    s.storeTarget role e = .nil ∨
      ∃ root, e.storedIn? = some root ∧ e.isFields = false ∧
      s.storeTarget role e = s.nameNode role root := by
  unfold storeTarget
  split
  · exact Or.inl rfl
  · split
    next root hroot =>
      split
      · refine Or.inr ⟨root, hroot, ?_, rfl⟩
        cases e with
        | fields => cases hroot
        | _ => rfl
      · exact Or.inl rfl
    next => exact Or.inl rfl

theorem inOrder_target (s : Scope) (role : Role) {e : Expr}
    (hparent : parent = some .assign ∨ parent = some .incDec) (hstop : e.stop? lo = some hi)
    (h : InOrder parent none lo hi (ofExpr s role e)) :
    InOrder parent none lo hi (ofExpr s role e ++ s.storeTarget role e) := by
  rcases s.storeTarget_cases role e with hnil | ⟨root, hroot, he, hstore⟩
  · rw [hnil, Forest.append_nil]
    exact h
  · obtain ⟨n, children, hexpr, -, hn⟩ := exists_ofExpr_eq_cons s role he
    obtain ⟨k, hk, hrange⟩ := exists_mem_ofExpr s role hroot
    rw [hexpr] at h hk
    rw [hstore, hexpr]
    exact h.store (hn.trans (Expr.stop?_eq_some he hstop).2.1) hparent hk rfl
      (by simp [Payload.Plain]) ⟨hrange.1.symm, hrange.2.symm⟩

theorem plain_branch (keyword label : String) (role : Role) :
    Payload.Plain { kind := branchKind keyword, role, label } := by
  refine ⟨?_, rfl⟩
  simp only [branchKind]
  split <;> decide

theorem Expr.stopAll?_append (es others : List Expr) (lo : Int) :
    Expr.stopAll? (es ++ others) lo = (Expr.stopAll? es lo).bind (Expr.stopAll? others) := by
  induction es generalizing lo with
  | nil => rfl
  | cons e rest ih => simp only [List.cons_append, Expr.stopAll?, Option.bind_assoc, ih]

theorem Expr.range_getLast? {es : List Expr} (hes : es ≠ [])
    (hfields : es.any Expr.isFields = false) (h : Expr.stopAll? es lo = some hi) :
    es.getLast?.map (·.range.stop) = some hi := by
  induction es generalizing lo with
  | nil => exact absurd rfl hes
  | cons e rest ih =>
    rw [List.any_cons, Bool.or_eq_false_iff] at hfields
    obtain ⟨mid, he, hrest⟩ := Option.bind_eq_some_iff.mp h
    cases rest with
    | nil =>
      cases hrest
      simp [(Expr.stop?_eq_some hfields.1 he).2.1]
    | cons e' rest => simpa [List.getLast?_cons_cons] using ih (by simp) hfields.2 hrest

theorem stopAll?_storeRange {key value : List Expr} (hkey : key.isEmpty = false)
    (hfields : (key ++ value).any Expr.isFields = false)
    (h : Expr.stopAll? (key ++ value) lo = some hi) :
    lo ≤ (storeRange key value).start ∧ (storeRange key value).stop = hi ∧
      Expr.stopAll? (key ++ value) (storeRange key value).start = some hi := by
  cases key with
  | nil => cases hkey
  | cons e rest =>
    have hlast := Expr.range_getLast? (by simp) hfields h
    rw [List.cons_append, List.any_cons, Bool.or_eq_false_iff] at hfields
    obtain ⟨mid, he, hrest⟩ := Option.bind_eq_some_iff.mp h
    obtain ⟨hlo, -, hfirst⟩ := Expr.stop?_eq_some hfields.1 he
    refine ⟨hlo, ?_, Option.bind_eq_some_iff.mpr ⟨mid, hfirst, hrest⟩⟩
    rw [storeRange, hlast]
    rfl

mutual

theorem inOrder_ofExpr (s : Scope) (role : Role) (e : Expr) {lo hi : Int} {parent : Option Kind}
    (h : e.stop? lo = some hi) : InOrder parent none lo hi (ofExpr s role e) := by
  cases e with
  | ident id => exact s.inOrder_nameNode role h
  | funcLit range sig body =>
    exact inOrder_over h (by simp [Payload.Plain]) fun _ hbody => inOrder_ofStmt _ _ body hbody
  | call range callee args text =>
    refine inOrder_over h (by simp [Payload.Plain]) fun _ hparts => ?_
    obtain ⟨mid, hcallee, hargs⟩ := Option.bind_eq_some_iff.mp hparts
    exact (inOrder_ofExpr s _ callee hcallee).append (inOrder_ofExprs s _ args hargs)
  | selector range operand selection =>
    exact inOrder_over h (by simp [Payload.Plain]) fun _ hoperand =>
      inOrder_ofExpr s _ operand hoperand
  | paren range inner =>
    exact inOrder_over h (by simp [Payload.Plain]) fun _ hinner => inOrder_ofExpr s _ inner hinner
  | index range operand indices array =>
    refine inOrder_over h (by simp [Payload.Plain]) fun _ hparts => ?_
    obtain ⟨mid, hoperand, hindices⟩ := Option.bind_eq_some_iff.mp hparts
    exact (inOrder_ofExpr s _ operand hoperand).append (inOrder_ofExprs s _ indices hindices)
  | other range parts =>
    exact inOrder_over h (by simp [Payload.Plain]) fun _ hparts => inOrder_ofExprs s _ parts hparts
  | fields parts =>
    have hparts : InOrder none none lo hi (ofExprs s role parts) := inOrder_ofExprs s role parts h
    exact .nil hparts.le

theorem inOrder_ofExprs (s : Scope) (role : Role) (es : List Expr) {lo hi : Int}
    {parent : Option Kind} (h : Expr.stopAll? es lo = some hi) :
    InOrder parent none lo hi (ofExprs s role es) := by
  cases es with
  | nil => exact inOrder_nil h
  | cons e rest =>
    obtain ⟨mid, he, hrest⟩ := Option.bind_eq_some_iff.mp h
    exact (inOrder_ofExpr s role e he).append (inOrder_ofExprs s role rest hrest)

theorem inOrder_ofTargets (s : Scope) (role : Role) (es : List Expr) {lo hi : Int}
    (h : Expr.stopAll? es lo = some hi) :
    InOrder (some .assign) none lo hi (ofTargets s role es) := by
  cases es with
  | nil => exact inOrder_nil h
  | cons e rest =>
    obtain ⟨mid, he, hrest⟩ := Option.bind_eq_some_iff.mp h
    exact (inOrder_target s role (Or.inl rfl) he (inOrder_ofExpr s role e he)).append
      (inOrder_ofTargets s role rest hrest)

theorem inOrder_ofStmt (s : Scope) (role : Role) (stmt : Stmt) {lo hi : Int} {parent : Option Kind}
    (h : stmt.stop? lo = some hi) : InOrder parent none lo hi (ofStmt s role stmt) := by
  cases stmt with
  | empty => exact inOrder_nil h
  | block range stmts =>
    exact inOrder_over h (by simp [Payload.Plain]) fun _ hstmts => inOrder_ofStmts s stmts hstmts
  | expr range x =>
    rw [ofStmt]
    split
    next hpanic =>
      cases x with
      | call calls callee args text =>
        refine inOrder_over h (by simp [Payload.Plain]) fun _ hcall =>
          inOrder_within hcall fun _ hparts => ?_
        obtain ⟨mid, hcallee, hargs⟩ := Option.bind_eq_some_iff.mp hparts
        have hmid : InOrder none none calls.start mid (ofExpr s .unspecified callee) :=
          inOrder_ofExpr s _ callee hcallee
        exact (inOrder_ofExprs s _ args hargs).behind hmid.le
      | _ => cases hpanic
    · exact inOrder_over h (by simp [Payload.Plain]) fun _ hx => inOrder_ofExpr s _ x hx
  | varDecl range specs =>
    exact inOrder_over h (by simp [Payload.Plain]) fun _ hspecs => inOrder_ofStmts s specs hspecs
  | varSpec names values =>
    obtain ⟨mid, hnames, hvalues⟩ := Option.bind_eq_some_iff.mp h
    exact (s.inOrder_declarators hnames).append (inOrder_ofExprs s _ values hvalues)
  | typeDecl range => exact inOrder_leaf h (by simp [Payload.Plain])
  | assign range compound targets sources =>
    refine inOrder_over h (by simp [Payload.Plain]) fun _ hparts => ?_
    obtain ⟨mid, htargets, hsources⟩ := Option.bind_eq_some_iff.mp hparts
    exact (inOrder_ofTargets s _ targets htargets).append (inOrder_ofExprs s _ sources hsources)
  | incDec range x =>
    exact inOrder_over h (by simp [Payload.Plain]) fun _ hx =>
      inOrder_target s _ (Or.inr rfl) hx (inOrder_ofExpr s _ x hx)
  | ret range results =>
    refine inOrder_over h (by simp [Payload.Plain]) fun _ hparts => ?_
    obtain ⟨mid, hresults, rfl⟩ := Option.map_eq_some_iff.mp hparts
    cases results with
    | nil =>
      cases hresults
      exact s.inOrder_resultReads (Int.le_max_right _ _)
    | cons e rest =>
      rw [List.isEmpty_cons, if_neg Bool.false_ne_true, Forest.append_nil]
      exact (inOrder_ofExprs s _ (e :: rest) hresults).raise (Int.le_max_left _ _)
  | branch range keyword label => exact inOrder_leaf h (plain_branch keyword label role)
  | labeled range label stmt =>
    exact inOrder_over h (by simp [Payload.Plain]) fun _ hstmt => inOrder_ofStmt s _ stmt hstmt
  | conditional range init cond body alternative =>
    refine inOrder_over h (by simp [Payload.Plain]) fun _ hparts => ?_
    obtain ⟨_, hinit, hparts⟩ := Option.bind_eq_some_iff.mp hparts
    obtain ⟨_, hcond, hparts⟩ := Option.bind_eq_some_iff.mp hparts
    obtain ⟨_, hbody, halternative⟩ := Option.bind_eq_some_iff.mp hparts
    exact (((inOrder_ofStmt s _ init hinit).append (inOrder_ofExprs s _ cond hcond)).append
      (inOrder_ofStmt s _ body hbody)).append (inOrder_ofStmt s _ alternative halternative)
  | forLoop range init cond post body =>
    refine inOrder_over h (by simp [Payload.Plain]) fun _ hparts => ?_
    obtain ⟨_, hinit, hparts⟩ := Option.bind_eq_some_iff.mp hparts
    obtain ⟨_, hcond, hparts⟩ := Option.bind_eq_some_iff.mp hparts
    obtain ⟨_, hpost, hbody⟩ := Option.bind_eq_some_iff.mp hparts
    exact (((inOrder_ofStmt s _ init hinit).append (inOrder_ofExprs s _ cond hcond)).append
      (inOrder_ofStmt s _ post hpost)).append (inOrder_ofStmt s _ body hbody)
  | rangeLoop range assigns key value ranged body =>
    rw [Stmt.stop?] at h
    split at h
    · cases h
    next hfields =>
      refine inOrder_over h (by simp [Payload.Plain]) fun _ hparts => ?_
      obtain ⟨_, hkey, hparts⟩ := Option.bind_eq_some_iff.mp hparts
      obtain ⟨mid, hvalue, hparts⟩ := Option.bind_eq_some_iff.mp hparts
      obtain ⟨_, hranged, hbody⟩ := Option.bind_eq_some_iff.mp hparts
      have hstored : Expr.stopAll? (key ++ value) range.start = some mid := by
        rw [Expr.stopAll?_append]
        exact Option.bind_eq_some_iff.mpr ⟨_, hkey, hvalue⟩
      refine (InOrder.append ?_ (inOrder_ofExprs s _ ranged hranged)).append
        (inOrder_ofStmt s _ body hbody)
      split
      next hassigns =>
        simp only [Bool.and_eq_true, Bool.not_eq_true'] at hassigns
        obtain ⟨hlo, hstop, hstored⟩ :=
          stopAll?_storeRange hassigns.2 (Bool.eq_false_iff.mpr hfields) hstored
        rw [Expr.stopAll?_append] at hstored
        obtain ⟨_, hkey, hvalue⟩ := Option.bind_eq_some_iff.mp hstored
        exact .single (by simp [Payload.Plain]) hlo hstop
          ((inOrder_ofTargets s _ key hkey).append (inOrder_ofTargets s _ value hvalue))
      next =>
        have hskipped : InOrder none none range.start mid
          (ofExprs s .target key ++ ofExprs s .target value) :=
          (inOrder_ofExprs s _ key hkey).append (inOrder_ofExprs s _ value hvalue)
        exact .nil hskipped.le
  | switch range init tag clauses =>
    refine inOrder_over h (by simp [Payload.Plain]) fun _ hparts => ?_
    obtain ⟨_, hinit, hparts⟩ := Option.bind_eq_some_iff.mp hparts
    obtain ⟨_, htag, hclauses⟩ := Option.bind_eq_some_iff.mp hparts
    exact ((inOrder_ofStmt s _ init hinit).append (inOrder_ofExprs s _ tag htag)).append
      (inOrder_ofStmts s clauses hclauses)
  | clause range isDefault values comm body =>
    refine inOrder_over h (by simp [Payload.Plain]) fun _ hparts => ?_
    obtain ⟨_, hvalues, hparts⟩ := Option.bind_eq_some_iff.mp hparts
    obtain ⟨_, hcomm, hbody⟩ := Option.bind_eq_some_iff.mp hparts
    exact ((inOrder_ofExprs s _ values hvalues).append (inOrder_ofStmt s _ comm hcomm)).append
      (inOrder_ofStmts s body hbody)
  | other range operands =>
    exact inOrder_over h (by simp [Payload.Plain]) fun _ hoperands =>
      inOrder_ofExprs s _ operands hoperands

theorem inOrder_ofStmts (s : Scope) (stmts : List Stmt) {lo hi : Int} {parent : Option Kind}
    (h : Stmt.stopAll? stmts lo = some hi) : InOrder parent none lo hi (ofStmts s stmts) := by
  cases stmts with
  | nil => exact inOrder_nil h
  | cons stmt rest =>
    obtain ⟨mid, hstmt, hrest⟩ := Option.bind_eq_some_iff.mp h
    exact (inOrder_ofStmt s _ stmt hstmt).append (inOrder_ofStmts s rest hrest)

end

mutual

theorem inOrder_ofLiterals (s : Scope) (e : Expr) {lo hi : Int} {parent : Option Kind}
    (h : e.stop? lo = some hi) :
    InOrder parent none lo hi (ofLiterals s e) := by
  cases e with
  | ident id => exact inOrder_within h fun _ hstop => inOrder_nil hstop
  | funcLit range sig body => exact inOrder_ofExpr s .unspecified (.funcLit range sig body) h
  | call range callee args text =>
    refine inOrder_within h fun _ hparts => ?_
    obtain ⟨mid, hcallee, hargs⟩ := Option.bind_eq_some_iff.mp hparts
    exact (inOrder_ofLiterals s callee hcallee).append (inOrder_ofAllLiterals s args hargs)
  | selector range operand selection =>
    exact inOrder_within h fun _ hoperand => inOrder_ofLiterals s operand hoperand
  | paren range inner => exact inOrder_within h fun _ hinner => inOrder_ofLiterals s inner hinner
  | index range operand indices array =>
    refine inOrder_within h fun _ hparts => ?_
    obtain ⟨mid, hoperand, hindices⟩ := Option.bind_eq_some_iff.mp hparts
    exact (inOrder_ofLiterals s operand hoperand).append (inOrder_ofAllLiterals s indices hindices)
  | other range parts => exact inOrder_within h fun _ hparts => inOrder_ofAllLiterals s parts hparts
  | fields parts => exact inOrder_ofAllLiterals s parts h

theorem inOrder_ofAllLiterals (s : Scope) (es : List Expr) {lo hi : Int} {parent : Option Kind}
    (h : Expr.stopAll? es lo = some hi) : InOrder parent none lo hi (ofAllLiterals s es) := by
  cases es with
  | nil => exact inOrder_nil h
  | cons e rest =>
    obtain ⟨mid, he, hrest⟩ := Option.bind_eq_some_iff.mp h
    exact (inOrder_ofLiterals s e he).append (inOrder_ofAllLiterals s rest hrest)

end

theorem inOrder_ofDecl (s : Scope) {d : Decl} (h : d.stop? lo = some hi) :
    InOrder parent none lo hi (ofDecl s d) := by
  cases d with
  | func range name sig body =>
    exact inOrder_over h (by simp [Payload.Plain]) fun _ hbody => inOrder_ofStmt _ _ body hbody
  | type range => exact inOrder_leaf h (by simp [Payload.Plain])
  | vars parts => exact inOrder_ofAllLiterals s parts h
  | other => exact inOrder_nil h

theorem inOrder_ofDecls (s : Scope) {ds : List Decl} (h : Decl.stopAll? ds lo = some hi) :
    InOrder parent none lo hi (ofDecls s ds) := by
  induction ds generalizing lo with
  | nil => exact inOrder_nil h
  | cons d rest ih =>
    obtain ⟨mid, hd, hrest⟩ := Option.bind_eq_some_iff.mp h
    exact (inOrder_ofDecl s hd).append (ih hrest)

theorem File.WellPlaced.inOrder {f : File} (h : f.WellPlaced) :
    InOrder none none f.start f.size f.tree := by
  obtain ⟨stop, hstop, hle⟩ := h
  have hfile : InOrder none none f.start f.size
      (.single ⟨f.start, f.size⟩ { kind := .file } (ofDecls { vars := f.vars } f.decls)) :=
    .single (by simp [Payload.Plain]) (Int.le_refl _) rfl ((inOrder_ofDecls _ hstop).raise hle)
  exact hfile.numberFrom 0

end GoCode

end Extraction
