import Extraction.Proofs.FlowRules

/-!
# Open branches

The open branches of a forest are exact: a jump is open if and only if some jump statement outside
nested functions and types goes there and no place around that statement, within the forest, is the
target.  One statement adds its own jump to the open jumps of its parts and takes away those that it
is the target of.
-/

namespace Extraction

theorem Kind.untargeted {k : Kind} (h : k.isStatement = false) :
    k.isBranch = false ∧ k.isLoop = false ∧ k ≠ .switch ∧ k ≠ .labeled := by
  cases k <;> first | exact Bool.noConfusion h | exact ⟨rfl, rfl, nofun, nofun⟩

namespace Place

open SyntaxTree

def JumpFree (p : Place) : Prop :=
  ∀ e ∈ exposed p.ancestors (.cons p.node p.children .nil), e.node.kind.isBranch = false

instance (p : Place) : Decidable p.JumpFree :=
  inferInstanceAs (Decidable (∀ e ∈ exposed p.ancestors (.cons p.node p.children .nil), _))

theorem Clear.jumpFree {p : Place} (h : p.Clear) : p.JumpFree :=
  fun e he => (h e he).2

/-- Whether the place is the target of a jump inside it. -/
def Resolves (p : Place) (b : BranchTarget) : Prop :=
  p.EndedBy b ∨ p.ContinuedBy b ∨ p.FallenThroughBy b

theorem resolves_loop {p : Place} (hk : p.node.kind = .loop ∨ p.node.kind = .doWhile)
    {b : BranchTarget} :
    p.Resolves b ↔ b ∈ Flow.loopTargets p := by
  obtain ⟨kind, label⟩ := b
  have hswitch : p.node.kind ≠ .switch := by rcases hk with hk | hk <;> rw [hk] <;> decide
  have hended : p.EndedBy ⟨kind, label⟩ ↔ kind = .breakBranch ∧
      (label = "" ∨ label = Flow.labelOf p) := by
    rcases hk with hk | hk <;> simp [EndedBy, hk]
  have hcontinued : p.ContinuedBy ⟨kind, label⟩ ↔ kind = .continueBranch ∧
      (label = "" ∨ label = Flow.labelOf p) := by
    simp [ContinuedBy, Kind.isLoop_iff.mpr hk]
  rw [Resolves, hended, hcontinued, Flow.loopTargets]
  simp only [FallenThroughBy, hswitch, and_false, or_false]
  by_cases hlabel : Flow.labelOf p = ""
  · simp [hlabel]
  · simp [hlabel]
    grind

theorem resolves_switch {p : Place} (hk : p.node.kind = .switch) {b : BranchTarget} :
    p.Resolves b ↔ b ∈ Flow.switchTargets p := by
  obtain ⟨kind, label⟩ := b
  simp only [Resolves, EndedBy, ContinuedBy, FallenThroughBy, hk, Kind.isLoop, Flow.switchTargets]
  by_cases hlabel : Flow.labelOf p = ""
  · simp [hlabel]
  · simp [hlabel]
    grind

theorem resolves_labeled {p : Place} (hk : p.node.kind = .labeled) {b : BranchTarget} :
    p.Resolves b ↔ b = ⟨.breakBranch, p.node.label⟩ := by
  obtain ⟨kind, label⟩ := b
  simp [Resolves, EndedBy, ContinuedBy, FallenThroughBy, hk, Kind.isLoop]

theorem not_resolves {p : Place} (hloop : p.node.kind.isLoop = false)
    (hswitch : p.node.kind ≠ .switch) (hlabeled : p.node.kind ≠ .labeled) (b : BranchTarget) :
    ¬ p.Resolves b := by
  rintro (⟨-, hended⟩ | ⟨-, hcontinued, -⟩ | ⟨-, hfallen⟩)
  · split at hended
    next hk => rw [hk] at hloop; cases hloop
    next hk => rw [hk] at hloop; cases hloop
    next hk => exact hswitch hk
    next hk => exact hlabeled hk
    next => exact hended
  · rw [hloop] at hcontinued
    cases hcontinued
  · exact hswitch hfallen

theorem jumped_not_mem_settles {p : Place} (h : p.node.kind.isBranch = false) (b : BranchTarget) :
    Ending.jumped b ∉ p.settles := by
  unfold settles
  split
  next => simp
  next => simp
  next => simp
  next hk => rw [hk] at h; cases h
  next hk => rw [hk] at h; cases h
  next hk => rw [hk] at h; cases h
  next hk => rw [hk] at h; cases h
  next => simp

end Place

namespace Flow

variable {b : BranchTarget} {parts : List FlowNode}

@[simp] theorem mem_resolve {f : Flow} {targets : List BranchTarget} :
    b ∈ (f.resolve targets).openBranches ↔ b ∈ f.openBranches ∧ b ∉ targets := by
  simp [resolve]

@[simp] theorem openBranches_demote (f : Flow) : f.demote.openBranches = f.openBranches :=
  rfl

@[simp] theorem mem_merge {f g : Flow} :
    b ∈ (f.merge g).openBranches ↔ b ∈ f.openBranches ∨ b ∈ g.openBranches :=
  mem_joinBranches _ _ _

theorem mem_sequence : b ∈ (sequence (parts.map (·.flow))).openBranches ↔
    ∃ g ∈ parts, b ∈ g.flow.openBranches := by
  simp [openBranches_sequence, mem_openBranches_alternatives]

theorem mem_ofConditional : b ∈ (ofConditional parts).openBranches ↔
    (∃ g ∈ FlowNode.inRole? .thenBranch parts, b ∈ g.flow.openBranches) ∨
      ∃ g ∈ FlowNode.inRole? .elseBranch parts, b ∈ g.flow.openBranches := by
  unfold ofConditional
  cases FlowNode.inRole? .thenBranch parts <;> cases FlowNode.inRole? .elseBranch parts <;> simp

theorem mem_ofLoop {p : Place} : b ∈ (ofLoop p parts).openBranches ↔
    (∃ g ∈ FlowNode.inRole? .body parts, b ∈ g.flow.openBranches) ∧ b ∉ loopTargets p := by
  have hflow : (ofLoop p parts).openBranches =
      ((((FlowNode.inRole? .body parts).map FlowNode.flow).getD {}).resolve
      (loopTargets p)).openBranches := by
    unfold ofLoop
    simp only
    split <;> rfl
  rw [hflow, mem_resolve]
  cases FlowNode.inRole? .body parts <;> simp

theorem mem_ofSwitch {p : Place} : b ∈ (ofSwitch p parts).openBranches ↔
    (∃ g ∈ parts, g.node.kind = .caseClause ∧ b ∈ g.flow.openBranches) ∧ b ∉ switchTargets p := by
  have hflow : (ofSwitch p parts).openBranches =
      ((alternatives ((parts.filter fun f => f.node.kind = .caseClause).map (·.flow))).resolve
        (switchTargets p)).openBranches := by
    unfold ofSwitch
    simp only
    split <;> rfl
  rw [hflow, mem_resolve, mem_openBranches_alternatives]
  simp only [List.mem_map, exists_exists_and_eq_and]
  simp only [List.mem_filter, decide_eq_true_eq, and_assoc]

theorem mem_ofTry (h : b ∈ (ofTry parts).openBranches) : ∃ g ∈ parts, b ∈ g.flow.openBranches := by
  have hothers : ∀ {keep : FlowNode → Bool},
      b ∈ (alternatives ((parts.filter keep).map (·.flow))).openBranches →
      ∃ g ∈ parts, b ∈ g.flow.openBranches := by
    intro keep hb
    obtain ⟨f, hf, hbf⟩ := mem_openBranches_alternatives.mp hb
    obtain ⟨g, hg, rfl⟩ := List.mem_map.mp hf
    exact ⟨g, (List.mem_filter.mp hg).1, hbf⟩
  unfold ofTry at h
  simp only at h
  split at h
  next => exact hothers h
  next final hfinal =>
    have hmem : final ∈ parts := (List.mem_filter.mp (List.mem_of_getLast? hfinal)).1
    split at h
    · exact ⟨final, hmem, h⟩
    · rcases (mem_joinBranches _ _ _).mp h with h | h
      · exact hothers h
      · exact ⟨final, hmem, h⟩

theorem mem_ofStatement {p : Place} (h : b ∈ (ofStatement p parts).openBranches) :
    Ending.jumped b ∈ p.settles ∨ ∃ g ∈ parts, b ∈ g.flow.openBranches := by
  have hrole : ∀ role, (∃ g ∈ FlowNode.inRole? role parts, b ∈ g.flow.openBranches) →
      ∃ g ∈ parts, b ∈ g.flow.openBranches := by
    rintro role ⟨g, hg, hb⟩
    exact ⟨g, List.mem_of_find?_eq_some hg, hb⟩
  unfold ofStatement at h
  simp only at h
  split at h
  next hk => exact Or.inl (by simpa [Place.settles, hk] using h)
  next hk => exact Or.inl (by simpa [Place.settles, hk] using h)
  next hk => exact Or.inl (by simpa [Place.settles, hk] using h)
  next hk => exact Or.inl (by simpa [Place.settles, hk] using h)
  next => cases h
  next => cases h
  next => exact Or.inr (mem_sequence.mp h)
  next => exact Or.inr (mem_sequence.mp h)
  next => exact Or.inr (mem_sequence.mp h)
  next =>
    refine Or.inr (hrole .body ?_)
    cases hbody : FlowNode.inRole? .body parts with
    | none => rw [hbody] at h; cases h
    | some g => rw [hbody] at h; exact ⟨g, rfl, h⟩
  next => exact Or.inr ((mem_ofConditional.mp h).elim (hrole _) (hrole _))
  next => exact Or.inr (hrole _ (mem_ofLoop.mp h).1)
  next => exact Or.inr (hrole _ (mem_ofLoop.mp h).1)
  next => exact Or.inr (mem_sequence.mp (mem_resolve.mp h).1)
  next =>
    obtain ⟨⟨g, hg, -, hb⟩, -⟩ := mem_ofSwitch.mp h
    exact Or.inr ⟨g, hg, hb⟩
  next => exact Or.inr (mem_ofTry h)
  next => exact Or.inr (by simpa [mem_openBranches_alternatives] using h)

end Flow

theorem Place.JumpFree.openBranches {p : Place} (h : p.JumpFree) :
    ∀ g ∈ p.parts, g.flow.openBranches = [] := by
  refine FlowNode.parts_induction (P := fun k => k.openBranches = []) fun e he hparts => ?_
  refine List.eq_nil_iff_forall_not_mem.mpr fun b hb => ?_
  rcases Flow.mem_ofStatement hb with hjump | ⟨g, hg, hbg⟩
  · exact Place.jumped_not_mem_settles (h e he) b hjump
  · rw [hparts g hg] at hbg
    cases hbg

namespace SyntaxTree

variable {path : List Node} {f : SyntaxTree} {p c : Place} {g : FlowNode}

/-- Forests whose statements have the parts they should have. -/
structure Formed (path : List Node) (f : SyntaxTree) : Prop where
  fits : ∀ p ∈ exposed path f, Fits p.node p.children
  shaped : ∀ p ∈ exposed path f, p.Shaped

theorem mem_parts_children (hc : c ∈ rootPlaces p.below p.children) (hg : g ∈ c.parts) :
    g ∈ FlowNode.parts p.below p.children := by
  rw [FlowNode.parts_eq_flatMap]
  exact List.mem_flatMap.mpr ⟨c, hc, hg⟩

theorem role_parts {path : List Node} {f : SyntaxTree}
    (hfits : ∀ p ∈ exposed path f, Fits p.node p.children)
    (hroots : ∀ n ∈ f.roots, n.role = .unspecified) :
    ∀ g ∈ FlowNode.parts path f, g.node.role = .unspecified := by
  induction f generalizing path with
  | nil => simp [FlowNode.parts]
  | cons n children rest ihc ihr =>
    simp only [exposed, List.mem_cons, List.mem_append] at hfits
    simp only [Forest.roots, List.mem_cons, forall_eq_or_imp] at hroots
    intro g hg
    simp only [FlowNode.parts, List.mem_append] at hg
    rcases hg with hg | hg
    · split at hg
      next =>
        rw [List.mem_singleton.mp hg]
        exact hroots.1
      next hstatement =>
        split at hg
        · cases hg
        next hscope =>
          refine ihc (fun p hp => hfits p (Or.inr (Or.inl (by rwa [if_neg hscope]))))
            (fun k hk => ?_) g hg
          exact Kind.Takes.plain (hfits ⟨n, children, path⟩ (Or.inl rfl))
            (Bool.eq_false_iff.mpr hstatement)
            (Bool.eq_false_iff.mpr hscope) _ (List.mem_map_of_mem hk)
    · exact ihr (fun p hp => hfits p (Or.inr (Or.inr hp))) hroots.2 g hg

theorem find?_parts {role : Role} (hrole : role ≠ .unspecified) {cs : List Place}
    (hstatement : ∀ c ∈ cs, c.node.role = role → c.node.kind.isStatement = true)
    (hplain : ∀ c ∈ cs, c.node.kind.isStatement = false →
      ∀ g ∈ c.parts, g.node.role = .unspecified) :
    ((cs.flatMap Place.parts).find? fun g => g.node.role = role) =
      (cs.find? fun c => c.node.role = role).map fun c => ⟨c, c.flow⟩ := by
  induction cs with
  | nil => rfl
  | cons c cs ih =>
    have hrest := ih (fun d hd => hstatement d (List.mem_cons_of_mem _ hd)) fun d hd =>
      hplain d (List.mem_cons_of_mem _ hd)
    rw [List.flatMap_cons, List.find?_append, hrest]
    by_cases hc : c.node.role = role
    · rw [Place.parts_statement (hstatement c List.mem_cons_self hc)]
      simp [FlowNode.node, hc]
    · have hnone : (c.parts.find? fun g => decide (g.node.role = role)) = none := by
        refine List.find?_eq_none.mpr fun g hg => ?_
        rw [decide_eq_true_eq]
        cases hk : c.node.kind.isStatement with
        | true =>
          rw [Place.parts_statement hk] at hg
          rw [List.mem_singleton.mp hg]
          exact hc
        | false =>
          rw [hplain c List.mem_cons_self hk g hg]
          exact hrole.symm
      rw [hnone, List.find?_cons_of_neg (by simpa using hc)]
      rfl

theorem Formed.inRole?_parts (h : Formed path f) {p : Place} (hp : p ∈ exposed path f)
    (hscope : p.node.kind.isScope = false) {role : Role}
    (hrole : role = .thenBranch ∨ role = .elseBranch ∨ role = .body) :
    FlowNode.inRole? role (FlowNode.parts p.below p.children) =
      ((rootPlaces p.below p.children).find? fun c => c.node.role = role).map fun c =>
        ⟨c, c.flow⟩ := by
  rw [FlowNode.inRole?, FlowNode.parts_eq_flatMap]
  refine find?_parts (by rcases hrole with rfl | rfl | rfl <;> decide)
    (fun c hc hcr => ?_) fun c hc hk g hg => ?_
  · refine (h.shaped p hp).branches c.node ?_ (by rwa [hcr])
    rw [← map_node_rootPlaces p.below p.children]
    exact List.mem_map_of_mem hc
  · have hexposed := child_exposed hp hscope hc
    cases hcs : c.node.kind.isScope with
    | true =>
      rw [Place.parts_scope hcs] at hg
      cases hg
    | false =>
      rw [Place.parts_plain hk hcs] at hg
      refine role_parts (fun e he => h.fits e (mem_exposed_children hexposed hcs e he))
        (fun k hk' => ?_) g hg
      exact Kind.Takes.plain (h.fits c hexposed) hk hcs _ (List.mem_map_of_mem hk')

theorem Formed.nodup_roles (h : Formed path f) {p : Place} (hp : p ∈ exposed path f)
    (hkind : p.node.kind = .ifStmt ∨ p.node.kind = .loop ∨ p.node.kind = .doWhile) :
    ((rootPlaces p.below p.children).map (·.node.role)).Nodup := by
  have hfits := h.fits p hp
  rw [Fits, ← map_node_rootPlaces p.below p.children, List.map_map] at hfits
  rcases hkind with hk | hk | hk <;> rw [hk] at hfits <;> exact hfits.nodup (by decide)

theorem Formed.inRole?_child (h : Formed path f) {p c : Place} (hp : p ∈ exposed path f)
    (hkind : p.node.kind = .ifStmt ∨ p.node.kind = .loop ∨ p.node.kind = .doWhile)
    (hc : c ∈ rootPlaces p.below p.children)
    (hrole : c.node.role = .thenBranch ∨ c.node.role = .elseBranch ∨ c.node.role = .body) :
    FlowNode.inRole? c.node.role (FlowNode.parts p.below p.children) = some ⟨c, c.flow⟩ := by
  have hscope : p.node.kind.isScope = false := by
    rcases hkind with hk | hk | hk <;> rw [hk] <;> rfl
  rw [h.inRole?_parts hp hscope hrole, find?_eq_some_of_nodup (g := fun c : Place => c.node.role)
    (h.nodup_roles hp hkind) hc]
  rfl

theorem Formed.statement_of_role (h : Formed path f) (hp : p ∈ exposed path f)
    (hc : c ∈ rootPlaces p.below p.children)
    (hrole : c.node.role = .thenBranch ∨ c.node.role = .elseBranch ∨ c.node.role = .body) :
    c.parts = [⟨c, c.flow⟩] := by
  refine Place.parts_statement ((h.shaped p hp).branches c.node ?_ hrole)
  rw [← map_node_rootPlaces p.below p.children]
  exact List.mem_map_of_mem hc

theorem Formed.clause_kind (h : Formed path f) (hp : p ∈ exposed path f)
    (hk : p.node.kind = .switch) (hc : c ∈ rootPlaces p.below p.children)
    (hrole : c.node.role ≠ .cond) : c.node.kind = .caseClause := by
  refine (h.shaped p hp).members hk c.node ?_ hrole
  rw [← map_node_rootPlaces p.below p.children]
  exact List.mem_map_of_mem hc

/-- In a conditional or a loop, what is no test is a branch or the body and is found by its role. -/
theorem Formed.inRole_of_child (h : Formed path f) (hp : p ∈ exposed path f)
    (hkind : p.node.kind = .ifStmt ∨ p.node.kind = .loop ∨ p.node.kind = .doWhile)
    (hc : c ∈ rootPlaces p.below p.children) (hg : g ∈ c.parts)
    (hrole : ¬ (c.node.role = .init ∨ c.node.role = .cond ∨ c.node.role = .post)) :
    (p.node.kind = .ifStmt ∧ (c.node.role = .thenBranch ∨ c.node.role = .elseBranch) ∨
      p.node.kind ≠ .ifStmt ∧ c.node.role = .body) ∧
      FlowNode.inRole? c.node.role (FlowNode.parts p.below p.children) = some g := by
  have hroles := h.fits p hp
  have hbranch : p.node.kind = .ifStmt ∧ (c.node.role = .thenBranch ∨ c.node.role = .elseBranch) ∨
      p.node.kind ≠ .ifStmt ∧ c.node.role = .body := by
    rcases hkind with hk | hk | hk <;> rw [Fits, hk] at hroles <;> have hr :=
      hroles.subset (role_mem hc) <;>
      simp only [List.mem_cons, List.not_mem_nil, or_false] at hr <;> rw [hk] <;> grind
  have hstatement : c.node.role = .thenBranch ∨ c.node.role = .elseBranch ∨
      c.node.role = .body := by
    rcases hbranch with ⟨-, hr | hr⟩ | ⟨-, hr⟩ <;> simp [hr]
  rw [h.statement_of_role hp hc hstatement] at hg
  rw [List.mem_singleton.mp hg]
  exact ⟨hbranch, h.inRole?_child hp hkind hc hstatement⟩

theorem Formed.jump_childless (h : Formed path f) (hp : p ∈ exposed path f)
    (hk : p.node.kind.isBranch = true) :
    rootPlaces p.below p.children = [] := by
  have hfits := h.fits p hp
  have hroles : p.children.roots.map (·.role) = [] := by
    rw [Fits] at hfits
    cases hkind : p.node.kind <;> rw [hkind] at hk hfits <;> first | exact hfits | cases hk
  rw [← map_node_rootPlaces p.below p.children, List.map_map] at hroles
  exact List.map_eq_nil_iff.mp hroles

/-- Forests without `try` in which conditions, init and post clauses and the operands of returns and
throws do not jump. -/
structure Orderly (path : List Node) (f : SyntaxTree) : Prop extends Formed path f where
  tests : ∀ p ∈ exposed path f, ∀ c ∈ rootPlaces p.below p.children,
    c.node.role = .init ∨ c.node.role = .cond ∨ c.node.role = .post → c.JumpFree
  tryFree : ∀ p ∈ exposed path f,
    p.node.kind ≠ .tryStmt ∧ p.node.kind ≠ .catchClause ∧ p.node.kind ≠ .finallyClause
  operands : ∀ p ∈ exposed path f, p.node.kind = .returnStmt ∨ p.node.kind = .throwStmt →
    ∀ c ∈ rootPlaces p.below p.children, c.JumpFree

theorem Orderly.mono (h : Orderly path f) {path' : List Node} {f' : SyntaxTree}
    (hsub : ∀ p ∈ exposed path' f', p ∈ exposed path f) : Orderly path' f' where
  fits p hp := h.fits p (hsub p hp)
  shaped p hp := h.shaped p (hsub p hp)
  tests p hp := h.tests p (hsub p hp)
  tryFree p hp := h.tryFree p (hsub p hp)
  operands p hp := h.operands p (hsub p hp)

variable {b : BranchTarget}

theorem Orderly.child_of_open (h : Orderly path f) (hp : p ∈ exposed path f)
    (hg : g ∈ FlowNode.parts p.below p.children) (hb : b ∈ g.flow.openBranches) :
    ∃ c ∈ rootPlaces p.below p.children, g ∈ c.parts ∧
      ¬ (c.node.role = .init ∨ c.node.role = .cond ∨ c.node.role = .post) := by
  rw [FlowNode.parts_eq_flatMap] at hg
  obtain ⟨c, hc, hgc⟩ := List.mem_flatMap.mp hg
  refine ⟨c, hc, hgc, fun hrole => ?_⟩
  rw [(h.tests p hp c hc hrole).openBranches g hgc] at hb
  cases hb

theorem Orderly.mem_open_conditional (h : Orderly path f) (hp : p ∈ exposed path f)
    (hk : p.node.kind = .ifStmt) :
    b ∈ (Flow.ofConditional (FlowNode.parts p.below p.children)).openBranches ↔
      ∃ g ∈ FlowNode.parts p.below p.children, b ∈ g.flow.openBranches := by
  rw [Flow.mem_ofConditional]
  constructor
  · rintro (⟨g, hg, hb⟩ | ⟨g, hg, hb⟩)
    · exact ⟨g, List.mem_of_find?_eq_some hg, hb⟩
    · exact ⟨g, List.mem_of_find?_eq_some hg, hb⟩
  · rintro ⟨g, hg, hb⟩
    obtain ⟨c, hc, hgc, hrole⟩ := h.child_of_open hp hg hb
    obtain ⟨hbranch, hfound⟩ := h.inRole_of_child hp (Or.inl hk) hc hgc hrole
    rcases hbranch with ⟨-, hr | hr⟩ | ⟨hif, -⟩
    · exact Or.inl ⟨g, hr ▸ hfound, hb⟩
    · exact Or.inr ⟨g, hr ▸ hfound, hb⟩
    · exact absurd hk hif

theorem Orderly.mem_open_loop (h : Orderly path f) (hp : p ∈ exposed path f)
    (hk : p.node.kind = .loop ∨ p.node.kind = .doWhile) :
    b ∈ (Flow.ofLoop p (FlowNode.parts p.below p.children)).openBranches ↔
      ¬ p.Resolves b ∧ ∃ g ∈ FlowNode.parts p.below p.children, b ∈ g.flow.openBranches := by
  rw [Flow.mem_ofLoop, Place.resolves_loop hk, and_comm]
  apply and_congr_right
  intro _
  constructor
  · rintro ⟨g, hg, hb⟩
    exact ⟨g, List.mem_of_find?_eq_some hg, hb⟩
  · rintro ⟨g, hg, hb⟩
    obtain ⟨c, hc, hgc, hrole⟩ := h.child_of_open hp hg hb
    obtain ⟨hbranch, hfound⟩ := h.inRole_of_child hp (Or.inr hk) hc hgc hrole
    rcases hbranch with ⟨hif, -⟩ | ⟨-, hr⟩
    · rw [hif] at hk
      rcases hk with hk | hk <;> cases hk
    · exact ⟨g, hr ▸ hfound, hb⟩

theorem Orderly.mem_open_switch (h : Orderly path f) (hp : p ∈ exposed path f)
    (hk : p.node.kind = .switch) :
    b ∈ (Flow.ofSwitch p (FlowNode.parts p.below p.children)).openBranches ↔
      ¬ p.Resolves b ∧ ∃ g ∈ FlowNode.parts p.below p.children, b ∈ g.flow.openBranches := by
  rw [Flow.mem_ofSwitch, Place.resolves_switch hk, and_comm]
  apply and_congr_right
  intro _
  constructor
  · rintro ⟨g, hg, -, hb⟩
    exact ⟨g, hg, hb⟩
  · rintro ⟨g, hg, hb⟩
    obtain ⟨c, hc, hgc, hrole⟩ := h.child_of_open hp hg hb
    have hcase := h.clause_kind hp hk hc fun hr => hrole (Or.inr (Or.inl hr))
    rw [Place.parts_statement (by rw [hcase]; rfl)] at hgc
    refine ⟨g, hg, ?_, hb⟩
    rw [List.mem_singleton.mp hgc]
    exact hcase

theorem Formed.mem_open_jump (h : Formed path f) (hp : p ∈ exposed path f)
    (hk : p.node.kind.isBranch = true) :
    FlowNode.parts p.below p.children = [] ∧
      (b ∈ p.flow.openBranches ↔ Ending.jumped b ∈ p.settles) := by
  refine ⟨by rw [FlowNode.parts_eq_flatMap, h.jump_childless hp hk]; rfl, ?_⟩
  rw [Place.flow, Flow.ofStatement, Place.settles]
  cases hkind : p.node.kind with
  | breakStmt | continueStmt | gotoStmt | fallthroughStmt => simp
  | _ => rw [hkind] at hk; cases hk

theorem Orderly.mem_openBranches (h : Orderly path f) (hp : p ∈ exposed path f) :
    b ∈ p.flow.openBranches ↔ Ending.jumped b ∈ p.settles ∨
      ¬ p.Resolves b ∧ ∃ g ∈ FlowNode.parts p.below p.children, b ∈ g.flow.openBranches := by
  cases hbranch : p.node.kind.isBranch with
  | true =>
    obtain ⟨hparts, hopen⟩ := h.mem_open_jump (b := b) hp hbranch
    rw [hopen, hparts]
    simp
  | false =>
    have hoperand : p.node.kind = .returnStmt ∨ p.node.kind = .throwStmt →
        ¬ ∃ g ∈ FlowNode.parts p.below p.children, b ∈ g.flow.openBranches := by
      rintro hk ⟨g, hg, hb⟩
      obtain ⟨c, hc, hgc, -⟩ := h.child_of_open hp hg hb
      rw [(h.operands p hp hk c hc).openBranches g hgc] at hb
      cases hb
    have hplain : p.node.kind.isLoop = false → p.node.kind ≠ .switch → p.node.kind ≠ .labeled →
        (¬ p.Resolves b ∧ (∃ g ∈ FlowNode.parts p.below p.children, b ∈ g.flow.openBranches) ↔
          ∃ g ∈ FlowNode.parts p.below p.children, b ∈ g.flow.openBranches) :=
            fun hloop hswitch hlabeled =>
      and_iff_right (Place.not_resolves hloop hswitch hlabeled b)
    rw [or_iff_right (Place.jumped_not_mem_settles hbranch b), Place.flow, Flow.ofStatement]
    cases hk : p.node.kind with
    | breakStmt | continueStmt | gotoStmt | fallthroughStmt => rw [hk] at hbranch; cases hbranch
    | returnStmt => simpa using fun _ => not_exists.mp (hoperand (Or.inl hk))
    | throwStmt => simpa using fun _ => not_exists.mp (hoperand (Or.inr hk))
    | block | caseClause | finallyClause =>
      rw [hplain (by rw [hk]; rfl) (by rw [hk]; decide) (by rw [hk]; decide)]
      exact Flow.mem_sequence
    | catchClause => exact absurd hk (h.tryFree p hp).2.1
    | tryStmt => exact absurd hk (h.tryFree p hp).1
    | ifStmt =>
      rw [hplain (by rw [hk]; rfl) (by rw [hk]; decide) (by rw [hk]; decide)]
      exact h.mem_open_conditional hp hk
    | loop => exact h.mem_open_loop hp (Or.inl hk)
    | doWhile => exact h.mem_open_loop hp (Or.inr hk)
    | labeled =>
      simp only [Flow.mem_resolve, Flow.mem_sequence, Place.resolves_labeled hk, List.mem_singleton]
      exact and_comm
    | switch => exact h.mem_open_switch hp hk
    | _ =>
      rw [hplain (by rw [hk]; rfl) (by rw [hk]; nofun) (by rw [hk]; nofun)]
      simp [Flow.mem_openBranches_alternatives]

theorem Orderly.exists_open_place (h : Orderly path f) (hp : p ∈ exposed path f) :
    (∃ g ∈ p.parts, b ∈ g.flow.openBranches) ↔ Ending.jumped b ∈ p.settles ∨
      p.node.kind.isScope = false ∧ ¬ p.Resolves b ∧
        ∃ g ∈ FlowNode.parts p.below p.children, b ∈ g.flow.openBranches := by
  cases hstatement : p.node.kind.isStatement with
  | true =>
    rw [Place.parts_statement hstatement, Kind.isScope_eq_false hstatement]
    simpa using h.mem_openBranches hp
  | false =>
    have hkind := Kind.untargeted hstatement
    rw [or_iff_right (Place.jumped_not_mem_settles hkind.1 b),
      and_iff_right (Place.not_resolves hkind.2.1 hkind.2.2.1 hkind.2.2.2 b)]
    cases hscope : p.node.kind.isScope with
    | true => simp [Place.parts_scope hscope]
    | false => simp [Place.parts_plain hstatement hscope]

/-- Some jump statement of the forest goes to the target, and no place of the forest around it takes
the jump.  Only the places with the given property count. -/
def Jumps (S : Place → Prop) (path : List Node) (f : SyntaxTree) (b : BranchTarget) : Prop :=
  ∃ j ∈ exposed path f, S j ∧ Ending.jumped b ∈ j.settles ∧ ∀ p ∈ exposed path f, S p →
    j ∈ p.inner → ¬ p.Resolves b

theorem jumps_congr {S T : Place → Prop} (h : ∀ p ∈ exposed path f, S p ↔ T p) :
    Jumps S path f b ↔ Jumps T path f b := by
  constructor
  · rintro ⟨j, hj, hS, hjump, haround⟩
    exact ⟨j, hj, (h j hj).mp hS, hjump, fun p hp hT => haround p hp ((h p hp).mpr hT)⟩
  · rintro ⟨j, hj, hT, hjump, haround⟩
    exact ⟨j, hj, (h j hj).mpr hT, hjump, fun p hp hS => haround p hp ((h p hp).mp hS)⟩

theorem not_jumps_nil (S : Place → Prop) (path : List Node) (b : BranchTarget) :
    ¬ Jumps S path .nil b := by
  rintro ⟨j, hj, -⟩
  cases hj

theorem jumps_cons {S : Place → Prop} {n : Node} {children rest : SyntaxTree}
    {offset : Int} {id : Nat} (h : Laid offset id (.cons n children rest)) :
    Jumps S path (.cons n children rest) b ↔
      (S ⟨n, children, path⟩ ∧ Ending.jumped b ∈ Place.settles ⟨n, children, path⟩ ∨
        n.kind.isScope = false ∧ (S ⟨n, children, path⟩ → ¬ Place.Resolves ⟨n, children, path⟩ b) ∧
          Jumps S (n :: path) children b) ∨
      Jumps S path rest b := by
  obtain ⟨-, hid, -, hc, hr⟩ := h
  -- a place of one tree does not lie in a place of another, and the root lies in none
  have hchildren : ∀ {j p : Place}, j ∈ exposed (n :: path) children → p ∈ exposed path rest →
      j ∉ p.inner := by
    intro j p hj hp hin
    have hjb := laid_bounds hc (node_mem_of_mem_placesBelow (exposed_subset _ _ j hj))
    have hpb := laid_bounds hr (node_mem_of_mem_placesBelow (exposed_subset _ _ p hp))
    have := (inner_bounds hr (exposed_subset _ _ p hp) hin).2.2
    omega
  have hrest : ∀ {j p : Place}, j ∈ exposed path rest → p = ⟨n, children, path⟩ ∨
      p ∈ exposed (n :: path) children → j ∉ p.inner := by
    intro j p hj hp hin
    have hjb := laid_bounds hr (node_mem_of_mem_placesBelow (exposed_subset _ _ j hj))
    have hin : j ∈ placesBelow (n :: path) children := by
      rcases hp with rfl | hp
      · exact hin
      · exact inner_subset (exposed_subset _ _ p hp) j hin
    have := laid_bounds hc (node_mem_of_mem_placesBelow hin)
    omega
  have hroot : ∀ {p : Place}, p ∈ exposed path (.cons n children rest) →
      ⟨n, children, path⟩ ∉ p.inner := by
    intro p hp hin
    exact inner_not_root (exposed_subset _ _ p hp) hin rfl
  have hscope : ∀ {j : Place}, j ∈ (if n.kind.isScope then [] else exposed (n :: path) children) ↔
      n.kind.isScope = false ∧ j ∈ exposed (n :: path) children := by
    intro j
    cases n.kind.isScope <;> simp
  have hmem : ∀ {j : Place}, j ∈ exposed path (.cons n children rest) ↔ j = ⟨n, children, path⟩ ∨
      (n.kind.isScope = false ∧ j ∈ exposed (n :: path) children) ∨ j ∈ exposed path rest := by
    intro j
    rw [exposed, List.mem_cons, List.mem_append, hscope]
  constructor
  · rintro ⟨j, hj, hS, hjump, haround⟩
    rcases hmem.mp hj with rfl | ⟨hn, hj⟩ | hj
    · exact Or.inl (Or.inl ⟨hS, hjump⟩)
    · refine Or.inl (Or.inr ⟨hn, fun hSn => ?_, j, hj, hS, hjump, fun p hp => ?_⟩)
      · exact haround _ (hmem.mpr (Or.inl rfl)) hSn (exposed_subset _ _ j hj)
      · exact haround p (hmem.mpr (Or.inr (Or.inl ⟨hn, hp⟩)))
    · exact Or.inr ⟨j, hj, hS, hjump, fun p hp => haround p (hmem.mpr (Or.inr (Or.inr hp)))⟩
  · rintro ((⟨hS, hjump⟩ | ⟨hn, hroot', j, hj, hS, hjump, haround⟩) | ⟨j, hj, hS, hjump, haround⟩)
    · exact ⟨_, hmem.mpr (Or.inl rfl), hS, hjump, fun p hp _ hin => absurd hin (hroot hp)⟩
    · refine ⟨j, hmem.mpr (Or.inr (Or.inl ⟨hn, hj⟩)), hS, hjump, fun p hp hSp hin => ?_⟩
      rcases hmem.mp hp with rfl | ⟨-, hp⟩ | hp
      · exact hroot' hSp
      · exact haround p hp hSp hin
      · exact absurd hin (hchildren hj hp)
    · refine ⟨j, hmem.mpr (Or.inr (Or.inr hj)), hS, hjump, fun p hp hSp hin => ?_⟩
      rcases hmem.mp hp with rfl | ⟨-, hp⟩ | hp
      · exact absurd hin (hrest hj (Or.inl rfl))
      · exact absurd hin (hrest hj (Or.inr hp))
      · exact haround p hp hSp hin

/-- The open jumps of the statements of a forest are those that no place of the forest takes. -/
theorem Orderly.exists_open_iff {offset : Int} {id : Nat} (h : Orderly path f)
    (hlaid : Laid offset id f) :
    (∃ g ∈ FlowNode.parts path f, b ∈ g.flow.openBranches) ↔ Jumps (fun _ => True) path f b := by
  induction f generalizing path offset id with
  | nil => simp [FlowNode.parts, not_jumps_nil]
  | cons n children rest ihc ihr =>
    have hroot : ⟨n, children, path⟩ ∈ exposed path (.cons n children rest) := by simp [exposed]
    have hrest : ∀ p ∈ exposed path rest, p ∈ exposed path (.cons n children rest) := fun p hp => by
      simp [exposed, hp]
    rw [jumps_cons hlaid, ← ihr (h.mono hrest) hlaid.2.2.2.2, FlowNode.parts_eq_flatMap, rootPlaces,
      List.flatMap_cons, ← FlowNode.parts_eq_flatMap]
    simp only [List.mem_append, or_and_right, exists_or, true_and, true_implies]
    refine or_congr_left ?_
    rw [h.exists_open_place hroot]
    refine or_congr_right (and_congr_right fun hscope => ?_)
    have hbelow : Jumps (fun _ => True) (n :: path) children b ↔ _ :=
      (ihc (h.mono (mem_exposed_children hroot hscope)) hlaid.2.2.2.1).symm
    rw [hbelow]

end SyntaxTree

end Extraction
