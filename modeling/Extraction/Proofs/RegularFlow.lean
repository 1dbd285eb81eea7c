import Extraction.Proofs.OpenBranches

/-!
# Flows of regular forests

In a regular forest the flow of a statement and the flows of its parts are related as paths need it:
a return or a jump that leaves a part is also in the flow of the statement, unless the statement is
the target of the jump; and the flow of a statement does not exclude normal completion if those of
the parts that were run do not.
-/

namespace Extraction

namespace SyntaxTree

/-- Forests whose statements have the parts they should have, with no `try` and with no return or
jump inside the operand of a return or throw. -/
structure Regular (path : List Node) (f : SyntaxTree) : Prop where
  fits : ∀ p ∈ exposed path f, Fits p.node p.children
  wellFormed : ∀ p ∈ exposed path f, p.WellFormed
  tryFree : ∀ p ∈ exposed path f,
    p.node.kind ≠ .tryStmt ∧ p.node.kind ≠ .catchClause ∧ p.node.kind ≠ .finallyClause
  operands : ∀ p ∈ exposed path f, p.node.kind = .returnStmt ∨ p.node.kind = .throwStmt →
    ∀ c ∈ rootPlaces p.below p.children, c.Clear

variable {path : List Node} {f : SyntaxTree}

theorem Regular.mono (h : Regular path f) {path' : List Node} {f' : SyntaxTree}
    (hsub : ∀ p ∈ exposed path' f', p ∈ exposed path f) : Regular path' f' :=
  ⟨fun p hp => h.fits p (hsub p hp), fun p hp => h.wellFormed p (hsub p hp),
    fun p hp => h.tryFree p (hsub p hp), fun p hp => h.operands p (hsub p hp)⟩

theorem Regular.sane (h : Regular path f) {p : Place} (hp : p ∈ exposed path f) :
    ∀ g ∈ p.parts, g.flow.Sane :=
  FlowNode.parts_induction fun e he hparts =>
    Flow.sane_ofStatement (h.tryFree e (exposed_place hp e he)).1 hparts

theorem Regular.still (h : Regular path f) {p : Place} (hp : p ∈ exposed path f)
    (hclear : p.Clear) :
    ∀ g ∈ p.parts, g.flow.Still :=
  FlowNode.parts_induction fun e he hparts =>
    Flow.still_ofStatement (hclear e he).1 (hclear e he).2
      (h.tryFree e (exposed_place hp e he)).1 hparts

theorem Regular.orderly (h : Regular path f) : Orderly path f where
  fits := h.fits
  shaped p hp := (h.wellFormed p hp).toShaped
  tests p hp c hc hrole := ((h.wellFormed p hp).tests c hc hrole).jumpFree
  tryFree := h.tryFree
  operands p hp hk c hc := (h.operands p hp hk c hc).jumpFree

open Extraction.Flow

variable {p c : Place} {g : FlowNode}

theorem Regular.inRole_of_return (h : Regular path f) (hp : p ∈ exposed path f)
    (hkind : p.node.kind = .ifStmt ∨ p.node.kind = .loop ∨ p.node.kind = .doWhile)
    (hc : c ∈ rootPlaces p.below p.children) (hg : g ∈ c.parts) (hm : g.flow.mode.MayReturn) :
    (p.node.kind = .ifStmt ∧ (c.node.role = .thenBranch ∨ c.node.role = .elseBranch) ∨
      p.node.kind ≠ .ifStmt ∧ c.node.role = .body) ∧
      FlowNode.inRole? c.node.role (FlowNode.parts p.below p.children) = some g := by
  have hscope : p.node.kind.isScope = false := by rcases hkind with hk | hk | hk <;> rw [hk] <;> rfl
  refine h.orderly.inRole_of_child hp hkind hc hg fun hrole => ?_
  exact (h.still (child_exposed hp hscope hc) ((h.wellFormed p hp).tests c hc hrole) g
    hg).not_mayReturn hm

theorem Regular.mayReturn_conditional (h : Regular path f) (hp : p ∈ exposed path f)
    (hk : p.node.kind = .ifStmt) (hc : c ∈ rootPlaces p.below p.children) (hg : g ∈ c.parts)
    (hm : g.flow.mode.MayReturn) :
    (ofConditional (FlowNode.parts p.below p.children)).mode.MayReturn := by
  obtain ⟨hbranch, hfound⟩ := h.inRole_of_return hp (Or.inl hk) hc hg hm
  rcases hbranch with ⟨-, hr | hr⟩ | ⟨hif, -⟩
  · rw [hr] at hfound
    rw [ofConditional, hfound]
    split
    next a b ha _ => cases ha; exact .merge (Or.inl hm)
    next a ha _ => cases ha; exact hm.demote
    next ha _ => cases ha
    next ha _ => cases ha
  · rw [hr] at hfound
    rw [ofConditional, hfound]
    split
    next a b _ hb => cases hb; exact .merge (Or.inr hm)
    next a _ hb => cases hb
    next b _ hb => cases hb; exact hm.demote
    next _ hb => cases hb
  · exact absurd hk hif

theorem Regular.mayReturn_loop (h : Regular path f) (hp : p ∈ exposed path f)
    (hk : p.node.kind = .loop ∨ p.node.kind = .doWhile) (hc : c ∈ rootPlaces p.below p.children)
    (hg : g ∈ c.parts) (hm : g.flow.mode.MayReturn) :
    (ofLoop p (FlowNode.parts p.below p.children)).mode.MayReturn := by
  obtain ⟨hbranch, hfound⟩ := h.inRole_of_return hp (Or.inr hk) hc hg hm
  rcases hbranch with ⟨hif, -⟩ | ⟨-, hr⟩
  · rw [hif] at hk
    rcases hk with hk | hk <;> cases hk
  · rw [hr] at hfound
    rw [ofLoop, hfound]
    simp only [Option.map_some, Option.getD_some]
    split
    · exact hm
    · exact hm.demote

theorem Regular.mayReturn_switch (h : Regular path f) (hp : p ∈ exposed path f)
    (hk : p.node.kind = .switch) (hc : c ∈ rootPlaces p.below p.children) (hg : g ∈ c.parts)
    (hm : g.flow.mode.MayReturn) :
    (ofSwitch p (FlowNode.parts p.below p.children)).mode.MayReturn := by
  have hscope : p.node.kind.isScope = false := by rw [hk]; rfl
  have hcase : c.node.kind = .caseClause := by
    refine h.orderly.clause_kind hp hk hc fun hrole => ?_
    have hclear := (h.wellFormed p hp).tests c hc (Or.inr (Or.inl hrole))
    exact (h.still (child_exposed hp hscope hc) hclear g hg).not_mayReturn hm
  have hmem : g.flow ∈ ((FlowNode.parts p.below p.children).filter fun k => k.node.kind =
      .caseClause).map (·.flow) := by
    refine List.mem_map_of_mem (List.mem_filter.mpr ⟨mem_parts_children hc hg, ?_⟩)
    rw [Place.parts_statement (by rw [hcase]; rfl)] at hg
    rw [List.mem_singleton.mp hg, decide_eq_true_eq]
    exact hcase
  have hcases := mayReturn_alternatives ⟨g.flow, hmem, hm⟩
  unfold ofSwitch
  simp only
  split
  · exact hcases
  · exact hcases.demote

theorem Regular.mayReturn_part (h : Regular path f) (hp : p ∈ exposed path f)
    (hstatement : p.node.kind.isStatement = true) (hc : c ∈ rootPlaces p.below p.children)
    (hg : g ∈ c.parts) (hm : g.flow.mode.MayReturn) :
    p.flow.mode.MayReturn := by
  have hscope := Kind.isScope_eq_false hstatement
  have hmem : ∃ k ∈ (FlowNode.parts p.below p.children).map (·.flow), k.mode.MayReturn :=
    ⟨g.flow, List.mem_map_of_mem (mem_parts_children hc hg), hm⟩
  have hleaf : p.node.kind.isBranch = true → False := by
    intro hk
    rw [h.orderly.jump_childless hp hk] at hc
    cases hc
  unfold Place.flow ofStatement
  simp only
  split
  next hk => exact (hleaf (by rw [hk]; rfl)).elim
  next hk => exact (hleaf (by rw [hk]; rfl)).elim
  next hk => exact (hleaf (by rw [hk]; rfl)).elim
  next hk => exact (hleaf (by rw [hk]; rfl)).elim
  next => exact Or.inr rfl
  next hk =>
    have hclear := h.operands p hp (Or.inr hk) c hc
    exact absurd hm (h.still (child_exposed hp hscope hc) hclear g hg).not_mayReturn
  next => exact mayReturn_sequence hmem
  next => exact mayReturn_sequence hmem
  next => exact mayReturn_sequence hmem
  next hk => exact absurd hk (h.tryFree p hp).2.1
  next hk => exact h.mayReturn_conditional hp hk hc hg hm
  next hk => exact h.mayReturn_loop hp (Or.inl hk) hc hg hm
  next hk => exact h.mayReturn_loop hp (Or.inr hk) hc hg hm
  next => exact mayReturn_sequence hmem
  next hk => exact h.mayReturn_switch hp hk hc hg hm
  next hk => exact absurd hk (h.tryFree p hp).1
  next => exact mayReturn_alternatives hmem

/-- A jump to a label stays open, whatever stands around it. -/
theorem Regular.goto_open (h : Regular path f) {offset : Int} {id : Nat} (hlaid : Laid offset id f)
    {e : Place} (he : e ∈ exposed path f) (hk : e.node.kind = .gotoStmt) :
    ∃ g ∈ FlowNode.parts path f, ⟨.gotoBranch, e.node.label⟩ ∈ g.flow.openBranches := by
  refine (h.orderly.exists_open_iff hlaid).mpr ⟨e, he, trivial, by simp [Place.settles, hk],
    fun p _ _ _ => ?_⟩
  rintro (⟨hkind, -⟩ | ⟨hkind, -⟩ | ⟨hkind, -⟩) <;> cases hkind

end SyntaxTree

namespace Place

/-- No flow at the place excludes that it completes normally. -/
def Done (p : Place) : Prop :=
  ∀ g ∈ p.parts, g.flow.mode.Completes

theorem done_statement {p : Place} (h : p.node.kind.isStatement = true) :
    p.Done ↔ p.flow.mode.Completes := by
  simp [Done, parts_statement h]

end Place

namespace SyntaxTree

open Extraction.Flow

variable {path : List Node} {f : SyntaxTree} {p c : Place} {g : FlowNode}

theorem Regular.done_conditional (h : Regular path f) (hp : p ∈ exposed path f)
    (hk : p.node.kind = .ifStmt) {x : Part} (hx : x = .thenPart ∨ x = .elsePart)
    (hdone : ∀ c ∈ p.part x, c.Done) : p.Done := by
  have hscope : p.node.kind.isScope = false := by rw [hk]; rfl
  have hchild : ∀ role, (role = .thenBranch ∧ x = .thenPart ∨ role = .elseBranch ∧ x = .elsePart) →
      ∀ a, FlowNode.inRole? role (FlowNode.parts p.below p.children) = some a →
      a.flow.mode.Completes := by
    intro role hrole a ha
    rw [h.orderly.inRole?_parts hp hscope (by rcases hrole with ⟨rfl, _⟩ | ⟨rfl, _⟩ <;> simp)] at ha
    obtain ⟨c, hc, rfl⟩ := Option.map_eq_some_iff.mp ha
    have hcrole : c.node.role = role := by simpa using List.find?_some hc
    have hcmem := List.mem_of_find?_eq_some hc
    have hpart : c ∈ p.part x := by
      refine Place.mem_part.mpr ⟨hcmem, ?_⟩
      rcases hrole with ⟨rfl, rfl⟩ | ⟨rfl, rfl⟩ <;> simp [Place.partOf, hk, hcrole]
    have hparts := h.orderly.statement_of_role hp hcmem
      (by rcases hrole with ⟨rfl, _⟩ | ⟨rfl, _⟩ <;> simp [hcrole])
    exact hdone c hpart ⟨c, c.flow⟩ (by rw [hparts]; exact List.mem_singleton_self _)
  rw [Place.done_statement (by rw [hk]; rfl), Place.flow, ofStatement]
  simp only [hk]
  unfold ofConditional
  split
  next a b ha hb =>
    refine ReturnMode.Completes.merge ?_
    rcases hx with rfl | rfl
    · exact Or.inl (hchild .thenBranch (by simp) a ha)
    · exact Or.inr (hchild .elseBranch (by simp) b hb)
  next => exact ReturnMode.completes_demote _
  next => exact ReturnMode.completes_demote _
  next => simp [ReturnMode.Completes]

theorem done_ofLoop (hk : p.node.kind = .loop ∨ p.node.kind = .doWhile) :
    p.Done ↔ (ofLoop p (FlowNode.parts p.below p.children)).mode.Completes := by
  rcases hk with hk | hk
  · rw [Place.done_statement (by rw [hk]; rfl), Place.flow, ofStatement]
    simp only [hk]
  · rw [Place.done_statement (by rw [hk]; rfl), Place.flow, ofStatement]
    simp only [hk]

theorem Regular.done_loop (h : Regular path f) (hp : p ∈ exposed path f)
    (hk : p.node.kind = .loop ∨ p.node.kind = .doWhile) (hdone : ∀ c ∈ p.part .body, c.Done) :
    p.Done := by
  have hscope : p.node.kind.isScope = false := by rcases hk with hk | hk <;> rw [hk] <;> rfl
  have hbody : ((FlowNode.inRole? .body (FlowNode.parts p.below p.children)).map FlowNode.flow
      |>.getD {}).mode.Completes := by
    rw [h.orderly.inRole?_parts hp hscope (by simp)]
    cases hfound : (rootPlaces p.below p.children).find? fun c => c.node.role = .body with
    | none => simp [ReturnMode.Completes]
    | some c =>
      have hcrole : c.node.role = .body := by simpa using List.find?_some hfound
      have hcmem := List.mem_of_find?_eq_some hfound
      have hpart : c ∈ p.part .body := by
        refine Place.mem_part.mpr ⟨hcmem, ?_⟩
        rcases hk with hk | hk <;> simp [Place.partOf, hk, hcrole]
      have hparts := h.orderly.statement_of_role hp hcmem (by simp [hcrole])
      exact hdone c hpart ⟨c, c.flow⟩ (by rw [hparts]; exact List.mem_singleton_self _)
  rw [done_ofLoop hk]
  unfold ofLoop
  simp only
  split
  · exact hbody
  · exact ReturnMode.completes_demote _

theorem done_tested (hk : p.node.kind = .loop) (htest : p.part .test ≠ []) : p.Done := by
  obtain ⟨c, hc⟩ := List.exists_mem_of_ne_nil _ htest
  obtain ⟨hcmem, hpart⟩ := Place.mem_part.mp hc
  have hrole : c.node.role = .cond := by
    simp only [Place.partOf, hk] at hpart
    split at hpart <;> first | assumption | cases hpart
  have hcond : (p.child? .cond).isNone = false := by
    rw [Option.isNone_eq_false_iff, Place.child?, List.find?_isSome]
    refine ⟨c.node, ?_, by simpa using hrole⟩
    rw [← map_node_rootPlaces p.below p.children]
    exact List.mem_map_of_mem hcmem
  rw [done_ofLoop (Or.inl hk)]
  unfold ofLoop
  simp only [runsBody, hk, hcond]
  exact ReturnMode.completes_demote _

theorem done_switch (hk : p.node.kind = .switch) (hg : g ∈ FlowNode.parts p.below p.children)
    (hcase : g.node.kind = .caseClause) (hdone : g.flow.mode.Completes) : p.Done := by
  have halternatives : (alternatives (((FlowNode.parts p.below p.children).filter fun k =>
      k.node.kind = .caseClause).map (·.flow))).mode.Completes :=
    completes_alternatives ⟨g.flow,
      List.mem_map_of_mem (List.mem_filter.mpr ⟨hg, by simpa using hcase⟩), hdone⟩
  rw [Place.done_statement (by rw [hk]; rfl), Place.flow, ofStatement]
  simp only [hk]
  unfold ofSwitch
  simp only
  split
  · exact halternatives
  · exact ReturnMode.completes_demote _

theorem Regular.done_clause (h : Regular path f) (hp : p ∈ exposed path f)
    (hk : p.node.kind = .switch) (hc : c ∈ p.clauses) (hdone : c.Done) : p.Done := by
  obtain ⟨hcmem, hrole⟩ := List.mem_filter.mp hc
  have hcase := h.orderly.clause_kind hp hk hcmem (by simpa using hrole)
  have hparts := Place.parts_statement (p := c) (by rw [hcase]; rfl)
  have hg : (⟨c, c.flow⟩ : FlowNode) ∈ c.parts := by rw [hparts]; exact List.mem_singleton_self _
  exact done_switch hk (mem_parts_children hcmem hg) hcase (hdone _ hg)

theorem Regular.done_unmatched (h : Regular path f) (hp : p ∈ exposed path f)
    (hk : p.node.kind = .switch) (hdefault : (p.clauses.any (·.node.isDefault)) = false)
    (hheads : ∀ c ∈ p.part .heads, c.Done) : p.Done := by
  by_cases hany : ∃ g ∈ FlowNode.parts p.below p.children, g.node.kind = .caseClause ∧
    g.node.isDefault = true
  · obtain ⟨g, hg, hcase, hgd⟩ := hany
    rw [FlowNode.parts_eq_flatMap] at hg
    obtain ⟨c, hc, hgc⟩ := List.mem_flatMap.mp hg
    by_cases hrole : c.node.role = .cond
    · have hpart : c ∈ p.part .heads := Place.mem_part.mpr ⟨hc, by simp [Place.partOf, hk, hrole]⟩
      exact done_switch hk (mem_parts_children hc hgc) hcase (hheads c hpart g hgc)
    · rw [Place.parts_statement (by rw [h.orderly.clause_kind hp hk hc hrole]; rfl)] at hgc
      rw [List.mem_singleton.mp hgc] at hgd
      have := List.any_eq_false.mp hdefault c (List.mem_filter.mpr ⟨hc, by simpa using hrole⟩)
      exact absurd hgd this
  · rw [Place.done_statement (by rw [hk]; rfl), Place.flow, ofStatement]
    simp only [hk]
    unfold ofSwitch
    simp only
    split
    next hclosed =>
      refine absurd ?_ hany
      obtain ⟨g, hg, hgd⟩ := List.any_eq_true.mp (Bool.and_eq_true_iff.mp hclosed).1
      obtain ⟨hmem, hcase⟩ := List.mem_filter.mp hg
      exact ⟨g, hmem, by simpa using hcase, hgd⟩
    next => exact ReturnMode.completes_demote _

theorem Regular.role_of_open (h : Regular path f) (hp : p ∈ exposed path f)
    (hscope : p.node.kind.isScope = false) (hc : c ∈ rootPlaces p.below p.children)
    (hg : g ∈ c.parts) (hopen : g.flow.openBranches ≠ []) :
    ¬ (c.node.role = .init ∨ c.node.role = .cond ∨ c.node.role = .post) := fun hrole =>
  hopen (h.still (child_exposed hp hscope hc) ((h.wellFormed p hp).tests c hc hrole) g hg).2

theorem Regular.done_loop_target (h : Regular path f) (hp : p ∈ exposed path f)
    (hk : p.node.kind = .loop ∨ p.node.kind = .doWhile) (hc : c ∈ rootPlaces p.below p.children)
    (hg : g ∈ c.parts) {b : BranchTarget} (hb : b ∈ g.flow.openBranches)
    (hmem : b ∈ loopTargets p) : p.Done := by
  have hscope : p.node.kind.isScope = false := by rcases hk with hk | hk <;> rw [hk] <;> rfl
  have hrole := h.role_of_open hp hscope hc hg (List.ne_nil_of_mem hb)
  have hbody : c.node.role = .body := by
    have hroles := h.fits p hp
    rcases hk with hk | hk <;> rw [Fits, hk] at hroles <;> have hr :=
      hroles.subset (role_mem hc) <;> simp only [List.mem_cons, List.not_mem_nil, or_false] at hr
    · rcases hr with hr | hr | hr | hr <;> simp_all
    · rcases hr with hr | hr <;> simp_all
  rw [h.orderly.statement_of_role hp hc (by simp [hbody])] at hg
  rw [List.mem_singleton.mp hg] at hb
  have hfound := h.orderly.inRole?_child hp (Or.inr hk) hc (by simp [hbody])
  rw [hbody] at hfound
  have hmeets : c.flow.meets (loopTargets p) = true :=
    List.any_eq_true.mpr ⟨b, hb, by simpa using hmem⟩
  rw [done_ofLoop hk]
  unfold ofLoop
  simp only [hfound, Option.map_some, Option.getD_some, hmeets, Bool.not_true, Bool.and_false,
    Bool.false_eq_true, if_false]
  exact ReturnMode.completes_demote _

theorem Regular.done_switch_target (h : Regular path f) (hp : p ∈ exposed path f)
    (hk : p.node.kind = .switch) (hc : c ∈ rootPlaces p.below p.children) (hg : g ∈ c.parts)
    (hopen : g.flow.openBranches ≠ []) : p.Done := by
  have hscope : p.node.kind.isScope = false := by rw [hk]; rfl
  have hrole := h.role_of_open hp hscope hc hg hopen
  have hcompletes := h.sane (child_exposed hp hscope hc) g hg hopen
  have hcase := h.orderly.clause_kind hp hk hc fun hr => hrole (Or.inr (Or.inl hr))
  refine h.done_clause hp hk
    (List.mem_filter.mpr ⟨hc, by simpa using fun hr => hrole (Or.inr (Or.inl hr))⟩) ?_
  rw [Place.parts_statement (by rw [hcase]; rfl)] at hg
  rw [List.mem_singleton.mp hg] at hcompletes
  rwa [Place.done_statement (by rw [hcase]; rfl)]

theorem Regular.done_labeled_target (h : Regular path f) (hp : p ∈ exposed path f)
    (hk : p.node.kind = .labeled) (hc : c ∈ rootPlaces p.below p.children) (hg : g ∈ c.parts)
    {b : BranchTarget} (hb : b ∈ g.flow.openBranches) :
    p.Done := by
  have hscope : p.node.kind.isScope = false := by rw [hk]; rfl
  have hcompletes := h.sane (child_exposed hp hscope hc) g hg (List.ne_nil_of_mem hb)
  have hmem := List.mem_map_of_mem (f := FlowNode.flow) (mem_parts_children hc hg)
  have hopen :
      (alternatives ((FlowNode.parts p.below p.children).map (·.flow))).openBranches ≠ [] :=
    List.ne_nil_of_mem (mem_openBranches_alternatives.mpr ⟨_, hmem, hb⟩)
  rw [Place.done_statement (by rw [hk]; rfl), Place.flow, ofStatement]
  simp only [hk]
  rw [sequence_eq_of_openBranches hopen]
  exact completes_alternatives ⟨_, hmem, hcompletes⟩

theorem Regular.done_target (h : Regular path f) (hp : p ∈ exposed path f)
    (hc : c ∈ rootPlaces p.below p.children) (hg : g ∈ c.parts) {b : BranchTarget}
    (hb : b ∈ g.flow.openBranches) (htarget : p.Resolves b) : p.Done := by
  cases hloop : p.node.kind.isLoop with
  | true =>
    have hk := Kind.isLoop_iff.mp hloop
    exact h.done_loop_target hp hk hc hg hb ((Place.resolves_loop hk).mp htarget)
  | false =>
    by_cases hswitch : p.node.kind = .switch
    · exact h.done_switch_target hp hswitch hc hg (List.ne_nil_of_mem hb)
    · by_cases hlabeled : p.node.kind = .labeled
      · exact h.done_labeled_target hp hlabeled hc hg hb
      · exact absurd htarget (Place.not_resolves hloop hswitch hlabeled b)

theorem Regular.done_children (h : Regular path f) (hp : p ∈ exposed path f)
    (hscope : p.node.kind.isScope = false)
    (hnot : p.node.kind ≠ .ifStmt ∧ p.node.kind.isLoop = false ∧ p.node.kind ≠ .switch)
    (hexit : Ending.normal ∈ p.settles) (hdone : ∀ c ∈ rootPlaces p.below p.children, c.Done) :
    p.Done := by
  have hparts : ∀ g ∈ FlowNode.parts p.below p.children, g.flow.mode.Completes := by
    intro g hg
    rw [FlowNode.parts_eq_flatMap] at hg
    obtain ⟨c, hc, hgc⟩ := List.mem_flatMap.mp hg
    exact hdone c hc g hgc
  have hflows : ∀ k ∈ (FlowNode.parts p.below p.children).map (·.flow), k.mode.Completes := by
    intro k hk
    obtain ⟨g, hg, rfl⟩ := List.mem_map.mp hk
    exact hparts g hg
  cases hstatement : p.node.kind.isStatement with
  | false =>
    intro g hg
    rw [Place.parts_plain hstatement hscope] at hg
    exact hparts g hg
  | true =>
    rw [Place.done_statement hstatement, Place.flow, ofStatement]
    rw [Place.settles] at hexit
    split
    next hk => rw [hk] at hexit; simp at hexit
    next hk => rw [hk] at hexit; simp at hexit
    next hk => rw [hk] at hexit; simp at hexit
    next hk => rw [hk] at hexit; simp at hexit
    next hk => rw [hk] at hexit; simp at hexit
    next hk => rw [hk] at hexit; simp at hexit
    next => exact completes_sequence hflows
    next => exact completes_sequence hflows
    next => exact completes_sequence hflows
    next hk => exact absurd hk (h.tryFree p hp).2.1
    next hk => exact absurd hk hnot.1
    next hk => rw [hk] at hnot; cases hnot.2.1
    next hk => rw [hk] at hnot; cases hnot.2.1
    next => exact completes_sequence hflows
    next hk => exact absurd hk hnot.2.2
    next hk => exact absurd hk (h.tryFree p hp).1
    next => exact completes_alternatives_of_forall hflows

end SyntaxTree

end Extraction
