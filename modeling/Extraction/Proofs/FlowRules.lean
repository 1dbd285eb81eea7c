import Extraction.Proofs.FlowTree
import Extraction.Proofs.Grammar

/-!
# How flows combine

Two properties of a return mode matter for paths: whether it leaves room for a path that completes
normally and whether it leaves room for one that returns.  Merging keeps both, whichever of the two
sides has them.  A flow with an open jump always leaves room for normal completion.
-/

namespace Extraction

namespace ReturnMode

/-- The mode does not exclude that a path completes normally. -/
def Completes (m : ReturnMode) : Prop :=
  m ≠ .allReturn ∧ m ≠ .throws

def MayReturn (m : ReturnMode) : Prop :=
  m = .someReturn ∨ m = .allReturn

theorem completes_demote (m : ReturnMode) : m.demote.Completes := by
  cases m <;> simp [demote, Completes]

theorem MayReturn.demote {m : ReturnMode} (h : m.MayReturn) : m.demote.MayReturn := by
  rcases h with rfl | rfl <;> exact Or.inl rfl

theorem Completes.merge {a b : ReturnMode} (h : a.Completes ∨ b.Completes) :
    (a.merge b).Completes := by
  cases a <;> cases b <;> simp_all [ReturnMode.merge, Completes]
  split <;> simp

theorem MayReturn.merge {a b : ReturnMode} (h : a.MayReturn ∨ b.MayReturn) :
    (a.merge b).MayReturn := by
  cases a <;> cases b <;> simp_all [ReturnMode.merge, MayReturn]

end ReturnMode

namespace Flow

def Still (f : Flow) : Prop :=
  (f.mode = .noReturn ∨ f.mode = .throws) ∧ f.openBranches = []

/-- A flow with an open jump does not exclude normal completion. -/
def Sane (f : Flow) : Prop :=
  f.openBranches ≠ [] → f.mode.Completes

theorem alternatives_mode {P : ReturnMode → Prop}
    (hmerge : ∀ a b : ReturnMode, P a ∨ P b → P (a.merge b)) {flows : List Flow}
    (h : ∃ f ∈ flows, P f.mode) : P (alternatives flows).mode := by
  have hfold : ∀ (rest : List Flow) (f : Flow), (P f.mode ∨ ∃ g ∈ rest, P g.mode) →
      P (rest.foldl merge f).mode := by
    intro rest
    induction rest with
    | nil =>
      intro f hf
      simpa using hf
    | cons g rest ih =>
      intro f hf
      refine ih _ ?_
      rcases hf with hf | ⟨k, hk, hP⟩
      · exact Or.inl (hmerge _ _ (Or.inl hf))
      · rcases List.mem_cons.mp hk with rfl | hk
        · exact Or.inl (hmerge _ _ (Or.inr hP))
        · exact Or.inr ⟨k, hk, hP⟩
  cases flows with
  | nil => simp at h
  | cons f rest =>
    refine hfold rest f ?_
    simpa using h

theorem mem_openBranches_alternatives {flows : List Flow} {b : BranchTarget} :
    b ∈ (alternatives flows).openBranches ↔ ∃ f ∈ flows, b ∈ f.openBranches := by
  have hfold : ∀ (rest : List Flow) (f : Flow), b ∈ (rest.foldl merge f).openBranches ↔
      b ∈ f.openBranches ∨ ∃ g ∈ rest, b ∈ g.openBranches := by
    intro rest
    induction rest with
    | nil => simp
    | cons g rest ih =>
      intro f
      rw [List.foldl_cons, ih, merge, mem_joinBranches]
      simp [or_assoc]
  cases flows with
  | nil => simp [alternatives]
  | cons f rest => simp [alternatives, hfold]

theorem completes_alternatives {flows : List Flow} (h : ∃ f ∈ flows, f.mode.Completes) :
    (alternatives flows).mode.Completes :=
  alternatives_mode (fun _ _ => .merge) h

theorem mayReturn_alternatives {flows : List Flow} (h : ∃ f ∈ flows, f.mode.MayReturn) :
    (alternatives flows).mode.MayReturn :=
  alternatives_mode (fun _ _ => .merge) h

theorem completes_alternatives_of_forall {flows : List Flow} (h : ∀ f ∈ flows, f.mode.Completes) :
    (alternatives flows).mode.Completes := by
  cases flows with
  | nil => simp [alternatives, ReturnMode.Completes]
  | cons f rest => exact completes_alternatives ⟨f, List.mem_cons_self, h f List.mem_cons_self⟩

theorem openBranches_sequence (flows : List Flow) :
    (sequence flows).openBranches = (alternatives flows).openBranches := by
  unfold sequence
  simp only
  split
  · rfl
  · split
    · rfl
    · split
      · rfl
      · split <;> rfl
      · rfl

theorem mayReturn_sequence {flows : List Flow} (h : ∃ f ∈ flows, f.mode.MayReturn) :
    (sequence flows).mode.MayReturn := by
  have hall := mayReturn_alternatives h
  unfold sequence
  simp only
  split
  · exact hall
  · split
    · exact hall
    · split
      · exact Or.inr rfl
      · rw [if_pos (show _ ∨ _ from hall)]
        exact Or.inr rfl
      · exact hall

theorem sequence_eq_of_openBranches {flows : List Flow}
    (h : (alternatives flows).openBranches ≠ []) :
    sequence flows = alternatives flows := by
  unfold sequence
  simp only [if_pos h]
  split <;> rfl

theorem completes_sequence {flows : List Flow} (h : ∀ f ∈ flows, f.mode.Completes) :
    (sequence flows).mode.Completes := by
  have hall := completes_alternatives_of_forall h
  unfold sequence
  simp only
  split
  · exact hall
  next last hlast =>
    have hcompletes := h last (List.mem_of_getLast? hlast)
    split
    · exact hall
    · split
      next hmode => exact absurd hmode hcompletes.1
      next hmode => exact absurd hmode hcompletes.2
      next => exact hall

theorem sane_alternatives {flows : List Flow} (h : ∀ f ∈ flows, f.Sane) :
    (alternatives flows).Sane := by
  intro hopen
  obtain ⟨b, hb⟩ := List.exists_mem_of_ne_nil _ hopen
  obtain ⟨f, hf, hbf⟩ := mem_openBranches_alternatives.mp hb
  exact completes_alternatives ⟨f, hf, h f hf (List.ne_nil_of_mem hbf)⟩

theorem sane_sequence {flows : List Flow} (h : ∀ f ∈ flows, f.Sane) : (sequence flows).Sane := by
  intro hopen
  rw [openBranches_sequence] at hopen
  rw [sequence_eq_of_openBranches hopen]
  exact sane_alternatives h hopen

theorem Sane.resolve {f : Flow} (h : f.Sane) (targets : List BranchTarget) :
    (f.resolve targets).Sane := by
  intro hopen
  refine h fun hnil => hopen ?_
  simp [Flow.resolve, hnil]

theorem sane_demote (f : Flow) : f.demote.Sane :=
  fun _ => ReturnMode.completes_demote f.mode

theorem Sane.merge {f g : Flow} (hf : f.Sane) (hg : g.Sane) : (f.merge g).Sane :=
  sane_alternatives (by simp [hf, hg] : ∀ k ∈ [f, g], k.Sane)

theorem Still.sane {f : Flow} (h : f.Still) : f.Sane :=
  fun hopen => absurd h.2 hopen

theorem Still.not_mayReturn {f : Flow} (h : f.Still) : ¬ f.mode.MayReturn := by
  rintro (hm | hm) <;> rcases h.1 with hs | hs <;> rw [hm] at hs <;> cases hs

theorem Still.merge {f g : Flow} (hf : f.Still) (hg : g.Still) : (f.merge g).Still := by
  obtain ⟨hfm, hfo⟩ := hf
  obtain ⟨hgm, hgo⟩ := hg
  refine ⟨?_, by simp [Flow.merge, joinBranches, hfo, hgo]⟩
  rcases hfm with hfm | hfm <;> rcases hgm with hgm | hgm <;>
    simp [Flow.merge, ReturnMode.merge, hfm, hgm]

theorem Still.demote {f : Flow} (h : f.Still) : f.demote.Still := by
  refine ⟨Or.inl ?_, h.2⟩
  rcases h.1 with hm | hm <;> simp [Flow.demote, ReturnMode.demote, hm]

theorem Still.resolve {f : Flow} (h : f.Still) (targets : List BranchTarget) :
    (f.resolve targets).Still :=
  ⟨h.1, by simp [Flow.resolve, h.2]⟩

theorem still_alternatives {flows : List Flow} (h : ∀ f ∈ flows, f.Still) :
    (alternatives flows).Still := by
  have hfold : ∀ (rest : List Flow) (f : Flow), f.Still → (∀ g ∈ rest, g.Still) →
      (rest.foldl Flow.merge f).Still := by
    intro rest
    induction rest with
    | nil => exact fun f hf _ => hf
    | cons g rest ih =>
      intro f hf hrest
      exact ih _ (hf.merge (hrest g List.mem_cons_self)) fun k hk =>
        hrest k (List.mem_cons_of_mem _ hk)
  cases flows with
  | nil => exact ⟨Or.inl rfl, rfl⟩
  | cons f rest =>
    exact hfold rest f (h f List.mem_cons_self) fun k hk => h k (List.mem_cons_of_mem _ hk)

theorem still_sequence {flows : List Flow} (h : ∀ f ∈ flows, f.Still) : (sequence flows).Still := by
  have hall := still_alternatives h
  refine ⟨?_, by rw [openBranches_sequence]; exact hall.2⟩
  unfold sequence
  simp only
  split
  · exact hall.1
  next last hlast =>
    have hlastStill := h last (List.mem_of_getLast? hlast)
    split
    · exact hall.1
    · split
      next hmode => rcases hlastStill.1 with hs | hs <;> rw [hmode] at hs <;> cases hs
      next =>
        split
        next hreturn => exact absurd hreturn hall.not_mayReturn
        next => exact Or.inr rfl
      next => exact hall.1

theorem still_getD {o : Option FlowNode} (h : ∀ f ∈ o, f.flow.Still) :
    ((o.map FlowNode.flow).getD {}).Still := by
  cases o with
  | none => exact ⟨Or.inl rfl, rfl⟩
  | some f => exact h f rfl

theorem still_ofConditional {parts : List FlowNode} (h : ∀ f ∈ parts, f.flow.Still) :
    (ofConditional parts).Still := by
  unfold ofConditional
  split
  next a b ha hb =>
    exact (h a (List.mem_of_find?_eq_some ha)).merge (h b (List.mem_of_find?_eq_some hb))
  next a ha _ => exact (h a (List.mem_of_find?_eq_some ha)).demote
  next b _ hb => exact (h b (List.mem_of_find?_eq_some hb)).demote
  next => exact ⟨Or.inl rfl, rfl⟩

theorem still_ofLoop (p : Place) {parts : List FlowNode} (h : ∀ f ∈ parts, f.flow.Still) :
    (ofLoop p parts).Still := by
  have hbody := still_getD (o := FlowNode.inRole? .body parts) fun f hf =>
    h f (List.mem_of_find?_eq_some hf)
  unfold ofLoop
  simp only
  split
  · exact hbody.resolve _
  · exact (hbody.resolve _).demote

theorem still_ofSwitch (p : Place) {parts : List FlowNode} (h : ∀ f ∈ parts, f.flow.Still) :
    (ofSwitch p parts).Still := by
  have hclauses : ∀ f ∈ (parts.filter fun f => f.node.kind = .caseClause).map (·.flow),
      f.Still := by
    intro f hf
    obtain ⟨g, hg, rfl⟩ := List.mem_map.mp hf
    exact h g (List.mem_filter.mp hg).1
  have hcases := (still_alternatives hclauses).resolve (switchTargets p)
  unfold ofSwitch
  simp only
  split
  · exact hcases
  · exact hcases.demote

theorem still_ofStatement {p : Place} {parts : List FlowNode} (hreturn : p.node.kind ≠ .returnStmt)
    (hbranch : p.node.kind.isBranch = false) (htry : p.node.kind ≠ .tryStmt)
    (h : ∀ f ∈ parts, f.flow.Still) :
    (ofStatement p parts).Still := by
  have hflows : ∀ g ∈ parts.map (·.flow), g.Still := by
    intro g hg
    obtain ⟨f, hf, rfl⟩ := List.mem_map.mp hg
    exact h f hf
  unfold ofStatement
  simp only
  split
  next hk => rw [hk] at hbranch; cases hbranch
  next hk => rw [hk] at hbranch; cases hbranch
  next hk => rw [hk] at hbranch; cases hbranch
  next hk => rw [hk] at hbranch; cases hbranch
  next hk => exact absurd hk hreturn
  next => exact ⟨Or.inr rfl, rfl⟩
  next => exact still_sequence hflows
  next => exact still_sequence hflows
  next => exact still_sequence hflows
  next => exact still_getD fun f hf => h f (List.mem_of_find?_eq_some hf)
  next => exact still_ofConditional h
  next => exact still_ofLoop p h
  next => exact still_ofLoop p h
  next => exact (still_sequence hflows).resolve _
  next => exact still_ofSwitch p h
  next hk => exact absurd hk htry
  next => exact still_alternatives hflows

theorem sane_ofConditional {parts : List FlowNode} (h : ∀ f ∈ parts, f.flow.Sane) :
    (ofConditional parts).Sane := by
  unfold ofConditional
  split
  next a b ha hb =>
    exact (h a (List.mem_of_find?_eq_some ha)).merge (h b (List.mem_of_find?_eq_some hb))
  next => exact sane_demote _
  next => exact sane_demote _
  next => exact fun hopen => absurd rfl hopen

theorem sane_getD {o : Option FlowNode} (h : ∀ f ∈ o, f.flow.Sane) :
    ((o.map FlowNode.flow).getD {}).Sane := by
  cases o with
  | none => exact fun hopen => absurd rfl hopen
  | some f => exact h f rfl

/-- Without `try`, the flow of a statement with an open jump does not exclude normal completion. -/
theorem sane_ofStatement {p : Place} {parts : List FlowNode} (htry : p.node.kind ≠ .tryStmt)
    (h : ∀ f ∈ parts, f.flow.Sane) : (ofStatement p parts).Sane := by
  have hflows : ∀ g ∈ parts.map (·.flow), g.Sane := by
    intro g hg
    obtain ⟨f, hf, rfl⟩ := List.mem_map.mp hg
    exact h f hf
  have hbody : ((FlowNode.inRole? .body parts).map FlowNode.flow |>.getD {}).Sane :=
    sane_getD fun f hf => h f (List.mem_of_find?_eq_some hf)
  have hloop : (ofLoop p parts).Sane := by
    unfold ofLoop
    simp only
    split
    · exact hbody.resolve _
    · exact sane_demote _
  have hswitch : (ofSwitch p parts).Sane := by
    unfold ofSwitch
    simp only
    split
    next hclosed =>
      simp only [Bool.and_eq_true, List.isEmpty_iff] at hclosed
      exact fun hopen => absurd hclosed.2 hopen
    next => exact sane_demote _
  unfold ofStatement
  simp only
  split
  next => exact fun _ => by simp [ReturnMode.Completes]
  next => exact fun _ => by simp [ReturnMode.Completes]
  next => exact fun _ => by simp [ReturnMode.Completes]
  next => exact fun _ => by simp [ReturnMode.Completes]
  next => exact fun hopen => absurd rfl hopen
  next => exact fun hopen => absurd rfl hopen
  next => exact sane_sequence hflows
  next => exact sane_sequence hflows
  next => exact sane_sequence hflows
  next => exact hbody
  next => exact sane_ofConditional h
  next => exact hloop
  next => exact hloop
  next => exact (sane_sequence hflows).resolve _
  next => exact hswitch
  next hk => exact absurd hk htry
  next => exact sane_alternatives hflows

end Flow

namespace FlowNode

open SyntaxTree

theorem parts_induction {P : Flow → Prop} {path : List Node} {f : SyntaxTree}
    (hstep : ∀ p ∈ exposed path f, (∀ g ∈ parts p.below p.children, P g.flow) →
      P (Flow.ofStatement p (parts p.below p.children))) : ∀ g ∈ parts path f, P g.flow := by
  induction f generalizing path with
  | nil => simp [parts]
  | cons n children rest ihc ihr =>
    simp only [exposed, List.mem_cons, List.mem_append] at hstep
    intro g hg
    simp only [parts, List.mem_append] at hg
    rcases hg with hg | hg
    · have hbelow : n.kind.isScope = false → ∀ g ∈ parts (n :: path) children, P g.flow := fun hn =>
        ihc fun p hp => hstep p (Or.inr (Or.inl (by rwa [hn])))
      split at hg
      next hstatement =>
        rw [List.mem_singleton.mp hg]
        exact hstep ⟨n, children, path⟩ (Or.inl rfl) (hbelow (Kind.isScope_eq_false hstatement))
      next =>
        split at hg
        · cases hg
        next hscope => exact hbelow (Bool.eq_false_iff.mpr hscope) g hg
    · exact ihr (fun p hp => hstep p (Or.inr (Or.inr hp))) g hg

end FlowNode

namespace Place

open SyntaxTree

def flow (p : Place) : Flow :=
  Flow.ofStatement p (FlowNode.parts p.below p.children)

/-- The outermost statements at or below a place. -/
def parts (p : Place) : List FlowNode :=
  FlowNode.parts p.ancestors (.cons p.node p.children .nil)

theorem parts_statement {p : Place} (h : p.node.kind.isStatement = true) :
    p.parts = [⟨p, p.flow⟩] := by
  simp only [parts, FlowNode.parts, h, if_true, List.append_nil]
  rfl

theorem parts_plain {p : Place} (h : p.node.kind.isStatement = false)
    (hscope : p.node.kind.isScope = false) :
    p.parts = FlowNode.parts p.below p.children := by
  simp [parts, FlowNode.parts, h, hscope, below]

theorem parts_scope {p : Place} (hscope : p.node.kind.isScope = true) : p.parts = [] := by
  have h : p.node.kind.isStatement = false := by
    cases h : p.node.kind.isStatement with
    | false => rfl
    | true => rw [Kind.isScope_eq_false h] at hscope; cases hscope
  simp [parts, FlowNode.parts, h, hscope]

def Clear (p : Place) : Prop :=
  ∀ e ∈ exposed p.ancestors (.cons p.node p.children .nil),
    e.node.kind ≠ .returnStmt ∧ e.node.kind.isBranch = false

/-- Bodies and branches are statements, and the members of a switch are clauses. -/
structure Shaped (p : Place) : Prop where
  branches : ∀ c ∈ p.children.roots, c.role = .thenBranch ∨ c.role = .elseBranch ∨ c.role = .body →
    c.kind.isStatement = true
  members : p.node.kind = .switch → ∀ c ∈ p.children.roots, c.role ≠ .cond → c.kind = .caseClause

/-- Conditions, init and post clauses do not return or jump. -/
structure WellFormed (p : Place) : Prop extends Shaped p where
  tests : ∀ c ∈ rootPlaces p.below p.children, c.node.role = .init ∨ c.node.role = .cond ∨
    c.node.role = .post → c.Clear

instance (p : Place) : Decidable p.Clear :=
  inferInstanceAs (Decidable (∀ e ∈ exposed p.ancestors (.cons p.node p.children .nil), _))

instance (p : Place) : Decidable p.Shaped :=
  decidable_of_iff (_ ∧ _) ⟨fun h => ⟨h.1, h.2⟩, fun h => ⟨h.branches, h.members⟩⟩

instance (p : Place) : Decidable p.WellFormed :=
  decidable_of_iff (p.Shaped ∧ _) ⟨fun h => ⟨h.1, h.2⟩, fun h => ⟨h.toShaped, h.tests⟩⟩

end Place

theorem FlowNode.parts_eq_flatMap (path : List Node) (f : SyntaxTree) :
    FlowNode.parts path f = (SyntaxTree.rootPlaces path f).flatMap Place.parts := by
  induction f with
  | nil => rfl
  | cons n children rest _ ihr =>
    rw [SyntaxTree.rootPlaces, List.flatMap_cons, ← ihr]
    simp [FlowNode.parts, Place.parts]

end Extraction
