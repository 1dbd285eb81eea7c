import Extraction.Proofs.LeavingJumps
import Extraction.Proofs.Siblings

/-!
# Labels of selected jumps

A jump inside a statement stays open in the flow of the statement unless the statement is its
target, or ignores the part that the jump stands in: its flow is then the same whatever the flow of
that part.  In a legal selection every jump to a label is therefore settled by a selected label, by
the label of a topmost selected loop or switch, which need not be selected itself, or by being
ignored.
-/

namespace Extraction

namespace FlowNode

def replace (c : Place) (flow : Flow) (g : FlowNode) : FlowNode :=
  if g.place = c then { g with flow } else g

variable {c : Place} {flow : Flow} {g : FlowNode} {parts : List FlowNode}

@[simp] theorem place_replace (c : Place) (flow : Flow) (g : FlowNode) :
    (replace c flow g).place = g.place := by
  unfold replace
  split <;> rfl

@[simp] theorem node_replace (c : Place) (flow : Flow) (g : FlowNode) :
    (replace c flow g).node = g.node :=
  congrArg Place.node (place_replace c flow g)

theorem replace_of_ne (h : g.place ≠ c) : replace c flow g = g :=
  if_neg h

theorem filter_map_replace (keep : Node → Bool) :
    (parts.map (replace c flow)).filter (fun g => keep g.node) =
      (parts.filter fun g => keep g.node).map (replace c flow) := by
  rw [List.filter_map]
  simp only [Function.comp_def, node_replace]

theorem filter_replace (keep : Node → Bool) (hc : keep c.node = false) :
    (parts.map (replace c flow)).filter
      (fun g => keep g.node) = parts.filter fun g => keep g.node := by
  rw [filter_map_replace]
  refine (List.map_congr_left fun g hg => ?_).trans (List.map_id _)
  refine replace_of_ne fun hplace => ?_
  rw [← hplace] at hc
  exact Bool.eq_false_iff.mp hc (List.mem_filter.mp hg).2

theorem inRole?_replace {role : Role} (h : ∀ g ∈ inRole? role parts, g.place ≠ c) :
    inRole? role (parts.map (replace c flow)) = inRole? role parts := by
  unfold inRole? at h ⊢
  rw [List.find?_map]
  simp only [Function.comp_def, node_replace]
  cases hfound : parts.find? fun g => decide (g.node.role = role) with
  | none => rfl
  | some g => exact congrArg some (replace_of_ne (h g hfound))

variable {path : List Node} {f : SyntaxTree}

theorem flow_of_mem_parts (hg : g ∈ FlowNode.parts path f) : g.flow = g.place.flow := by
  induction f generalizing path with
  | nil => cases hg
  | cons n children rest ihc ihr =>
    simp only [FlowNode.parts, List.mem_append] at hg
    rcases hg with hg | hg
    · split at hg
      · rw [List.mem_singleton.mp hg]
        rfl
      · split at hg
        · cases hg
        · exact ihc hg
    · exact ihr hg

theorem eq_of_place_eq {g' : FlowNode} (hg : g ∈ FlowNode.parts path f)
    (hg' : g' ∈ FlowNode.parts path f) (hplace : g'.place = g.place) : g' = g := by
  have hflow : g'.flow = g.flow := by rw [flow_of_mem_parts hg', flow_of_mem_parts hg, hplace]
  cases g
  cases g'
  cases hplace
  cases hflow
  rfl

theorem inRole?_cases (role : Role) (hg : g ∈ FlowNode.parts path f) :
    inRole? role (FlowNode.parts path f) = some g ∨
      ∀ g' ∈ inRole? role (FlowNode.parts path f), g'.place ≠ g.place := by
  refine or_iff_not_imp_left.mpr fun hne g' hg' hplace => hne ?_
  rw [← eq_of_place_eq hg (List.mem_of_find?_eq_some hg') hplace]
  exact hg'

end FlowNode

namespace Place

/-- The flow of the statement does not depend on the flow of its part at `c`. -/
def Ignores (p c : Place) : Prop :=
  ∀ flow, Flow.ofStatement p ((FlowNode.parts p.below p.children).map (FlowNode.replace c flow)) =
    p.flow

end Place

namespace Flow

open FlowNode

variable {p : Place} {path : List Node} {f : SyntaxTree} {g : FlowNode} {b : BranchTarget}

theorem ofConditional_cases (hg : g ∈ FlowNode.parts path f) (hb : b ∈ g.flow.openBranches) :
    b ∈ (ofConditional (FlowNode.parts path f)).openBranches ∨
      ∀ flow, ofConditional ((FlowNode.parts path f).map (replace g.place flow)) =
        ofConditional (FlowNode.parts path f) := by
  rcases inRole?_cases .thenBranch hg with hthen | hthen
  · exact Or.inl (mem_ofConditional.mpr (Or.inl ⟨g, hthen, hb⟩))
  · rcases inRole?_cases .elseBranch hg with helse | helse
    · exact Or.inl (mem_ofConditional.mpr (Or.inr ⟨g, helse, hb⟩))
    · refine Or.inr fun flow => ?_
      rw [ofConditional, inRole?_replace hthen, inRole?_replace helse]
      rfl

theorem ofLoop_cases (hk : p.node.kind = .loop ∨ p.node.kind = .doWhile)
    (hg : g ∈ FlowNode.parts path f) (hb : b ∈ g.flow.openBranches) :
    b ∈ (ofLoop p (FlowNode.parts path f)).openBranches ∨ p.Resolves b ∨
      ∀ flow, ofLoop p ((FlowNode.parts path f).map (replace g.place flow)) =
      ofLoop p (FlowNode.parts path f) := by
  rcases inRole?_cases .body hg with hbody | hbody
  · by_cases htarget : b ∈ loopTargets p
    · exact Or.inr (Or.inl ((Place.resolves_loop hk).mpr htarget))
    · exact Or.inl (mem_ofLoop.mpr ⟨⟨g, hbody, hb⟩, htarget⟩)
  · refine Or.inr (Or.inr fun flow => ?_)
    rw [ofLoop, inRole?_replace hbody]
    rfl

theorem ofSwitch_cases (hk : p.node.kind = .switch) (hg : g ∈ FlowNode.parts path f)
    (hb : b ∈ g.flow.openBranches) :
    b ∈ (ofSwitch p (FlowNode.parts path f)).openBranches ∨ p.Resolves b ∨
      ∀ flow, ofSwitch p ((FlowNode.parts path f).map (replace g.place flow)) =
      ofSwitch p (FlowNode.parts path f) := by
  by_cases hclause : g.node.kind = .caseClause
  · by_cases htarget : b ∈ switchTargets p
    · exact Or.inr (Or.inl ((Place.resolves_switch hk).mpr htarget))
    · exact Or.inl (mem_ofSwitch.mpr ⟨⟨g, hg, hclause, hb⟩, htarget⟩)
  · refine Or.inr (Or.inr fun flow => ?_)
    rw [ofSwitch, filter_replace (fun n => decide (n.kind = .caseClause)) (decide_eq_false hclause)]
    rfl

/-- A part of a statement with handlers counts if it is the body, a handler or the last final block,
and no other final block replaces it. -/
theorem ofTry_cases (hg : g ∈ FlowNode.parts path f) (hb : b ∈ g.flow.openBranches) :
    b ∈ (ofTry (FlowNode.parts path f)).openBranches ∨
      ∀ flow, ofTry ((FlowNode.parts path f).map (replace g.place flow)) =
      ofTry (FlowNode.parts path f) := by
  have hfinals : ∀ flow, (((FlowNode.parts path f).map (replace g.place flow)).filter fun h =>
      h.node.kind == .finallyClause).getLast? =
        ((FlowNode.parts path f).filter fun h => h.node.kind == .finallyClause).getLast?.map
          (replace g.place flow) := by
    intro flow
    rw [filter_map_replace fun n => n.kind == .finallyClause, List.getLast?_map]
  let keep (n : Node) : Bool :=
    !(n.kind == .finallyClause) && (n.role == .body || n.kind == .catchClause)
  have hkept : keep g.node = true →
      b ∈ (alternatives (((FlowNode.parts path f).filter fun h => keep h.node).map
      (·.flow))).openBranches :=
    fun hkeep => mem_openBranches_alternatives.mpr
      ⟨g.flow, List.mem_map_of_mem (List.mem_filter.mpr ⟨hg, hkeep⟩), hb⟩
  unfold ofTry
  simp only [hfinals]
  cases hlast :
      ((FlowNode.parts path f).filter fun h => h.node.kind == .finallyClause).getLast? with
  | none =>
    cases hkeep : keep g.node with
    | true => exact Or.inl (hkept hkeep)
    | false => exact Or.inr fun flow => by rw [filter_replace keep hkeep]; rfl
  | some final =>
    by_cases hplace : final.place = g.place
    · rw [eq_of_place_eq hg (List.mem_filter.mp (List.mem_of_getLast? hlast)).1 hplace]
      refine Or.inl ?_
      simp only
      split
      · exact hb
      · exact (mem_joinBranches _ _ _).mpr (Or.inr hb)
    · simp only [Option.map_some, replace_of_ne hplace]
      split
      · exact Or.inr fun _ => rfl
      · cases hkeep : keep g.node with
        | true => exact Or.inl ((mem_joinBranches _ _ _).mpr (Or.inl (hkept hkeep)))
        | false => exact Or.inr fun flow => by rw [filter_replace keep hkeep]

end Flow

open SyntaxTree

/-- A jump that is open in a part of a statement is open in the statement, unless the statement is
its target or ignores the part. -/
theorem Place.open_or_settled {p : Place} {g : FlowNode} {b : BranchTarget}
    (hg : g ∈ FlowNode.parts p.below p.children) (hb : b ∈ g.flow.openBranches) :
    b ∈ p.flow.openBranches ∨ p.Resolves b ∨ p.Ignores g.place := by
  unfold Ignores flow Flow.ofStatement
  cases hk : p.node.kind with
  | breakStmt => exact Or.inr (Or.inr fun _ => rfl)
  | continueStmt => exact Or.inr (Or.inr fun _ => rfl)
  | gotoStmt => exact Or.inr (Or.inr fun _ => rfl)
  | fallthroughStmt => exact Or.inr (Or.inr fun _ => rfl)
  | returnStmt => exact Or.inr (Or.inr fun _ => rfl)
  | throwStmt => exact Or.inr (Or.inr fun _ => rfl)
  | block => exact Or.inl (Flow.mem_sequence.mpr ⟨g, hg, hb⟩)
  | caseClause => exact Or.inl (Flow.mem_sequence.mpr ⟨g, hg, hb⟩)
  | finallyClause => exact Or.inl (Flow.mem_sequence.mpr ⟨g, hg, hb⟩)
  | catchClause =>
    rcases FlowNode.inRole?_cases .body hg with hbody | hbody
    · refine Or.inl ?_
      simp only [hbody]
      exact hb
    · refine Or.inr (Or.inr fun flow => ?_)
      simp only [FlowNode.inRole?_replace hbody]
  | ifStmt => exact (Flow.ofConditional_cases hg hb).imp_right Or.inr
  | loop => exact Flow.ofLoop_cases (Or.inl hk) hg hb
  | doWhile => exact Flow.ofLoop_cases (Or.inr hk) hg hb
  | switch => exact Flow.ofSwitch_cases hk hg hb
  | tryStmt => exact (Flow.ofTry_cases hg hb).imp_right Or.inr
  | labeled =>
    by_cases htarget : b = ⟨.breakBranch, p.node.label⟩
    · exact Or.inr (Or.inl ((resolves_labeled hk).mpr htarget))
    · exact Or.inl (Flow.mem_resolve.mpr
        ⟨Flow.mem_sequence.mpr ⟨g, hg, hb⟩, by simpa using htarget⟩)
  | _ => exact Or.inl (Flow.mem_openBranches_alternatives.mpr ⟨g.flow, List.mem_map_of_mem hg, hb⟩)

/-- The place at or around `j` is ignored by the statement it is a part of. -/
def Place.Drops (p j : Place) : Prop :=
  ∃ g ∈ FlowNode.parts p.below p.children, (j = g.place ∨ j ∈ g.place.inner) ∧ p.Ignores g.place

theorem Place.open_of_settles {p : Place} {b : BranchTarget} (hjump : Ending.jumped b ∈ p.settles) :
    b ∈ p.flow.openBranches ∧ p.node.kind.isStatement = true := by
  unfold settles at hjump
  unfold flow Flow.ofStatement
  cases hk : p.node.kind <;> simp_all [Kind.isStatement]

namespace SyntaxTree

variable {path : List Node} {f : SyntaxTree} {j : Place} {b : BranchTarget}

theorem open_or_around (hj : j ∈ exposed path f) (hjump : Ending.jumped b ∈ j.settles) :
    (∃ g ∈ FlowNode.parts path f, (j = g.place ∨ j ∈ g.place.inner) ∧ b ∈ g.flow.openBranches) ∨
      ∃ p ∈ exposed path f, j ∈ p.inner ∧ (p.Resolves b ∨ p.Drops j) := by
  induction f generalizing path with
  | nil => cases hj
  | cons n children rest ihc ihr =>
    simp only [exposed, List.mem_cons, List.mem_append] at hj ⊢
    simp only [FlowNode.parts, List.mem_append]
    rcases hj with rfl | hj | hj
    · obtain ⟨hopen, hstatement⟩ := Place.open_of_settles hjump
      refine Or.inl ⟨⟨_, Place.flow _⟩, Or.inl ?_, Or.inl rfl, hopen⟩
      rw [if_pos hstatement]
      exact List.mem_singleton_self _
    · split at hj
      · cases hj
      next hscope =>
        rw [if_neg hscope, if_neg hscope]
        rcases ihc hj with ⟨g, hg, hat, hb⟩ | ⟨p, hp, hin, hsettled⟩
        · cases hstatement : n.kind.isStatement with
          | true =>
            have hin : j ∈ Place.inner ⟨n, children, path⟩ := exposed_subset _ _ j hj
            rcases Place.open_or_settled (p := ⟨n, children, path⟩) hg hb
              with hopen | hresolves | hignores
            · exact Or.inl ⟨_, Or.inl (List.mem_singleton_self _), Or.inr hin, hopen⟩
            · exact Or.inr ⟨_, Or.inl rfl, hin, Or.inl hresolves⟩
            · exact Or.inr ⟨_, Or.inl rfl, hin, Or.inr ⟨g, hg, hat, hignores⟩⟩
          | false => exact Or.inl ⟨g, Or.inl hg, hat, hb⟩
        · exact Or.inr ⟨p, Or.inr (Or.inl hp), hin, hsettled⟩
    · rcases ihr hj with ⟨g, hg, hat, hb⟩ | ⟨p, hp, hin, hsettled⟩
      · exact Or.inl ⟨g, Or.inr hg, hat, hb⟩
      · exact Or.inr ⟨p, Or.inr (Or.inr hp), hin, hsettled⟩

theorem exposed_around {q : Place} (hq : q ∈ placesBelow path f) (hj : j ∈ exposed path f)
    (hat : j = q ∨ j ∈ q.inner) :
    q ∈ exposed path f ∧ j ∈ exposed q.ancestors (.cons q.node q.children .nil) := by
  rcases hat with rfl | hin
  · refine ⟨hj, ?_⟩
    simp [exposed]
  · obtain ⟨upper, hupper, hfree⟩ := exposed_scopeless hj
    obtain ⟨above, habove, -⟩ := exists_upper hq
    obtain ⟨between, hbetween, -⟩ := exists_upper hin
    have hsplit : upper = between ++ q.node :: above := by
      refine List.append_cancel_right (?_ : _ ++ path = _ ++ path)
      rw [← hupper, hbetween, Place.below, habove]
      simp
    rw [hsplit] at hfree
    constructor
    · refine mem_exposed hq fun u hu n hn => hfree n ?_
      rw [List.append_cancel_right (hu.symm.trans habove)] at hn
      simp [hn]
    · have hbelow : j ∈ placesBelow q.ancestors (.cons q.node q.children .nil) := by
        rw [placesBelow]
        exact List.mem_cons_of_mem _ (List.mem_append_left _ hin)
      refine mem_exposed hbelow fun u hu n hn => ?_
      have hshort : u = between ++ [q.node] := by
        refine List.append_cancel_right (?_ : _ ++ q.ancestors = _ ++ q.ancestors)
        rw [← hu, hbetween, Place.below]
        simp
      rw [hshort] at hn
      refine hfree n ?_
      rcases List.mem_append.mp hn with hn | hn
      · exact List.mem_append_left _ hn
      · rw [List.mem_singleton.mp hn]
        simp

end SyntaxTree

namespace Place

/-- The place is the target of the jump at `j`, which stands inside it. -/
def Takes (p j : Place) : Prop :=
  j ∈ p.inner ∧ ∃ b, Ending.jumped b ∈ j.settles ∧ p.Resolves b

theorem exists_jumped {j : Place} (h : j.node.kind.isBranch = true) :
    ∃ b, Ending.jumped b ∈ j.settles ∧ b.label = j.node.label := by
  unfold settles
  cases hk : j.node.kind <;> simp_all [Kind.isBranch]

theorem Resolves.labeled {p : Place} {b : BranchTarget} (h : p.Resolves b) (hlabel : b.label ≠ "") :
    p.node.kind = .labeled ∧ p.node.label = b.label ∨ Flow.labelOf p = b.label := by
  rcases h with ⟨-, hended⟩ | ⟨-, -, hcontinued⟩ | ⟨rfl, -⟩
  · split at hended
    next => exact Or.inr (hended.resolve_left hlabel).symm
    next => exact Or.inr (hended.resolve_left hlabel).symm
    next => exact Or.inr (hended.resolve_left hlabel).symm
    next hk => exact Or.inl ⟨hk, hended.symm⟩
    next => exact hended.elim
  · exact Or.inr (hcontinued.resolve_left hlabel).symm
  · exact absurd rfl hlabel

theorem labelOf_eq {p q : Place} {label : String} (hp : p ∈ rootPlaces q.below q.children)
    (hlabel : Flow.labelOf p = label) (hne : label ≠ "") :
    q.node.kind = .labeled ∧ q.node.label = label := by
  rw [Flow.labelOf, Trace.parent?_of_mem_rootPlaces hp] at hlabel
  simp only at hlabel
  split at hlabel
  next hk => exact ⟨hk, hlabel⟩
  next => exact absurd hlabel.symm hne

end Place

/-- A jump with a label has the label selected, goes to the label above a topmost selected place, or
is dropped. -/
def Verdict.Settles (w : Verdict) (m j : Place) : Prop :=
  (∃ l ∈ exposed m.below m.children, l.IsSelected w ∧ l.node.kind = .labeled ∧
    l.node.label = j.node.label) ∨
    (∃ p ∈ exposed m.below m.children, p.node.id ∈ w.selected ∧ p.Takes j ∧
      Flow.labelOf p = j.node.label) ∨ ∃ p ∈ exposed m.below m.children, p.IsSelected w ∧ p.Drops j

theorem Trace.Located.settles_of_closed {sel : Extent} {t : SyntaxTree} {a b : Nat} {m : Place}
    {s : Trace} (h : Laid 0 0 t) (hm : m ∈ t.places) (hl : Located sel m a b s)
    (ds : List Diagnostic) (hclosed : (Returns.ofEvents s.events.toList).flow.openBranches = [])
    {j : Place} (hj : j ∈ exposed m.below m.children) (hsel : j.IsSelected (s.verdict sel ds))
    (hbranch : j.node.kind.isBranch = true) (hlabel : j.node.label ≠ "") :
    (s.verdict sel ds).Settles m j := by
  obtain ⟨hroots, hlabels⟩ := hl.returns_selected h hm
  obtain ⟨target, hjump, heq⟩ := Place.exists_jumped hbranch
  have hselected : ∀ p ∈ exposed m.below m.children,
      Phase.among a b p.node.id = .selected → p.IsSelected (s.verdict sel ds) := fun p hp =>
    (hl.isSelected_iff h hm (exposed_subset _ _ p hp)).mpr
  -- the topmost selected place around the jump, which is selected as a whole
  obtain ⟨q, hq, hat⟩ := hl.exists_picked h hm (exposed_subset _ _ j hj)
    ((hl.isSelected_iff h hm (exposed_subset _ _ j hj)).mp hsel)
  have hqin : q ∈ m.inner := (mem_picked.mp hq).1
  have htop := (hl.mem_picked_iff_topmost h hm hqin).mp hq
  have hwhole : ∀ p, p = q ∨ p ∈ q.inner → Phase.among a b p.node.id = .selected := by
    rintro p (rfl | hp)
    · exact htop.1
    · exact hl.selected_inner h hm hqin htop.1 hp
  obtain ⟨hqe, hjq⟩ := exposed_around hqin hj hat
  rcases open_or_around hjq hjump with ⟨g, hg, -, hb⟩ | ⟨p, hp, hin, hsettled⟩
  · have hroot : g ∈ (Returns.ofEvents s.events.toList).roots.roots := by
      rw [hroots]
      exact List.mem_flatMap.mpr ⟨q, List.mem_filter.mpr ⟨hqe, decide_eq_true htop⟩, hg⟩
    by_cases hmet : target.kind = .gotoBranch ∧
      target.label ∈ (Returns.ofEvents s.events.toList).labels
    · obtain ⟨l, hle, hlsel, hkind, hname⟩ := Returns.mem_labelsIn.mp ((hlabels _).mp hmet.2)
      exact Or.inl ⟨l, hle, hselected l hle hlsel, hkind, hname.trans heq⟩
    · have hopen := (Returns.mem_openBranches_flow _ target).mpr (Or.inl ⟨⟨g, hroot, hb⟩, hmet⟩)
      rw [hclosed] at hopen
      cases hopen
  · have hpe := exposed_place hqe p hp
    have hpq : p = q ∨ p ∈ q.inner := by
      have hbelow := exposed_subset _ _ p hp
      simp only [placesBelow, List.append_nil, List.mem_cons] at hbelow
      exact hbelow
    rcases hsettled with hresolves | hdrops
    · rcases hresolves.labeled (heq ▸ hlabel) with ⟨hkind, hname⟩ | hname
      · exact Or.inl ⟨p, hpe, hselected p hpe (hwhole p hpq), hkind, hname.trans heq⟩
      · rcases hpq with rfl | hpq
        · have hid : p.node.id ∈ (s.verdict sel ds).selected :=
            (hl.mem_selected_iff h hm hqin).mpr htop
          exact Or.inr (Or.inl ⟨p, hpe, hid, ⟨hin, target, hjump, hresolves⟩, hname.trans heq⟩)
        · -- the labeled statement right above is selected too
          have hqt := inner_subset hm q hqin
          obtain ⟨r, hr, hpr⟩ := exists_parent hqt hpq
          have hrq := parent_within h hr hqt hpr hpq
          obtain ⟨hkind, hlabeled⟩ := Place.labelOf_eq hpr (hname.trans heq) hlabel
          have hrin : r ∈ m.inner := by
            rcases hrq with rfl | hrq
            · exact hqin
            · exact inner_trans hqin hrq
          have hre := (exposed_around hrin hpe (Or.inr (child_mem_inner hpr))).1
          exact Or.inl ⟨r, hre, hselected r hre (hwhole r hrq), hkind, hlabeled⟩
    · exact Or.inr (Or.inr ⟨p, hpe, hselected p hpe (hwhole p hpq), hdrops⟩)

/-- In a legal selection every jump to a label is settled. -/
theorem legal_labels (s : Sketch) (sel : Extent) (boundaries : Boundaries) :
    ∃ w, analyze s.layout sel boundaries = .ok w ∧
      (w.Legal → ∀ m ∈ s.layout.places, w.method = some m.node.id →
      ∀ j ∈ exposed m.below m.children, j.IsSelected w → j.node.kind.isBranch = true →
        j.node.label ≠ "" → w.Settles m j) := by
  have h : Laid 0 0 s.layout := laid_layout s
  obtain ⟨w, hw, hcases⟩ := Trace.exists_analysis (t := s.layout) sel boundaries h
  refine ⟨w, hw, fun hlegal m' hm' hmethod j hj hsel hbranch hlabel => ?_⟩
  rcases hcases with ⟨m, a, b, ds, hm, hl, -, -, -, -, rfl⟩ | ⟨-, d, method, -, rfl⟩
  · rw [hl.verdict_method] at hmethod
    obtain rfl := place_unique h hm hm' (Option.some.inj hmethod)
    obtain ⟨-, ⟨-, hclosed⟩, -⟩ := (Trace.verdict_legal_iff _ _ _).mp hlegal
    exact hl.settles_of_closed h hm ds hclosed hj hsel hbranch hlabel
  · exact absurd hlegal (List.cons_ne_nil _ _)

/-- A verdict is legal though the selection has a jump to a label that is not selected. -/
def Sketch.Dangles (s : Sketch) (sel : Extent) : Prop :=
  ∃ w, analyze s.layout sel .everywhere = .ok w ∧ w.Legal ∧
    ∃ m ∈ s.layout.places, w.method = some m.node.id ∧
    ∃ j ∈ exposed m.below m.children, j.IsSelected w ∧ j.node.kind.isBranch = true ∧
      j.node.label ≠ "" ∧
      ∀ l ∈ s.layout.places, l.IsSelected w → l.node.kind = .labeled → l.node.label ≠ j.node.label

/-- A loop that is left by a jump to its label. -/
def leftByLabel : Sketch :=
  .file [some (.method "m" true [] [some (.labeled "L" (some (.loop none (some (.operation [])) none
    (some (.block [some (.jump .breakStmt "L")])))))])]

/-- The label is selected with the jump to it. -/
theorem leftByLabel_settles :
    ∃ w, analyze leftByLabel.layout ⟨3, 10⟩ .everywhere = .ok w ∧ w.Legal ∧
    w.Settles (leftByLabel.layout.places.get ⟨1, by decide⟩)
        (leftByLabel.layout.places.get ⟨7, by decide⟩) := by
  let w : Verdict := { diagnostics := [], method := some 1, selected := [3] }
  have hrun : analyze leftByLabel.layout ⟨3, 10⟩ .everywhere = .ok w := by decide +kernel
  obtain ⟨w', hw', hsettles⟩ := legal_labels leftByLabel ⟨3, 10⟩ .everywhere
  obtain rfl : w = w' := Except.ok.inj (hrun.symm.trans hw')
  exact ⟨w, hrun, rfl, hsettles rfl _ (List.get_mem _ _) rfl _ (by decide) (by decide) (by decide)
    (by decide)⟩

/-- A jump that the final block after it replaces. -/
def replacedJump : Sketch :=
  .file [some (.method "m" true [] [some (.labeled "L" (some (.block
    [some (.tryStmt (some (.block [some (.jump .breakStmt "L")])) []
    (some (.block [some (.ret none)])))])))])]

theorem legal_without_labels : leftByLabel.Dangles ⟨4, 8⟩ ∧ replacedJump.Dangles ⟨5, 12⟩ := by
  constructor
  · let w : Verdict := { diagnostics := [], method := some 1, selected := [4] }
    refine ⟨w, by decide +kernel, rfl, leftByLabel.layout.places.get ⟨1, by decide⟩,
      List.get_mem _ _, rfl, leftByLabel.layout.places.get ⟨7, by decide⟩, ?_⟩
    decide
  · let w : Verdict :=
      { diagnostics := [], method := some 1, selected := [5], returnKind := .statementVoid,
        flow := ⟨.allReturn, []⟩ }
    refine ⟨w, by decide +kernel, rfl, replacedJump.layout.places.get ⟨1, by decide⟩,
      List.get_mem _ _, rfl, replacedJump.layout.places.get ⟨7, by decide⟩, ?_⟩
    decide

end Extraction
