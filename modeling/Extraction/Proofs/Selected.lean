import Extraction.Proofs.FlowTree
import Extraction.Proofs.Verdicts

/-!
# Selections of consecutive statements

If the top-level selected nodes are consecutive statements of one block or clause, the selected
nodes are those statements and all that is below them.  Their flow is then the flow of a sequence of
statements.
-/

namespace Extraction

/-- The top-level selected nodes of a verdict are consecutive statements of the block or clause at
`q`. -/
structure Selects (t : SyntaxTree) (w : Verdict) (q : Place)
    (before chosen after : SyntaxTree) : Prop where
  place : q ∈ t.places
  kind : q.node.kind = .block ∨ q.node.kind = .caseClause
  children : q.children = before ++ chosen ++ after
  statements : ∀ n ∈ chosen.roots, n.kind.isStatement = true
  nonempty : chosen.roots ≠ []
  selected : w.selected = chosen.roots.map (·.id)

namespace Selects

open SyntaxTree Trace

variable {t : SyntaxTree} {w : Verdict} {q m : Place} {before chosen after : SyntaxTree}
  {sel : Extent} {a b : Nat} {s : Trace} {ds : List Diagnostic}

theorem laid_chosen (hs : Selects t w q before chosen after) (h : Laid 0 0 t) :
    ∃ offset, Laid offset (q.node.id + 1 + before.size) chosen := by
  have hc := (laid_children h hs.place).1
  rw [hs.children] at hc
  exact ⟨_, (laid_append (laid_append hc).1).2⟩

theorem chosen_subset (hs : Selects t w q before chosen after) :
    ∀ p ∈ placesBelow q.below chosen, p ∈ q.inner := by
  intro p hp
  rw [Place.inner, hs.children, placesBelow_append, placesBelow_append]
  simp [hp]

theorem mem_picked_iff (hs : Selects t w q before chosen after) (h : Laid 0 0 t) (hm : m ∈ t.places)
    (hl : Located sel m a b s) (hw : w = s.verdict sel ds) (p : Place) :
    p ∈ picked sel a b m.inner ↔ p ∈ rootPlaces q.below chosen := by
  have hids : (picked sel a b m.inner).map (·.node.id) =
      (rootPlaces q.below chosen).map (·.node.id) := by
    have hselected := hs.selected
    rw [hw, verdict_selected, hl.gathers.topLevel, ← map_node_rootPlaces q.below chosen,
      List.map_map, List.map_map] at hselected
    exact hselected
  have hin : ∀ r ∈ rootPlaces q.below chosen, r ∈ t.places := fun r hr =>
    inner_subset hs.place r (hs.chosen_subset r (rootPlaces_subset _ _ r hr).1)
  have hin' : ∀ r ∈ picked sel a b m.inner, r ∈ t.places :=
    fun r hr => inner_subset hm r (mem_picked.mp hr).1
  constructor
  · intro hp
    have hid := List.mem_map_of_mem (f := fun p : Place => p.node.id) hp
    rw [hids] at hid
    obtain ⟨r, hr, hrp⟩ := List.mem_map.mp hid
    rw [← place_unique h (hin r hr) (hin' p hp) hrp]
    exact hr
  · intro hp
    have hid := List.mem_map_of_mem (f := fun p : Place => p.node.id) hp
    rw [← hids] at hid
    obtain ⟨r, hr, hrp⟩ := List.mem_map.mp hid
    rw [← place_unique h (hin' r hr) (hin p hp) hrp]
    exact hr

theorem exists_rootPlace (hs : Selects t w q before chosen after) :
    ∃ r, r ∈ rootPlaces q.below chosen := by
  refine List.exists_mem_of_ne_nil _ fun hnil => hs.nonempty ?_
  rw [← map_node_rootPlaces q.below chosen, hnil]
  rfl

theorem mem_inner (hs : Selects t w q before chosen after) (h : Laid 0 0 t) (hm : m ∈ t.places)
    (hl : Located sel m a b s) (hw : w = s.verdict sel ds) : q ∈ m.inner := by
  obtain ⟨r, hr⟩ := hs.exists_rootPlace
  have hrin := (mem_picked.mp ((hs.mem_picked_iff h hm hl hw r).mpr hr)).1
  have hparent := (rootPlaces_subset _ _ r hr).2
  rcases parent_mem hrin with hroot | ⟨q', hq', hparent', _⟩
  · -- the method itself is no block and no clause
    rw [hparent] at hroot
    have hnode : q.node = m.node := (List.cons.inj hroot).1
    have hfunction := hl.isFunction
    rw [← hnode] at hfunction
    rcases hs.kind with hk | hk <;> rw [hk] at hfunction <;> cases hfunction
  · rw [hparent] at hparent'
    have hnode : q.node = q'.node := (List.cons.inj hparent').1
    rw [place_unique h hs.place (inner_subset hm q' hq') (by rw [hnode])]
    exact hq'

theorem mem_exposed (hs : Selects t w q before chosen after) (h : Laid 0 0 t) (hm : m ∈ t.places)
    (hl : Located sel m a b s) (hw : w = s.verdict sel ds)
    (hmethod : (q.ancestor? [.method, .lambda, .typeDecl]).map (·.id) = w.method) :
    q ∈ exposed m.below m.children := by
  apply (SyntaxTree.mem_exposed_iff h hm hl.isScope (hs.mem_inner h hm hl hw)).mpr
  rw [hmethod, hw, hl.verdict_method]

theorem selected_iff (hs : Selects t w q before chosen after) (h : Laid 0 0 t) (hm : m ∈ t.places)
    (hl : Located sel m a b s) (hw : w = s.verdict sel ds) {n : Node} (hn : n ∈ m.children.toList) :
    Phase.among a b n.id = .selected ↔
      q.node.id + 1 + before.size ≤ n.id ∧ n.id < q.node.id + 1 + before.size + chosen.size := by
  obtain ⟨offset, hchosen⟩ := hs.laid_chosen h
  have hc := (laid_children h hm).1
  have hqin := hs.mem_inner h hm hl hw
  obtain ⟨p, hp, rfl⟩ := exists_place_of_mem m.below hn
  constructor
  · intro hsel
    obtain ⟨r, hr, hpr⟩ := hl.exists_picked h hm hp hsel
    have hroot := (rootPlaces_subset _ _ r ((hs.mem_picked_iff h hm hl hw r).mp hr)).1
    have hpc : p ∈ placesBelow q.below chosen := by
      rcases hpr with rfl | hpr
      · exact hroot
      · exact inner_subset hroot p hpr
    have := laid_bounds hchosen (node_mem_of_mem_placesBelow hpc)
    omega
  · rintro ⟨hle, hlt⟩
    obtain ⟨k, hk, hkp⟩ := exists_id hchosen hle hlt
    obtain ⟨p', hp', rfl⟩ := exists_place_of_mem q.below hk
    have hpp : p' = p := place_unique hc (inner_trans hqin (hs.chosen_subset p' hp')) hp hkp
    subst hpp
    obtain ⟨r, hr, hpr⟩ := exists_root hp'
    have hpick := (hs.mem_picked_iff h hm hl hw r).mpr hr
    have hrsel := (mem_picked.mp hpick).2.1
    rcases hpr with rfl | hpr
    · exact hrsel
    · exact hl.selected_inner h hm (mem_picked.mp hpick).1 hrsel hpr

/-- The flow of the selection is that of the chosen statements in sequence, but for jumps to labels
among them. -/
theorem flow_eq (hs : Selects t w q before chosen after) (h : Laid 0 0 t) (hm : m ∈ t.places)
    (hl : Located sel m a b s) (hds : (ds.any fun d => d.kind = .noEnclosingMethod) = false)
    (hw : w = s.verdict sel ds)
    (hmethod : (q.ancestor? [.method, .lambda, .typeDecl]).map (·.id) = w.method) :
    w.flow.mode = (Flow.sequence ((FlowNode.parts q.below chosen).map (·.flow))).mode ∧
      ∀ b ∈ (Flow.sequence ((FlowNode.parts q.below chosen).map (·.flow))).openBranches,
        (b.kind = .gotoBranch → b.label ∉ Returns.labelsOf q.below chosen) →
        b ∈ w.flow.openBranches := by
  obtain ⟨earlier, later, hevents, hearlier, -, hlater⟩ := hl.events
  have hscope : q.node.kind.isScope = false := by
    rcases hs.kind with hk | hk <;> rw [hk] <;> rfl
  obtain ⟨done, hdone, hfold⟩ :=
    Returns.foldl_stream_around (laid_children h hm).1 (hs.mem_exposed h hm hl hw hmethod) hscope
    hs.children fun n hn => hs.selected_iff h hm hl hw hn
  obtain ⟨i, hi⟩ := Returns.foldl_unselected (fun e he => (hearlier e he).1.ne_selected) {}
  obtain ⟨j, hj⟩ := hfold (Returns.receiving {} i)
  obtain ⟨k, hk⟩ := Returns.foldl_unselected (fun e he => (hlater e he).1.ne_selected)
    ((((Returns.receiving {} i).attach done).noting (Returns.labelsOf q.below chosen)).receiving j)
  have hreturns : Returns.ofEvents s.events.toList =
      ((Returns.attach {} done).noting (Returns.labelsOf q.below chosen)).receiving k := by
    rw [Returns.ofEvents, hevents, List.foldl_append, List.foldl_append, hi, hj, hk,
      Returns.receiving_attach]
    rfl
  have hflow : w.flow = (Returns.ofEvents s.events.toList).flow := by
    rw [hw, verdict_flow s _ hds]
  have hroots : (Returns.attach {} done).roots.roots = FlowNode.parts q.below chosen := hdone
  rw [hflow, hreturns]
  refine ⟨by rw [← hroots]; rfl, fun b hb hgoto => ?_⟩
  rw [Returns.flow, Flow.mem_joinBranches]
  refine Or.inl (List.mem_filter.mpr ⟨by rw [← hroots] at hb; exact hb, ?_⟩)
  simp only [decide_eq_true_eq, List.mem_map, not_exists, not_and]
  rintro l hl rfl
  rcases (Returns.mem_labels_noting _ _ l).mp hl with hl | hl
  · exact hgoto rfl hl
  · cases hl

end Selects

end Extraction
