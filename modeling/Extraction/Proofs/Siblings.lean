import Mathlib.Data.List.Sort
import Extraction.Proofs.Selected

/-!
# The nodes of a legal selection

What a legal selection names stands side by side: the top-level selected nodes are consecutive
children of one node. The analysis compares parents and looks no further, so the node may be of any
kind, and its children need not be statements.
-/

namespace Extraction

namespace SyntaxTree

variable {sel : Extent} {path : List Node} {f t : SyntaxTree} {offset : Int} {id : Nat}

theorem exists_run (sel : Extent) (h : Laid offset id f) :
    ∃ before chosen after, f = before ++ chosen ++ after ∧
      (∀ n ∈ before.roots, ¬ sel.Covers n.start n.stop) ∧
      (∀ n ∈ chosen.roots, sel.Covers n.start n.stop) ∧
      ∀ n ∈ after.roots, ¬ sel.Covers n.start n.stop := by
  induction f generalizing offset id with
  | nil =>
    exact ⟨.nil, .nil, .nil, rfl, List.forall_mem_nil _, List.forall_mem_nil _,
      List.forall_mem_nil _⟩
  | cons n children rest _ ihr =>
    obtain ⟨hstart, -, hstop, -, hr⟩ := h
    obtain ⟨before, chosen, after, rfl, hbefore, hchosen, hafter⟩ := ihr hr
    by_cases hn : sel.Covers n.start n.stop
    · cases before with
      | nil =>
        exact ⟨.nil, .cons n children chosen, after, rfl, List.forall_mem_nil _,
          List.forall_mem_cons.mpr ⟨hn, hchosen⟩, hafter⟩
      | cons m below others =>
        -- `m` follows a covered root and is not covered, so it ends beyond the selection and so
        -- does all that follows
        have hm : ¬ sel.Covers m.start m.stop := hbefore m List.mem_cons_self
        obtain ⟨hm₁, -, hm₂, -, hrest⟩ := hr
        have hbeyond : sel.past < m.stop := by
          apply Int.not_le.mp
          intro hle
          refine hm ⟨?_, hle⟩
          have := hn.1
          omega
        refine ⟨.nil, .cons n children .nil, .cons m below (others ++ chosen ++ after), rfl,
          List.forall_mem_nil _, ?_, ?_⟩
        · exact List.forall_mem_cons.mpr ⟨hn, List.forall_mem_nil _⟩
        · refine List.forall_mem_cons.mpr ⟨hm, fun k hk hcover => ?_⟩
          have hbounds := laid_bounds hrest (roots_subset k hk)
          have := hcover.2
          omega
    · exact ⟨.cons n children before, chosen, after, rfl, List.forall_mem_cons.mpr ⟨hn, hbefore⟩,
        hchosen, hafter⟩

theorem pairwise_roots (h : Laid offset id f) : (f.roots.map (·.id)).Pairwise (· < ·) := by
  rw [← map_node_rootPlaces [] f, List.map_map, List.pairwise_map]
  exact pairwise_rootPlaces h

end SyntaxTree

namespace Trace

open SyntaxTree

variable {sel : Extent} {t : SyntaxTree} {a b : Nat} {m : Place} {s : Trace}

theorem exists_parent (hm : m ∈ t.places) {p : Place} (hp : p ∈ m.inner) :
    ∃ q ∈ t.places, p ∈ rootPlaces q.below q.children := by
  rcases parent_mem hp with hroot | ⟨q, hq, hparent, hpq⟩
  · exact ⟨m, hm, mem_rootPlaces hp hroot⟩
  · exact ⟨q, inner_subset hm q hq, mem_rootPlaces hpq hparent⟩

theorem parent?_of_mem_rootPlaces {p q : Place} (hp : p ∈ rootPlaces q.below q.children) :
    p.parent? = some q.node := by
  rw [Place.parent?, (rootPlaces_subset _ _ p hp).2]
  rfl

theorem exists_siblings (h : Laid 0 0 t) (hm : m ∈ t.places)
    (hin : ∀ p ∈ t.maximalCovered sel, p ∈ m.inner) (hne : t.maximalCovered sel ≠ [])
    (hparent : ∀ p ∈ t.maximalCovered sel, ∀ q ∈ t.maximalCovered sel, p.parent?.map (·.id) =
    q.parent?.map (·.id)) :
    ∃ q ∈ t.places, ∃ before chosen after, q.children = before ++ chosen ++ after ∧
      (t.maximalCovered sel).map (·.node.id) = chosen.roots.map (·.id) := by
  obtain ⟨first, hfirst⟩ := List.exists_mem_of_ne_nil _ hne
  obtain ⟨q, hq, hchild⟩ := exists_parent hm (hin first hfirst)
  have huncovered : ¬ sel.Covers q.node.start q.node.stop := by
    have htop := (of_decide_eq_true (List.mem_filter.mp hfirst).2).2
    simpa [isTopLevel, parent?_of_mem_rootPlaces hchild] using htop
  have hmem : ∀ p, p ∈ t.maximalCovered sel ↔
      p ∈ rootPlaces q.below q.children ∧ sel.Covers p.node.start p.node.stop := by
    intro p
    constructor
    · intro hp
      obtain ⟨q', hq', hchild'⟩ := exists_parent hm (hin p hp)
      have hsame := hparent p hp first hfirst
      rw [parent?_of_mem_rootPlaces hchild, parent?_of_mem_rootPlaces hchild'] at hsame
      obtain rfl := place_unique h hq' hq (Option.some.inj hsame)
      exact ⟨hchild', (of_decide_eq_true (List.mem_filter.mp hp).2).1⟩
    · rintro ⟨hp, hcover⟩
      refine List.mem_filter.mpr ⟨inner_subset hq p (child_mem_inner hp),
        decide_eq_true ⟨hcover, ?_⟩⟩
      simpa [isTopLevel, parent?_of_mem_rootPlaces hp] using huncovered
  have hlaid := (laid_children h hq).1
  obtain ⟨before, chosen, after, hsplit, hbefore, hchosen, hafter⟩ := exists_run sel hlaid
  refine ⟨q, hq, before, chosen, after, hsplit, ?_⟩
  -- both lists increase, so it is enough that they have the same members
  have hcovered : ∀ n, n ∈ q.children.roots ∧ sel.Covers n.start n.stop ↔ n ∈ chosen.roots := by
    intro n
    rw [hsplit, Forest.roots_append, Forest.roots_append, List.mem_append, List.mem_append]
    constructor
    · rintro ⟨(hn | hn) | hn, hcover⟩
      · exact absurd hcover (hbefore n hn)
      · exact hn
      · exact absurd hcover (hafter n hn)
    · intro hn
      exact ⟨Or.inl (Or.inr hn), hchosen n hn⟩
  have hleft : ((t.maximalCovered sel).map (·.node.id)).Pairwise (· < ·) := by
    rw [List.pairwise_map]
    exact (pairwise_id [] h).filter _
  rw [hsplit] at hlaid
  apply hleft.eq_of_mem_iff (pairwise_roots (laid_append (laid_append hlaid).1).2)
  intro i
  constructor
  · intro hi
    obtain ⟨p, hp, rfl⟩ := List.mem_map.mp hi
    obtain ⟨hroot, hcover⟩ := (hmem p).mp hp
    refine List.mem_map_of_mem ((hcovered p.node).mp ⟨?_, hcover⟩)
    rw [← map_node_rootPlaces q.below q.children]
    exact List.mem_map_of_mem hroot
  · intro hi
    obtain ⟨n, hn, rfl⟩ := List.mem_map.mp hi
    obtain ⟨hroot, hcover⟩ := (hcovered n).mpr hn
    rw [← map_node_rootPlaces q.below q.children] at hroot
    obtain ⟨p, hp, rfl⟩ := List.mem_map.mp hroot
    exact List.mem_map_of_mem (f := fun p : Place => p.node.id) ((hmem p).mpr ⟨hp, hcover⟩)

end Trace

/-- Every selection of every tree has a verdict.  The nodes of a legal one are consecutive children
of one node, and more than a single return. -/
theorem legal_siblings (s : Sketch) (sel : Extent) (boundaries : Boundaries) :
    ∃ w, analyze s.layout sel boundaries = .ok w ∧
      (w.Legal → ∃ q ∈ s.layout.places, ∃ before chosen after, q.children =
        before ++ chosen ++ after ∧
        chosen.roots ≠ [] ∧ w.selected = chosen.roots.map (·.id) ∧ ∀ n, chosen.roots = [n] →
            n.kind ≠ .returnStmt) := by
  have h : SyntaxTree.Laid 0 0 s.layout := SyntaxTree.laid_layout s
  obtain ⟨w, hw, hcases⟩ := Trace.exists_analysis (t := s.layout) sel boundaries h
  refine ⟨w, hw, fun hlegal => ?_⟩
  rcases hcases with ⟨m, a, b, ds, hm, hl, henclosed, hcovered, hds, -, rfl⟩
    | ⟨-, d, method, -, rfl⟩
  · obtain ⟨ds', hds', hiff⟩ := hl.legal_iff (t := s.layout) boundaries rfl h henclosed hcovered hm
    obtain rfl : ds = ds' := Except.ok.inj (hds.symm.trans hds')
    have hadmissible := hiff.mp hlegal
    have huncut := (hl.uncut_iff h hm).mp hadmissible.uncut
    have hmax : s.layout.maximalCovered sel = Trace.picked sel a b m.inner :=
      hl.maximalCovered_eq h hm huncut
    have hne : s.layout.maximalCovered sel ≠ [] := by
      rw [hmax]
      exact hl.picked_ne_nil h hm hcovered
    obtain ⟨q, hq, before, chosen, after, hsplit, hids⟩ := Trace.exists_siblings h hm
      (fun p hp => (Trace.mem_picked.mp (hmax ▸ hp)).1) hne hadmissible.oneParent
    refine ⟨q, hq, before, chosen, after, hsplit, ?_, ?_, ?_⟩
    · rintro hnil
      rw [hnil, List.map_nil, List.map_eq_nil_iff] at hids
      exact hne hids
    · rw [Trace.verdict_selected, hl.gathers.topLevel, ← hids, hmax, List.map_map]
      rfl
    · intro n hn
      rw [hn, List.map_cons, List.map_nil, List.map_eq_singleton_iff] at hids
      obtain ⟨p, hp, hid⟩ := hids
      have hnode : p.node = n := by
        have hchild : n ∈ q.children.roots := by
          rw [hsplit, Forest.roots_append, Forest.roots_append, hn]
          simp
        rw [← SyntaxTree.map_node_rootPlaces q.below q.children] at hchild
        obtain ⟨r, hr, rfl⟩ := List.mem_map.mp hchild
        have hpt : p ∈ s.layout.places := (List.mem_filter.mp (hp ▸ List.mem_singleton_self p)).1
        rw [SyntaxTree.place_unique h hpt
          (SyntaxTree.inner_subset hq r (SyntaxTree.child_mem_inner hr)) hid]
      rw [← hnode]
      exact hadmissible.notReturn p hp
  · exact absurd hlegal (List.cons_ne_nil _ _)

theorem handedOn_siblings : ∃ w, analyze handedOn.layout ⟨7, 14⟩ .everywhere = .ok w ∧ w.Legal ∧
    ∃ q ∈ handedOn.layout.places, ∃ before chosen after, q.children = before ++ chosen ++ after ∧
      chosen.roots.map (·.id) = [5, 9] := by
  have hrun : (analyze handedOn.layout ⟨7, 14⟩ .everywhere).map
      (fun w => (w.diagnostics, w.selected)) = .ok ([], [5, 9]) := by
    decide +kernel
  obtain ⟨w, hw, hsiblings⟩ := legal_siblings handedOn ⟨7, 14⟩ .everywhere
  rw [hw] at hrun
  obtain ⟨hlegal, hselected⟩ := Prod.mk.inj (Except.ok.inj hrun)
  obtain ⟨q, hq, before, chosen, after, hsplit, -, hids, -⟩ := hsiblings hlegal
  exact ⟨w, hw, hlegal, q, hq, before, chosen, after, hsplit, hids.symm.trans hselected⟩

/-- What is selected can be the body of a method: one expression that is no assignment target, or
statements, which are consecutive statements of one block or clause if there are several. -/
def Verdict.MakesBody (w : Verdict) (t : SyntaxTree) : Prop :=
  (∃ p ∈ t.places, w.selected = [p.node.id] ∧ p.node.kind.isExpression = true ∧
    p.node.role ≠ .target) ∨
    (∀ p ∈ t.places, p.node.id ∈ w.selected → p.node.kind.isStatement = true) ∧
      (1 < w.selected.length → ∃ q ∈ t.places, (q.node.kind = .block ∨ q.node.kind = .caseClause) ∧
        ∃ before chosen after, q.children = before ++ chosen ++ after ∧
        w.selected = chosen.roots.map (·.id))

def twoArguments : Sketch :=
  .file [some (.method "m" true []
    [some (.eval (some (.call "f" [] [some (.operation []), some (.operation [])])))])]

/-- Both arguments of a call are a legal selection. -/
theorem legal_arguments :
    analyze twoArguments.layout ⟨5, 4⟩ .everywhere =
        .ok { diagnostics := [], method := some 1, selected := [5, 6] } ∧
      ¬ Verdict.MakesBody { diagnostics := [], method := some 1, selected := [5, 6] }
          twoArguments.layout := by
  refine ⟨by decide +kernel, ?_⟩
  rintro (⟨p, -, hp, -⟩ | ⟨hstatements, -⟩)
  · simp at hp
  · exact absurd (hstatements (twoArguments.layout.places.get ⟨5, by decide⟩) (List.get_mem _ _)
      (by decide)) (by decide)

end Extraction
