import Extraction.Proofs.GoTrees

/-!
# Selected nodes of Go files

The traversal takes a node that it meets after the first selected one for selected as long as the
node does not end beyond the selection: it relies on nodes that come one after the other.  In the
tree of a Go file this fails in one place only.  Where an assignment names the variable of a target
once more behind the target, and the selection begins inside the target, the variable is selected
although it stands before the selection.
-/

namespace Extraction

namespace SyntaxTree

/-- The places that have a node right before them, each with that node. -/
def followers (path : List Node) (before : Option Node) : SyntaxTree → List (Node × Place)
  | .nil => []
  | .cons n children rest =>
    (before.toList.map fun m => (m, ⟨n, children, path⟩)) ++ followers (n :: path) none children ++
      followers path (some n) rest

theorem mem_places_of_follows {path : List Node} {before : Option Node} {f : SyntaxTree}
    {v : Node × Place} (hv : v ∈ followers path before f) : v.2 ∈ placesBelow path f := by
  induction f generalizing path before with
  | nil => cases hv
  | cons n children rest ihc ihr =>
    simp only [followers, List.mem_append, List.mem_map] at hv
    simp only [placesBelow, List.mem_cons, List.mem_append]
    rcases hv with (⟨m, -, rfl⟩ | hv) | hv
    · exact Or.inl rfl
    · exact Or.inr (Or.inl (ihc hv))
    · exact Or.inr (Or.inr (ihr hv))

end SyntaxTree

namespace Trace

open SyntaxTree

/-- The place names a variable once more behind the target `m` of an assignment.  The target holds
the name, and the selection begins inside the target and behind the name. -/
structure Revisits (sel : Extent) (m : Node) (p : Place) : Prop where
  parent : ∃ q ∈ p.parent?, q.kind = .assign ∨ q.kind = .incDec
  name : p.node.kind = .name
  within : p.node.Within ⟨m.start, m.stop⟩
  begins : p.node.start < sel.offset ∧ sel.offset < m.stop

structure Selects (good : Place → Prop) (s : Trace) : Prop where
  topLevel : ∀ n ∈ s.topLevel, ∃ p, good p ∧ p.node = n
  events : ∀ e ∈ s.events.toList, e.EntersSelected → good e.place

variable {sel : Extent} {good : Place → Prop} {s : Trace} {p : Place}

/-- A place that is entered as selected is covered, or was met when something was selected
already. -/
theorem Classifies.selected {s' : Trace} (h : Classifies sel p s s') (hs' : s'.phase = .selected) :
    sel.Covers p.node.start p.node.stop ∨ s.phase = .selected ∧ p.node.stop ≤ sel.past := by
  cases h with
  | outside hphase => exact absurd hs' hphase
  | begins _ hcover => exact Or.inl hcover
  | within hphase _ hstop | joins hphase _ hstop | strays hphase _ hstop =>
    exact Or.inr ⟨hphase, hstop⟩
  | ends | cut => cases hs'

theorem selected_of_classified (hle : p.node.start ≤ p.node.stop)
    (h : (classified sel s p).phase = .selected) :
    s.phase = .selected ∨ sel.offset ≤ p.node.start ∧ p.node.start < p.node.stop := by
  rcases (classifies_classified sel s p hle).selected h with hcover | ⟨hphase, -⟩
  · by_cases hlt : p.node.start < p.node.stop
    · exact Or.inr ⟨hcover.1, hlt⟩
    · cases hphase : s.phase with
      | selected => exact Or.inl rfl
      | undefined | before | after => simp [classified, classify, hphase, hlt] at h
  · exact Or.inl hphase

theorem selected_of_enter (hle : p.node.start ≤ p.node.stop)
    (h : (enter sel s p).2.phase = .selected) :
    s.phase = .selected ∨ sel.offset ≤ p.node.start ∧ p.node.start < p.node.stop := by
  rcases enter_cases sel s hle with heq | ⟨-, heq⟩ | heq
  · rw [heq] at h
    exact Or.inl h
  · rw [heq] at h
    cases h
  · rw [heq, entered_eq, record_phase] at h
    exact selected_of_classified hle h

theorem phase_leave (s : Trace) (p : Place) : (leave s p).phase = s.phase := by
  rcases leave_cases s p with heq | heq | heq <;> simp [heq, left]

theorem selected_of_walk {path : List Node} {f : SyntaxTree} {hi : Int}
    (hf : ∀ n ∈ f.toList, n.start ≤ n.stop ∧ n.stop ≤ hi) :
    (walk (enter sel) leave path f s).state.phase = .selected → s.phase = .selected ∨
      sel.offset < hi := by
  refine walk_induction (P := fun s' : Trace => s'.phase = .selected → s.phase = .selected ∨
    sel.offset < hi)
    (fun s' p hp hs' hphase => ?_) (fun s' p _ hs' hphase => hs' (phase_leave s' p ▸ hphase)) Or.inl
  obtain ⟨hle, hstop⟩ := hf _ (node_mem_of_mem_placesBelow hp)
  rcases selected_of_enter hle hphase with hphase | ⟨hoffset, hlt⟩
  · exact hs' hphase
  · exact Or.inr (by omega)

theorem Selects.classifies {s' : Trace} (h : Selects good s) (hc : Classifies sel p s s')
    (hgood : s'.phase = .selected → good p) : Selects good s' := by
  have hjoined : good p → ∀ n ∈ s.topLevel ++ [p.node], ∃ q, good q ∧ q.node = n := fun hp =>
    List.forall_mem_append.mpr ⟨h.topLevel, List.forall_mem_singleton.mpr ⟨p, hp, rfl⟩⟩
  cases hc with
  | outside | within | ends | cut => exact { h with }
  | begins => exact { h with topLevel := hjoined (hgood rfl) }
  | joins hphase | strays hphase => exact { h with topLevel := hjoined (hgood hphase) }

theorem Selects.enter (h : Selects good s) (hle : p.node.start ≤ p.node.stop)
    (hcover : sel.Covers p.node.start p.node.stop → good p)
    (hselected : s.phase = .selected → p.node.stop ≤ sel.past → good p) :
    Selects good (enter sel s p).2 := by
  have hclassifies := classifies_classified sel s p hle
  have hgood : (classified sel s p).phase = .selected → good p := by
    intro hphase
    rcases hclassifies.selected hphase with hp | ⟨hphase, hstop⟩
    · exact hcover hp
    · exact hselected hphase hstop
  rcases enter_cases sel s hle with heq | ⟨-, heq⟩ | heq
  · rwa [heq]
  · rw [heq]
    exact ⟨List.forall_mem_nil _, h.events⟩
  · have hclassified := h.classifies hclassifies hgood
    rw [heq, entered_eq]
    refine ⟨hclassified.topLevel, fun e he henters => ?_⟩
    simp only [record, Array.toList_append, List.mem_append] at he
    rcases he with he | he
    · exact hclassified.events e he henters
    · obtain ⟨hphase, hplace⟩ := place_of_mem_entering he
      rw [hplace]
      exact hgood (hphase.symm.trans henters.2)

theorem Selects.leave (h : Selects good s) (p : Place) : Selects good (leave s p) := by
  rcases leave_cases s p with heq | heq | heq
  · rwa [heq]
  · rw [heq]
    exact { h with }
  · rw [heq]
    refine ⟨h.topLevel, fun e he henters => ?_⟩
    simp only [left, record, Array.toList_append, List.mem_append] at he
    rcases he with he | he
    · exact h.events e he henters
    · exact absurd henters.1 (kind_of_mem_leaving he)

variable {path : List Node} {n : Node} {children rest : SyntaxTree}

/-- The traversal of a node and of what follows it.  What follows is met after the node was entered
and possibly after its children were traversed. -/
theorem Selects.walk_cons (hentered : Selects good (Trace.enter sel s ⟨n, children, path⟩).2)
    (hchildren : Selects good (walk (Trace.enter sel) Trace.leave (n :: path) children
      (Trace.enter sel s ⟨n, children, path⟩).2).state)
    (hrange : ∀ k ∈ children.toList, k.start ≤ k.stop ∧ k.stop ≤ n.stop)
    (hrest : ∀ s', Selects good s' →
      (s'.phase = .selected → (Trace.enter sel s ⟨n, children, path⟩).2.phase = .selected ∨
        children ≠ .nil ∧ sel.offset < n.stop) →
      Selects good (walk (Trace.enter sel) Trace.leave path rest s').state) :
    Selects good (walk (Trace.enter sel) Trace.leave path (.cons n children rest) s).state := by
  rw [walk]
  rcases hstep : Trace.enter sel s ⟨n, children, path⟩ with ⟨step, s'⟩
  rw [hstep] at hentered hchildren hrest
  cases step with
  | abort reason => exact hentered
  | skip => exact hrest s' hentered Or.inl
  | descend =>
    simp only
    cases hstopped : (walk (Trace.enter sel) Trace.leave (n :: path) children s').stopped with
    | some reason => exact hchildren
    | none =>
      refine hrest _ (hchildren.leave _) fun hphase => ?_
      rw [phase_leave] at hphase
      cases children with
      | nil => exact Or.inl hphase
      | cons => exact (selected_of_walk hrange hphase).imp_right fun hlt => ⟨by simp, hlt⟩

theorem Selects.walk_leaf (hle : n.start ≤ n.stop) (hs : Selects good s)
    (hcover : sel.Covers n.start n.stop → good ⟨n, .nil, path⟩)
    (hselected : s.phase = .selected → n.stop ≤ sel.past → good ⟨n, .nil, path⟩)
    (hrest : ∀ s', Selects good s' →
      (s'.phase = .selected → s.phase = .selected ∨ sel.offset ≤ n.start) →
      Selects good (walk (Trace.enter sel) Trace.leave path rest s').state) :
    Selects good (walk (Trace.enter sel) Trace.leave path (.cons n .nil rest) s).state := by
  have hentered : Selects good (Trace.enter sel s ⟨n, .nil, path⟩).2 :=
    hs.enter hle hcover hselected
  refine hentered.walk_cons hentered (by simp [Forest.toList]) fun s' hs' hphase =>
    hrest s' hs' fun hphase' => ?_
  rcases hphase hphase' with hphase | ⟨hne, -⟩
  · exact (selected_of_enter hle hphase).imp_right And.left
  · exact absurd rfl hne

theorem exists_parent_kind {parent : Option Kind} (hparent : path.head?.map (·.kind) = parent)
    (hkind : parent = some .assign ∨ parent = some .incDec) :
    ∃ q ∈ path.head?, q.kind = .assign ∨ q.kind = .incDec := by
  rcases hkind with hkind | hkind <;> obtain ⟨q, hq, hqkind⟩ :=
    Option.map_eq_some_iff.mp (hparent.trans hkind)
  · exact ⟨q, hq, Or.inl hqkind⟩
  · exact ⟨q, hq, Or.inr hqkind⟩

/-- If something is selected, the selection began by `lo`, and it began by the start of the node
before or, if that is no leaf, inside it. -/
def Ready (sel : Extent) (before : Option (Span × Bool)) (lo : Int) (s : Trace) : Prop :=
  s.phase = .selected → sel.offset ≤ lo ∧ ∀ b ∈ before, sel.offset ≤ b.1.start ∨ b.2 = false ∧
    sel.offset < b.1.stop

theorem Selects.walk {parent : Option Kind} {before : Option (Span × Bool)} {lo hi : Int}
    {f : SyntaxTree} {previous : Option Node} (h : InOrder parent before lo hi f)
    (hparent : path.head?.map (·.kind) = parent)
    (hprevious : ∀ b ∈ before, ∃ m ∈ previous, (⟨m.start, m.stop⟩ : Span) = b.1)
    (hcover : ∀ p ∈ placesBelow path f, sel.Covers p.node.start p.node.stop → good p)
    (hrevisit : ∀ v ∈ followers path previous f, Revisits sel v.1 v.2 → good v.2)
    (hs : Selects good s) (hready : Ready sel before lo s) :
    Selects good (walk (Trace.enter sel) Trace.leave path f s).state := by
  induction h generalizing path previous s with
  | nil => exact hs
  | @next parent before lo hi children rest n leaf hleaf hplain hstart hchildren hrest ihc ihr =>
    have hle := hchildren.le
    simp only [placesBelow, List.mem_cons, List.mem_append] at hcover
    simp only [followers, List.mem_append] at hrevisit
    have hentered : Selects good (Trace.enter sel s ⟨n, children, path⟩).2 := by
      refine hs.enter hle (hcover _ (Or.inl rfl)) fun hphase hstop => ?_
      exact hcover _ (Or.inl rfl) ⟨Int.le_trans (hready hphase).1 hstart, hstop⟩
    have hbegun : (Trace.enter sel s ⟨n, children, path⟩).2.phase = .selected →
        sel.offset ≤ n.start := by
      intro hphase
      rcases selected_of_enter hle hphase with hphase | ⟨hoffset, -⟩
      · exact Int.le_trans (hready hphase).1 hstart
      · exact hoffset
    refine hentered.walk_cons ?_ (fun k hk => ?_) fun s' hs' hphase => ?_
    · exact ihc rfl (by simp) (fun p hp => hcover p (Or.inr (Or.inl hp)))
        (fun v hv => hrevisit v (Or.inl (Or.inr hv))) hentered fun hphase =>
          ⟨hbegun hphase, by simp⟩
    · exact (hchildren.within (Int.le_refl _) (by simp) k hk).2.2
    · refine ihr hparent (fun b hb => ⟨n, rfl, by cases hb; rfl⟩)
        (fun p hp => hcover p (Or.inr (Or.inr hp)))
        (fun v hv => hrevisit v (Or.inr hv)) hs' fun hphase' => ?_
      rcases hphase hphase' with hphase | ⟨hne, hlt⟩
      · have hoffset := hbegun hphase
        refine ⟨Int.le_trans hoffset hle, fun b hb => Or.inl ?_⟩
        cases hb
        exact hoffset
      · refine ⟨Int.le_of_lt hlt, fun b hb => Or.inr ?_⟩
        cases hb
        exact ⟨Bool.eq_false_iff.mpr fun h => hne (hleaf h), hlt⟩
  | @again parent range lo hi rest n hplain hwithin hlo hrest ih =>
    simp only [placesBelow, List.nil_append, List.mem_cons] at hcover
    simp only [followers, List.append_nil, List.mem_append] at hrevisit
    have hbegun : s.phase = .selected → sel.offset ≤ n.start := by
      intro hphase
      rcases (hready hphase).2 _ rfl with hoffset | ⟨hleaf, -⟩
      · exact Int.le_trans hoffset hwithin.1
      · cases hleaf
    refine hs.walk_leaf hwithin.2.1 (hcover _ (Or.inl rfl))
      (fun hphase hstop => hcover _ (Or.inl rfl) ⟨hbegun hphase, hstop⟩) fun s' hs' hphase => ?_
    refine ih hparent (fun b hb => ⟨n, rfl, by cases hb; rfl⟩) (fun p hp => hcover p (Or.inr hp))
      (fun v hv => hrevisit v (Or.inr hv)) hs' fun hphase' => ?_
    have hoffset : sel.offset ≤ n.start := (hphase hphase').elim hbegun id
    have hreach := hwithin.2
    refine ⟨by omega, fun b hb => Or.inl ?_⟩
    cases hb
    exact hoffset
  | @stored parent range leaf lo hi rest n hkind hname hplain hwithin hlo hrest ih =>
    simp only [placesBelow, List.nil_append, List.mem_cons] at hcover
    simp only [followers, List.append_nil, List.mem_append] at hrevisit
    refine hs.walk_leaf hwithin.2.1 (hcover _ (Or.inl rfl))
      (fun hphase hstop => ?_) fun s' hs' hphase => ?_
    · by_cases hoffset : sel.offset ≤ n.start
      · exact hcover _ (Or.inl rfl) ⟨hoffset, hstop⟩
      · -- the name stands before the selection, so the selection began inside the target
        obtain ⟨m, hm, rfl⟩ := hprevious _ rfl
        rcases (hready hphase).2 _ rfl with hstart | ⟨-, hinside⟩
        · exact absurd (Int.le_trans hstart hwithin.1) hoffset
        · refine hrevisit (m, ⟨n, .nil, path⟩)
            (Or.inl (List.mem_map.mpr ⟨m, Option.mem_toList.mpr hm, rfl⟩)) ?_
          exact ⟨exists_parent_kind hparent hkind, hname, hwithin, Int.not_le.mp hoffset, hinside⟩
    · refine ih hparent (by simp) (fun p hp => hcover p (Or.inr hp))
        (fun v hv => hrevisit v (Or.inr hv)) hs' fun hphase' => ⟨?_, by simp⟩
      rcases hphase hphase' with hphase | hoffset
      · exact (hready hphase).1
      · have hreach := hwithin.2
        omega

end Trace

namespace GoCode

open SyntaxTree

/-- In a well-placed file, a node that is selected or entered as selected is covered by the
selection, unless it names a variable once more behind a target inside which the selection
begins. -/
theorem selected_covered_or_revisits (f : File) (hf : f.WellPlaced) (sel : Extent)
    (boundaries : Boundaries) :
    ∃ v, analyze f.tree sel boundaries = .ok v ∧
      (∀ i ∈ v.selected, ∃ p, f.tree.place? i = .ok p ∧
        (sel.Covers p.node.start p.node.stop ∨ ∃ m, (m, p) ∈ followers [] none f.tree ∧
        Trace.Revisits sel m p)) ∧
      ∀ e ∈ (Trace.ofSelection f.tree sel).events.toList, e.EntersSelected →
        sel.Covers e.node.start e.node.stop ∨
          ∃ m, (m, e.place) ∈ followers [] none f.tree ∧ Trace.Revisits sel m e.place := by
  obtain ⟨-, ds, hds⟩ := hf.exists_analyze sel boundaries
  have hselects : Trace.Selects (fun p => p ∈ f.tree.places ∧ (sel.Covers p.node.start p.node.stop ∨
      ∃ m, (m, p) ∈ followers [] none f.tree ∧
      Trace.Revisits sel m p)) (Trace.ofSelection f.tree sel) := by
    exact Trace.Selects.walk hf.inOrder rfl (by simp) (fun p hp hcover => ⟨hp, Or.inl hcover⟩)
      (fun v hv hrevisits => ⟨mem_places_of_follows hv, Or.inr ⟨v.1, hv, hrevisits⟩⟩)
      ⟨List.forall_mem_nil _, by simp⟩ (by simp [Trace.Ready])
  refine ⟨_, hds, fun i hi => ?_, fun e he henters => (hselects.events e he henters).2⟩
  rw [Trace.verdict_selected] at hi
  obtain ⟨n, hn, rfl⟩ := List.mem_map.mp hi
  obtain ⟨p, ⟨hp, hgood⟩, rfl⟩ := hselects.topLevel n hn
  exact ⟨p, hf.grown.place?_eq hp, hgood⟩

/-- Where the index of the array is selected, the array is named once more behind the element. -/
theorem storingFile_covered_or_revisits : storingFile.WellPlaced ∧
    ∃ v, analyze storingFile.tree ⟨71, 1⟩ .everywhere = .ok v ∧ v.selected = [10, 11] ∧
      ∀ i ∈ v.selected, ∃ p, storingFile.tree.place? i = .ok p ∧
        (Extent.Covers ⟨71, 1⟩ p.node.start p.node.stop ∨
          ∃ m, (m, p) ∈ followers [] none storingFile.tree ∧ Trace.Revisits ⟨71, 1⟩ m p) := by
  have hplaced : storingFile.WellPlaced := by decide
  obtain ⟨v, hv, hselected, -⟩ :=
    selected_covered_or_revisits storingFile hplaced ⟨71, 1⟩ .everywhere
  have hrun : (analyze storingFile.tree ⟨71, 1⟩ .everywhere).map (·.selected) = .ok [10, 11] := by
    decide +kernel
  rw [hv] at hrun
  exact ⟨hplaced, v, hv, Except.ok.inj hrun, hselected⟩

/-- The array that is named once more is selected, although it stands before the index. -/
theorem storingFile_selected_uncovered : storingFile.WellPlaced ∧
    (∃ v, analyze storingFile.tree ⟨71, 1⟩ .everywhere = .ok v ∧ ∃ i ∈ v.selected, ∃ p,
      storingFile.tree.place? i = .ok p ∧ ¬ Extent.Covers ⟨71, 1⟩ p.node.start p.node.stop) ∧
    ∃ e ∈ (Trace.ofSelection storingFile.tree ⟨71, 1⟩).events.toList, e.EntersSelected ∧
      ¬ Extent.Covers ⟨71, 1⟩ e.node.start e.node.stop := by
  refine ⟨by decide, ?_, ?_⟩
  · have hrun : (analyze storingFile.tree ⟨71, 1⟩ .everywhere).map (·.selected) = .ok [10, 11] := by
      decide +kernel
    have hplace : (storingFile.tree.place? (11 : Nat)).map (·.node.start) = .ok 69 := by
      decide +kernel
    cases hv : analyze storingFile.tree ⟨71, 1⟩ .everywhere with
    | error fault =>
      rw [hv] at hrun
      cases hrun
    | ok v =>
      cases hp : storingFile.tree.place? (11 : Nat) with
      | error fault =>
        rw [hp] at hplace
        cases hplace
      | ok p =>
        rw [hv] at hrun
        rw [hp] at hplace
        have hselected : v.selected = [10, 11] := Except.ok.inj hrun
        have hstart : p.node.start = 69 := Except.ok.inj hplace
        refine ⟨v, rfl, 11, by rw [hselected]; decide, p, hp, fun hcover => ?_⟩
        have hoffset : (71 : Int) ≤ p.node.start := hcover.1
        omega
  · have hevent : ((Trace.ofSelection storingFile.tree ⟨71, 1⟩).events.toList.any fun e =>
        e.kind = .enter ∧ e.phase = .selected ∧
            ¬ Extent.Covers ⟨71, 1⟩ e.node.start e.node.stop) = true := by
      decide +kernel
    obtain ⟨e, he, hselected⟩ := List.any_eq_true.mp hevent
    obtain ⟨hkind, hphase, hcover⟩ := of_decide_eq_true hselected
    exact ⟨e, he, ⟨hkind, hphase⟩, hcover⟩

end GoCode

end Extraction
