import Extraction.Proofs.Building
import Extraction.Proofs.Placement
import Extraction.Proofs.Siblings
import Extraction.Proofs.Totality

/-!
# Trees of Go files

The tree of a well-placed file is well nested and free of exceptions, and every selection of it has
a verdict.
-/

namespace Extraction

def RaiseFrame.Silent (x : RaiseFrame) : Prop :=
  x.body = [] ∧ x.escaping = []

theorem RaiseFrame.Silent.raise {x : RaiseFrame} (h : x.Silent) : (x.raise []).Silent := by
  unfold RaiseFrame.raise
  split <;> exact h

theorem RaiseFrame.Silent.all {x : RaiseFrame} (h : x.Silent) : x.all = [] := by
  rw [RaiseFrame.all, h.1, h.2]
  rfl

namespace Raises

def Silent (s : Raises) : Prop :=
  ∀ x ∈ s.outermost :: s.inner, x.Silent

theorem Silent.modifyTop {s : Raises} (h : s.Silent) {f : RaiseFrame → RaiseFrame}
    (hf : ∀ x : RaiseFrame, x.Silent → (f x).Silent) : (s.modifyTop f).Silent := by
  obtain ⟨houter, hinner⟩ := List.forall_mem_cons.mp h
  unfold Raises.modifyTop
  split
  next hnone => exact List.forall_mem_cons.mpr ⟨hf _ houter, hinner⟩
  next top rest hsome =>
    rw [hsome] at hinner
    obtain ⟨htop, hrest⟩ := List.forall_mem_cons.mp hinner
    exact List.forall_mem_cons.mpr ⟨houter, List.forall_mem_cons.mpr ⟨hf _ htop, hrest⟩⟩

theorem Silent.pop {s : Raises} (h : s.Silent) : s.pop.Silent := by
  unfold Raises.pop
  split
  · exact h
  next top rest hsome =>
    obtain ⟨houter, hinner⟩ := List.forall_mem_cons.mp h
    rw [hsome] at hinner
    obtain ⟨htop, hrest⟩ := List.forall_mem_cons.mp hinner
    have hbelow : ({ s with inner := rest } : Raises).Silent :=
      List.forall_mem_cons.mpr ⟨houter, hrest⟩
    rw [htop.all]
    exact hbelow.modifyTop fun x hx => hx.raise

theorem Silent.step {s : Raises} (h : s.Silent) {e : Event} (htypes : e.node.types = []) :
    (s.step e).Silent := by
  unfold Raises.step
  simp only [htypes, List.filter_nil]
  split
  · exact h
  · split
    · split
      · obtain ⟨houter, hinner⟩ := List.forall_mem_cons.mp h
        exact List.forall_mem_cons.mpr ⟨houter, List.forall_mem_cons.mpr ⟨⟨rfl, rfl⟩, hinner⟩⟩
      · exact h
    · exact h.modifyTop fun x hx => hx.raise
    · split
      · exact h.modifyTop fun x hx => ⟨by rw [hx.1]; rfl, hx.2⟩
      · exact h
    · split
      · exact h.pop
      · split
        · exact h.modifyTop fun x hx => hx
        · exact h
    · exact h

theorem silent_ofEvents {events : List Event} (h : ∀ e ∈ events, e.node.types = []) :
    (ofEvents events).Silent := by
  suffices hfold : ∀ s : Raises, s.Silent → (events.foldl step s).Silent
    from hfold {} (by simp [Silent, RaiseFrame.Silent])
  induction events with
  | nil => exact fun _ hs => hs
  | cons e events ih =>
    obtain ⟨he, hevents⟩ := List.forall_mem_cons.mp h
    exact fun s hs => ih hevents _ (hs.step he)

end Raises

open SyntaxTree

theorem Trace.throws_verdict {s : Trace} (h : ∀ e ∈ s.events.toList, e.node.types = [])
    (sel : Extent) (ds : List Diagnostic) : (s.verdict sel ds).throws = [] := by
  rw [Trace.verdict]
  split
  · rfl
  · exact (List.forall_mem_cons.mp (Raises.silent_ofEvents h)).1.all

/-- Where every number belongs to one node, the node above a place is the one that has the place
below it. -/
theorem SyntaxTree.Grown.parent_iff {t : SyntaxTree} {count : Nat} (h : Grown count t) {p q : Place}
    (hp : p ∈ t.places) (hq : q ∈ t.places) :
    p.parent? = some q.node ↔ p.node ∈ q.children.roots := by
  have hunique : ∀ a ∈ t.places, ∀ b ∈ t.places, a.node = b.node → a = b := by
    intro a ha b hb hab
    have hplace := h.place?_eq ha
    rw [hab, h.place?_eq hb] at hplace
    exact (Except.ok.inj hplace).symm
  constructor
  · intro hparent
    rcases parent_mem hp with hroot | ⟨q', hq', hbelow, hinner⟩
    · rw [Place.parent?, hroot] at hparent
      cases hparent
    · have hchild := mem_rootPlaces hinner hbelow
      rw [Trace.parent?_of_mem_rootPlaces hchild] at hparent
      have hsame := hunique q' hq' q hq (Option.some.inj hparent)
      rw [← hsame, ← map_node_rootPlaces q'.below q'.children]
      exact List.mem_map_of_mem hchild
  · intro hchild
    rw [← map_node_rootPlaces q.below q.children] at hchild
    obtain ⟨c, hc, hnode⟩ := List.mem_map.mp hchild
    have hplace := inner_subset hq c (rootPlaces_subset _ _ c hc).1
    rw [← hunique c hplace p hp hnode]
    exact Trace.parent?_of_mem_rootPlaces hc

namespace GoCode

theorem File.WellPlaced.grown {f : File} (h : f.WellPlaced) : Grown f.tree.size f.tree := by
  refine ⟨?_, fun n hn => (h.inOrder.within (Int.le_refl _) (by simp) n hn).2.2.1⟩
  rw [Numbered, File.tree, ids_numberFrom, size_numberFrom, List.range_eq_range']

theorem File.WellPlaced.exists_analyze {f : File} (h : f.WellPlaced) (sel : Extent)
    (boundaries : Boundaries) :
    Trace.Grounded sel [] f.tree (Trace.ofSelection f.tree sel) ∧
      ∃ ds, analyze f.tree sel boundaries =
      .ok ((Trace.ofSelection f.tree sel).verdict sel ds) := by
  have hground : Trace.Grounded sel [] f.tree (Trace.ofSelection f.tree sel) :=
    Trace.grounded_walk h.grown.ranges Trace.grounded_initial
  obtain ⟨ds, hds⟩ := hground.exists_validated h.grown.ranges boundaries
  exact ⟨hground, ds, Trace.analyze_of_validated hground.fault hds⟩

/-- The tree of a well-placed file is built in one pass, which never looks for a function where
there is none.  In the tree the links up and down agree, a node has a greater number than the node
above it and lies within it, and no node has to do with exceptions; so no selection raises any. -/
theorem tree_wellNested (f : File) (hf : f.WellPlaced) :
    f.build = some f.tree ∧
    (∀ p ∈ f.tree.places, ∀ q ∈ f.tree.places, p.parent? = some q.node ↔
      p.node ∈ q.children.roots) ∧
    (∀ p ∈ f.tree.places, f.tree.place? p.node.id = .ok p ∧
      p.node.kind ∉ [.tryStmt, .catchClause, .finallyClause, .doWhile] ∧ p.node.types = [] ∧
      ∀ m ∈ p.parent?, m.id < p.node.id ∧ m.start ≤ p.node.start ∧ p.node.stop ≤ m.stop) ∧
    ∀ (sel : Extent) (boundaries : Boundaries), ∃ v, analyze f.tree sel boundaries = .ok v ∧
        v.throws = [] := by
  have hplain : ∀ n ∈ f.tree.toList, n.Plain :=
    fun n hn => (hf.inOrder.within (Int.le_refl _) (by simp) n hn).1
  refine ⟨f.build_eq, fun p hp q hq => hf.grown.parent_iff hp hq, fun p hp => ?_,
    fun sel boundaries => ?_⟩
  · obtain ⟨hkind, htypes⟩ := hplain p.node (node_mem_of_mem_placesBelow hp)
    refine ⟨hf.grown.place?_eq hp, hkind, htypes, fun m hm => ?_⟩
    have hwithin := hf.inOrder.nested (by simp) hp m hm
    exact ⟨id_lt_of_parent _ (by simp) hp m hm, hwithin.1, hwithin.2.2⟩
  · obtain ⟨hground, ds, hds⟩ := hf.exists_analyze sel boundaries
    refine ⟨_, hds, Trace.throws_verdict (fun e he => ?_) sel ds⟩
    exact (hplain e.node (node_mem_of_mem_placesBelow (hground.events e he))).2

/-- A function literal at package level, and a function that stores into an element of an array and
into its result and then returns its result. -/
def storingFile : File where
  start := 0
  size := 110
  decls :=
    [.vars [.funcLit ⟨19, 28⟩ {} (.block ⟨26, 28⟩ [])],
      .func ⟨30, 109⟩ "f"
        { params := [[⟨⟨37, 38⟩, "i", some 0, none⟩]],
          results := [[⟨⟨45, 46⟩, "n", some 1, none⟩]] }
        (.block ⟨52, 109⟩
          [.varDecl ⟨55, 67⟩ [.varSpec [⟨⟨59, 60⟩, "a", some 2, none⟩] []],
            .assign ⟨69, 77⟩ false
              [.index ⟨69, 73⟩ (.ident ⟨⟨69, 70⟩, "a", some 2, none⟩)
              [.ident ⟨⟨71, 72⟩, "i", some 0, none⟩] true]
              [.other ⟨76, 77⟩ []],
            .rangeLoop ⟨79, 99⟩ true [.ident ⟨⟨83, 84⟩, "n", some 1, none⟩] []
              [.ident ⟨⟨93, 94⟩, "a", some 2, none⟩] (.block ⟨95, 99⟩ []),
            .ret ⟨101, 107⟩ []])]
  vars :=
    #[{ name := "i", pos := 37, type := "int", relativeType := "int" },
      { name := "n", pos := 45, type := "int", relativeType := "int" },
      { name := "a", pos := 59, type := "[3]int", relativeType := "[3]int" }]

theorem storingFile_wellNested :
    storingFile.WellPlaced ∧ storingFile.build = some storingFile.tree ∧
    storingFile.tree.size = 20 ∧
    ∃ v, analyze storingFile.tree ⟨69, 8⟩ .everywhere = .ok v ∧ v.throws = [] := by
  have hplaced : storingFile.WellPlaced := by decide
  obtain ⟨hbuild, -, -, hanalyze⟩ := tree_wellNested storingFile hplaced
  exact ⟨hplaced, hbuild, by decide +kernel, hanalyze ⟨69, 8⟩ .everywhere⟩

end GoCode

end Extraction
