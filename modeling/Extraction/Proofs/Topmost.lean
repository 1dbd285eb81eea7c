import Extraction.Proofs.Selected

/-!
# The topmost selected places

A place is selected if the verdict names it or a node above it.  The places that it names are the
topmost selected ones: no node above them is selected.  What lies below a selected place is selected
too, so the selection is made of whole trees.
-/

namespace Extraction

namespace Place

/-- The place is selected and no node above it is. -/
def Topmost (phase : Nat → Phase) (p : Place) : Prop :=
  phase p.node.id = .selected ∧ ∀ n ∈ p.ancestors, phase n.id ≠ .selected

instance (phase : Nat → Phase) (p : Place) : Decidable (p.Topmost phase) :=
  inferInstanceAs (Decidable (_ ∧ _))

/-- The verdict names the place or a node above it. -/
def IsSelected (w : Verdict) (p : Place) : Prop :=
  p.node.id ∈ w.selected ∨ ∃ n ∈ p.ancestors, n.id ∈ w.selected

instance (w : Verdict) (p : Place) : Decidable (p.IsSelected w) :=
  inferInstanceAs (Decidable (_ ∨ _))

end Place

namespace SyntaxTree

variable {path : List Node} {f : SyntaxTree} {offset : Int} {id : Nat}

theorem mem_ancestors {p q : Place} (hp : p ∈ q.inner) : q.node ∈ p.ancestors := by
  obtain ⟨upper, hupper, -⟩ := exists_upper hp
  rw [hupper, Place.below]
  simp

theorem ancestor_cases {p : Place} (hp : p ∈ placesBelow path f) :
    ∀ n ∈ p.ancestors, n ∈ path ∨ ∃ r ∈ placesBelow path f, r.node = n ∧ p ∈ r.inner := by
  induction f generalizing path with
  | nil => cases hp
  | cons k children rest ihc ihr =>
    intro n hn
    simp only [placesBelow, List.mem_cons, List.mem_append] at hp ⊢
    rcases hp with rfl | hp | hp
    · exact Or.inl hn
    · rcases ihc hp n hn with hpath | ⟨r, hr, hnode, hin⟩
      · rcases List.mem_cons.mp hpath with rfl | hpath
        · exact Or.inr ⟨⟨n, children, path⟩, Or.inl rfl, rfl, hp⟩
        · exact Or.inl hpath
      · exact Or.inr ⟨r, Or.inr (Or.inl hr), hnode, hin⟩
    · rcases ihr hp n hn with hpath | ⟨r, hr, hnode, hin⟩
      · exact Or.inl hpath
      · exact Or.inr ⟨r, Or.inr (Or.inr hr), hnode, hin⟩

theorem ancestor_lt (h : Laid offset id f) (hpath : ∀ n ∈ path, n.id < id) {p : Place}
    (hp : p ∈ placesBelow path f) :
    ∀ n ∈ p.ancestors, n.id < p.node.id := by
  intro n hn
  rcases ancestor_cases hp n hn with hn | ⟨r, hr, rfl, hin⟩
  · have := hpath n hn
    have := laid_bounds h (node_mem_of_mem_placesBelow hp)
    omega
  · exact (inner_bounds h hr hin).2.2

variable {phase : Nat → Phase} {n : Node} {children rest : SyntaxTree}

theorem filter_topmost_selected (hpath : ∀ k ∈ path, phase k.id ≠ .selected)
    (hn : phase n.id = .selected) :
    ((exposed path (.cons n children rest)).filter fun p => p.Topmost phase) =
      ⟨n, children, path⟩ :: (exposed path rest).filter fun p => p.Topmost phase := by
  have hbelow : ((if n.kind.isScope then [] else exposed (n :: path) children).filter fun p =>
      p.Topmost phase) = [] := by
    apply List.filter_eq_nil_iff.mpr
    intro p hp htop
    split at hp
    · cases hp
    · obtain ⟨upper, hupper, -⟩ := exists_upper (exposed_subset _ _ p hp)
      exact (of_decide_eq_true htop).2 n (by rw [hupper]; simp) hn
  rw [exposed, List.filter_cons_of_pos, List.filter_append, hbelow]
  · rfl
  · exact decide_eq_true ⟨hn, hpath⟩

theorem filter_topmost_unselected (hn : phase n.id ≠ .selected) :
    ((exposed path (.cons n children rest)).filter fun p => p.Topmost phase) =
      (if n.kind.isScope then [] else (exposed (n :: path) children).filter fun p =>
      p.Topmost phase) ++
        (exposed path rest).filter fun p => p.Topmost phase := by
  rw [exposed, List.filter_cons_of_neg, List.filter_append]
  · split <;> rfl
  · exact fun htop => hn (of_decide_eq_true htop).1

theorem selected_tree
    (hclosed : ∀ r ∈ placesBelow (n :: path) children, phase r.node.id = .selected)
    (hn : phase n.id = .selected) :
    ∀ k ∈ (Forest.cons n children .nil).toList, phase k.id = .selected := by
  intro k hk
  simp only [Forest.toList, List.append_nil, List.mem_cons] at hk
  rcases hk with rfl | hk
  · exact hn
  · obtain ⟨r, hr, rfl⟩ := exists_place_of_mem (n :: path) hk
    exact hclosed r hr

end SyntaxTree

namespace Trace

open SyntaxTree

variable {sel : Extent} {t : SyntaxTree} {a b : Nat} {m : Place} {s : Trace} {ds : List Diagnostic}

theorem Located.below_unselected (h : Laid 0 0 t) (hm : m ∈ t.places) (hl : Located sel m a b s) :
    ∀ n ∈ m.below, Phase.among a b n.id ≠ .selected := by
  intro n hn hsel
  rw [Phase.among_eq_selected_iff] at hsel
  have hlater := hl.later
  rcases List.mem_cons.mp hn with rfl | hn
  · omega
  · have := ancestor_lt h (List.forall_mem_nil _) hm n hn
    omega

theorem Located.mem_picked_iff_topmost (h : Laid 0 0 t) (hm : m ∈ t.places)
    (hl : Located sel m a b s) {p : Place} (hp : p ∈ m.inner) :
    p ∈ picked sel a b m.inner ↔ p.Topmost (Phase.among a b) := by
  have hc := (laid_children h hm).1
  constructor
  · intro hpick
    obtain ⟨-, hsel, htop⟩ := mem_picked.mp hpick
    refine ⟨hsel, fun n hn hnsel => ?_⟩
    rcases ancestor_cases hp n hn with hn | ⟨r, hr, rfl, hin⟩
    · exact hl.below_unselected h hm n hn hnsel
    · rw [Phase.among_eq_selected_iff] at hnsel
      have hcover := hl.splits.selected _ (node_mem_of_mem_placesBelow hr) hnsel.1 hnsel.2
      rw [isTopLevel_eq_false hc hr hin hcover] at htop
      cases htop
  · rintro ⟨hsel, habove⟩
    obtain ⟨q, hq, hpq⟩ := hl.exists_picked h hm hp hsel
    rcases hpq with rfl | hpq
    · exact hq
    · exact absurd (mem_picked.mp hq).2.1 (habove q.node (mem_ancestors hpq))

theorem Located.mem_inner_of_selected (h : Laid 0 0 t) (hm : m ∈ t.places)
    (hl : Located sel m a b s) {p : Place} (hp : p ∈ t.places)
    (hid : p.node.id ∈ (s.verdict sel ds).selected) : p ∈ m.inner := by
  rw [verdict_selected, hl.gathers.topLevel, List.map_map] at hid
  obtain ⟨q, hq, hqp⟩ := List.mem_map.mp hid
  have hqin := (mem_picked.mp hq).1
  rw [← place_unique h (inner_subset hm q hqin) hp hqp]
  exact hqin

theorem Located.mem_selected_iff (h : Laid 0 0 t) (hm : m ∈ t.places) (hl : Located sel m a b s)
    {p : Place} (hp : p ∈ m.inner) :
    p.node.id ∈ (s.verdict sel ds).selected ↔ p.Topmost (Phase.among a b) := by
  rw [← hl.mem_picked_iff_topmost h hm hp, verdict_selected, hl.gathers.topLevel, List.map_map]
  constructor
  · intro hid
    obtain ⟨q, hq, hqp⟩ := List.mem_map.mp hid
    rw [← place_unique (laid_children h hm).1 (mem_picked.mp hq).1 hp hqp]
    exact hq
  · intro hpick
    exact List.mem_map_of_mem (f := (fun n : Node => n.id) ∘ fun p : Place => p.node) hpick

theorem Located.isSelected_iff (h : Laid 0 0 t) (hm : m ∈ t.places) (hl : Located sel m a b s)
    {p : Place} (hp : p ∈ m.inner) :
    p.IsSelected (s.verdict sel ds) ↔ Phase.among a b p.node.id = .selected := by
  constructor
  · rintro (hid | ⟨n, hn, hid⟩)
    · exact ((hl.mem_selected_iff h hm hp).mp hid).1
    · rw [verdict_selected, hl.gathers.topLevel, List.map_map] at hid
      obtain ⟨q, hq, hqn⟩ := List.mem_map.mp hid
      obtain ⟨hqin, hqsel, -⟩ := mem_picked.mp hq
      have hqid : q.node.id = n.id := hqn
      rcases ancestor_cases hp n hn with hn | ⟨r, hr, rfl, hin⟩
      · exact absurd (hqid ▸ hqsel) (hl.below_unselected h hm n hn)
      · exact hl.selected_inner h hm hr (hqid ▸ hqsel) hin
  · intro hsel
    obtain ⟨q, hq, hpq⟩ := hl.exists_picked h hm hp hsel
    have hqin := (mem_picked.mp hq).1
    have hid : q.node.id ∈ (s.verdict sel ds).selected :=
      (hl.mem_selected_iff h hm hqin).mpr ((hl.mem_picked_iff_topmost h hm hqin).mp hq)
    rcases hpq with rfl | hpq
    · exact Or.inl hid
    · exact Or.inr ⟨q.node, mem_ancestors hpq, hid⟩

end Trace

end Extraction
