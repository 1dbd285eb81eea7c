import Extraction.Syntax.Sketch

/-!
# Ranges and numbers of a laid-out tree

A laid-out forest is numbered in preorder, and the range of a node holds exactly the ranges of the
nodes below it.  Two places of such a forest are therefore nested or apart, and the order of the
numbers, the order of the starts and the order of the traversal are one.
-/

namespace Extraction

namespace Place

/-- The places strictly below a place, in preorder. -/
def inner (p : Place) : List Place :=
  SyntaxTree.placesBelow p.below p.children

end Place

namespace SyntaxTree

/-- The forest starts at `offset`, its numbers at `id`, and every node has one byte before and one
byte after its children. -/
def Laid (offset : Int) (id : Nat) : SyntaxTree → Prop
  | .nil => True
  | .cons n children rest =>
    n.start = offset ∧ n.id = id ∧ n.stop = offset + 2 * (children.size + 1) ∧
      Laid (offset + 1) (id + 1) children ∧ Laid n.stop (id + 1 + children.size) rest

theorem size_map {α β : Type} (f : α → β) (t : Forest α) : (t.map f).size = t.size := by
  induction t with
  | nil => rfl
  | cons n children rest ihc ihr => simp only [Forest.map, Forest.size, ihc, ihr]

theorem roots_map {α β : Type} (f : α → β) (t : Forest α) : (t.map f).roots = t.roots.map f := by
  induction t with
  | nil => rfl
  | cons n children rest _ ihr => simp only [Forest.map, Forest.roots, List.map_cons, ihr]

theorem size_layoutFrom (t : Forest Payload) (offset : Int) (id : Nat) :
    (Sketch.layoutFrom offset id t).size = t.size := by
  induction t generalizing offset id with
  | nil => rfl
  | cons n children rest ihc ihr => simp only [Sketch.layoutFrom, Forest.size, ihc, ihr]

theorem laid_layoutFrom (t : Forest Payload) (offset : Int) (id : Nat) :
    Laid offset id (Sketch.layoutFrom offset id t) := by
  induction t generalizing offset id with
  | nil => trivial
  | cons n children rest ihc ihr =>
    refine ⟨rfl, rfl, ?_, ihc _ _, ?_⟩
    · rw [size_layoutFrom]
    · rw [size_layoutFrom]
      exact ihr _ _

theorem laid_map {f : Node → Node} (hid : ∀ n, (f n).id = n.id)
    (hstart : ∀ n, (f n).start = n.start) (hstop : ∀ n, (f n).stop = n.stop) {t : SyntaxTree}
    {offset : Int} {id : Nat} (h : Laid offset id t) :
    Laid offset id (Forest.map f t) := by
  induction t generalizing offset id with
  | nil => trivial
  | cons n children rest ihc ihr =>
    obtain ⟨h₁, h₂, h₃, hc, hr⟩ := h
    refine ⟨by rw [hstart, h₁], by rw [hid, h₂], ?_, ihc hc, ?_⟩
    · rw [hstop, size_map, h₃]
    · rw [hstop, size_map]
      exact ihr hr

theorem laid_layout (s : Sketch) : Laid 0 0 s.layout :=
  laid_map (f := fun n => { n with binding := n.binding.map (Sketch.declaredIn _) })
    (fun _ => rfl) (fun _ => rfl) (fun _ => rfl) (laid_layoutFrom _ 0 0)

theorem laid_append {f g : SyntaxTree} {offset : Int} {id : Nat} (h : Laid offset id (f ++ g)) :
    Laid offset id f ∧ Laid (offset + 2 * f.size) (id + f.size) g := by
  induction f generalizing offset id with
  | nil => simpa [Laid, Forest.size] using h
  | cons n children rest _ ihr =>
    obtain ⟨h₁, h₂, h₃, hc, hr⟩ := h
    obtain ⟨hrest, hg⟩ := ihr hr
    refine ⟨⟨h₁, h₂, h₃, hc, hrest⟩, ?_⟩
    have hoffset : n.stop + 2 * (rest.size : Int) =
        offset + 2 * ((Forest.cons n children rest).size : Nat) := by
      simp only [Forest.size]
      omega
    have hid : id + 1 + children.size + rest.size = id + (Forest.cons n children rest).size := by
      simp only [Forest.size]
      omega
    rwa [hoffset, hid] at hg

theorem ids_of_laid {f : SyntaxTree} {offset : Int} {id : Nat} (h : Laid offset id f) :
    f.toList.map (·.id) = List.range' id f.size := by
  induction f generalizing offset id with
  | nil => rfl
  | cons n children rest ihc ihr =>
    obtain ⟨-, hid, -, hchildren, hrest⟩ := h
    have hsize : (Forest.cons n children rest).size = 1 + (children.size + rest.size) := by
      simp only [Forest.size]
      omega
    rw [hsize, ← List.range'_append_1, ← List.range'_append_1]
    simp [Forest.toList, ihc hchildren, ihr hrest, hid]

theorem laid_bounds {t : SyntaxTree} {offset : Int} {id : Nat} (h : Laid offset id t) {n : Node}
    (hn : n ∈ t.toList) :
    offset ≤ n.start ∧ n.start + 2 ≤ n.stop ∧ n.stop ≤ offset + 2 * t.size ∧ id ≤ n.id ∧
      n.id < id + t.size := by
  induction t generalizing offset id with
  | nil => simp [Forest.toList] at hn
  | cons m children rest ihc ihr =>
    obtain ⟨h₁, h₂, h₃, hc, hr⟩ := h
    simp only [Forest.toList, List.mem_cons, List.mem_append] at hn
    simp only [Forest.size]
    rcases hn with rfl | hn | hn
    · omega
    · have := ihc hc hn
      omega
    · have := ihr hr hn
      omega

@[simp] theorem map_node_placesBelow (path : List Node) (t : SyntaxTree) :
    (placesBelow path t).map (·.node) = t.toList := by
  induction t generalizing path with
  | nil => rfl
  | cons n children rest ihc ihr =>
    simp only [placesBelow, Forest.toList, List.map_cons, List.map_append, ihc, ihr]

theorem root_mem_placesBelow (path : List Node) (n : Node) (children rest : SyntaxTree) :
    (⟨n, children, path⟩ : Place) ∈ placesBelow path (.cons n children rest) :=
  List.mem_cons_self

theorem node_mem_of_mem_placesBelow {path : List Node} {t : SyntaxTree} {p : Place}
    (h : p ∈ placesBelow path t) :
    p.node ∈ t.toList := by
  rw [← map_node_placesBelow path t]
  exact List.mem_map_of_mem h

theorem exists_place_of_mem (path : List Node) {t : SyntaxTree} {n : Node} (h : n ∈ t.toList) :
    ∃ p ∈ placesBelow path t, p.node = n := by
  rw [← map_node_placesBelow path t] at h
  exact List.mem_map.mp h

@[simp] theorem map_node_rootPlaces (path : List Node) (f : SyntaxTree) :
    (rootPlaces path f).map (·.node) = f.roots := by
  induction f with
  | nil => rfl
  | cons n children rest _ ihr => simp [rootPlaces, Forest.roots, ihr]

theorem rootPlaces_subset (path : List Node) (f : SyntaxTree) :
    ∀ r ∈ rootPlaces path f, r ∈ placesBelow path f ∧ r.ancestors = path := by
  induction f with
  | nil => simp [rootPlaces]
  | cons n children rest _ ihr =>
    intro r hr
    simp only [rootPlaces, List.mem_cons] at hr
    simp only [placesBelow, List.mem_cons, List.mem_append]
    rcases hr with rfl | hr
    · exact ⟨Or.inl rfl, rfl⟩
    · exact ⟨Or.inr (Or.inr (ihr r hr).1), (ihr r hr).2⟩

theorem placesBelow_append (path : List Node) (f g : SyntaxTree) :
    placesBelow path (f ++ g) = placesBelow path f ++ placesBelow path g := by
  induction f with
  | nil => rfl
  | cons n children rest _ ihr =>
    simp only [Forest.cons_append, placesBelow, ihr, List.cons_append, List.append_assoc]

theorem laid_children {path : List Node} {t : SyntaxTree} {offset : Int} {id : Nat}
    (h : Laid offset id t) {p : Place} (hp : p ∈ placesBelow path t) :
    Laid (p.node.start + 1) (p.node.id + 1) p.children ∧
      p.node.stop = p.node.start + 2 * (p.children.size + 1) := by
  induction t generalizing path offset id with
  | nil => simp [placesBelow] at hp
  | cons n children rest ihc ihr =>
    obtain ⟨h₁, h₂, h₃, hc, hr⟩ := h
    simp only [placesBelow, List.mem_cons, List.mem_append] at hp
    rcases hp with rfl | hp | hp
    · exact ⟨by rw [h₁, h₂]; exact hc, by rw [h₁]; exact h₃⟩
    · exact ihc hc hp
    · exact ihr hr hp

theorem inner_size {path : List Node} {t : SyntaxTree} {offset : Int} {id : Nat}
    (h : Laid offset id t) {p : Place} (hp : p ∈ placesBelow path t) :
    p.node.id + p.children.size < id + t.size := by
  induction t generalizing path offset id with
  | nil => simp [placesBelow] at hp
  | cons n children rest ihc ihr =>
    obtain ⟨h₁, h₂, h₃, hc, hr⟩ := h
    simp only [placesBelow, List.mem_cons, List.mem_append] at hp
    simp only [Forest.size]
    rcases hp with rfl | hp | hp
    · simp only
      omega
    · have := ihc hc hp
      omega
    · have := ihr hr hp
      omega

theorem inner_subset {path : List Node} {t : SyntaxTree} {p : Place} (hp : p ∈ placesBelow path t) :
    ∀ q ∈ p.inner, q ∈ placesBelow path t := by
  induction t generalizing path with
  | nil => simp [placesBelow] at hp
  | cons n children rest ihc ihr =>
    intro q hq
    simp only [placesBelow, List.mem_cons, List.mem_append] at hp ⊢
    rcases hp with rfl | hp | hp
    · exact Or.inr (Or.inl hq)
    · exact Or.inr (Or.inl (ihc hp q hq))
    · exact Or.inr (Or.inr (ihr hp q hq))

theorem inner_bounds {path : List Node} {t : SyntaxTree} {offset : Int} {id : Nat}
    (h : Laid offset id t) {p q : Place} (hp : p ∈ placesBelow path t) (hq : q ∈ p.inner) :
    p.node.start < q.node.start ∧ q.node.stop < p.node.stop ∧ p.node.id < q.node.id := by
  obtain ⟨hc, hstop⟩ := laid_children h hp
  have hb := laid_bounds hc (node_mem_of_mem_placesBelow hq)
  omega

theorem ne_of_mem_inner {path : List Node} {t : SyntaxTree} {offset : Int} {id : Nat}
    (h : Laid offset id t) {p q : Place} (hp : p ∈ placesBelow path t) (hq : q ∈ p.inner) :
    q ≠ p := by
  rintro rfl
  exact Nat.lt_irrefl _ (inner_bounds h hp hq).2.2

/-- Of two places, the one with the greater number lies below the other or beyond it. -/
theorem inner_or_beyond {path : List Node} {t : SyntaxTree} {offset : Int} {id : Nat}
    (h : Laid offset id t) {p q : Place} (hp : p ∈ placesBelow path t) (hq : q ∈ placesBelow path t)
    (hpq : p.node.id < q.node.id) :
    q ∈ p.inner ∨ p.node.stop ≤ q.node.start := by
  induction t generalizing path offset id with
  | nil => simp [placesBelow] at hp
  | cons n children rest ihc ihr =>
    obtain ⟨h₁, h₂, h₃, hc, hr⟩ := h
    simp only [placesBelow, List.mem_cons, List.mem_append] at hp hq
    rcases hp with rfl | hp | hp <;> rcases hq with rfl | hq | hq
    · exact absurd hpq (Nat.lt_irrefl _)
    · exact Or.inl hq
    · exact Or.inr (laid_bounds hr (node_mem_of_mem_placesBelow hq)).1
    · have hb := laid_bounds hc (node_mem_of_mem_placesBelow hp)
      simp only at hpq
      omega
    · exact ihc hc hp hq
    · have hb := laid_bounds hc (node_mem_of_mem_placesBelow hp)
      have hb' := laid_bounds hr (node_mem_of_mem_placesBelow hq)
      omega
    · have hb := laid_bounds hr (node_mem_of_mem_placesBelow hp)
      simp only at hpq
      omega
    · have hb := laid_bounds hr (node_mem_of_mem_placesBelow hp)
      have hb' := laid_bounds hc (node_mem_of_mem_placesBelow hq)
      omega
    · exact ihr hr hp hq

theorem place_unique {path : List Node} {t : SyntaxTree} {offset : Int} {id : Nat}
    (h : Laid offset id t) {p q : Place} (hp : p ∈ placesBelow path t) (hq : q ∈ placesBelow path t)
    (hpq : p.node.id = q.node.id) :
    p = q := by
  induction t generalizing path offset id with
  | nil => simp [placesBelow] at hp
  | cons n children rest ihc ihr =>
    obtain ⟨h₁, h₂, h₃, hc, hr⟩ := h
    simp only [placesBelow, List.mem_cons, List.mem_append] at hp hq
    -- a place in one part of the forest has a number that no other part holds
    rcases hp with rfl | hp | hp <;> rcases hq with rfl | hq | hq
    · rfl
    · have hb := laid_bounds hc (node_mem_of_mem_placesBelow hq)
      simp only at hpq
      omega
    · have hb := laid_bounds hr (node_mem_of_mem_placesBelow hq)
      simp only at hpq
      omega
    · have hb := laid_bounds hc (node_mem_of_mem_placesBelow hp)
      simp only at hpq
      omega
    · exact ihc hc hp hq
    · have hb := laid_bounds hc (node_mem_of_mem_placesBelow hp)
      have hb' := laid_bounds hr (node_mem_of_mem_placesBelow hq)
      omega
    · have hb := laid_bounds hr (node_mem_of_mem_placesBelow hp)
      simp only at hpq
      omega
    · have hb := laid_bounds hr (node_mem_of_mem_placesBelow hp)
      have hb' := laid_bounds hc (node_mem_of_mem_placesBelow hq)
      omega
    · exact ihr hr hp hq

theorem start_lt_of_id_lt {path : List Node} {t : SyntaxTree} {offset : Int} {id : Nat}
    (h : Laid offset id t) {p q : Place} (hp : p ∈ placesBelow path t) (hq : q ∈ placesBelow path t)
    (hpq : p.node.id < q.node.id) :
    p.node.start < q.node.start := by
  rcases inner_or_beyond h hp hq hpq with hin | hbeyond
  · exact (inner_bounds h hp hin).1
  · have hb := laid_bounds h (node_mem_of_mem_placesBelow hp)
    omega

theorem exists_upper {path : List Node} {t : SyntaxTree} {p : Place} (hp : p ∈ placesBelow path t) :
    ∃ upper, p.ancestors = upper ++ path ∧ ∀ n ∈ upper, n ∈ t.toList := by
  induction t generalizing path with
  | nil => cases hp
  | cons n children rest ihc ihr =>
    simp only [placesBelow, List.mem_cons, List.mem_append] at hp
    simp only [Forest.toList, List.mem_cons, List.mem_append]
    rcases hp with rfl | hp | hp
    · exact ⟨[], rfl, List.forall_mem_nil _⟩
    · obtain ⟨upper, h, hmem⟩ := ihc hp
      refine ⟨upper ++ [n], by rw [h, List.append_assoc]; rfl, fun k hk => ?_⟩
      rcases List.mem_append.mp hk with hk | hk
      · exact Or.inr (Or.inl (hmem k hk))
      · exact Or.inl (List.mem_singleton.mp hk)
    · obtain ⟨upper, h, hmem⟩ := ihr hp
      exact ⟨upper, h, fun k hk => Or.inr (Or.inr (hmem k hk))⟩

end SyntaxTree

end Extraction
