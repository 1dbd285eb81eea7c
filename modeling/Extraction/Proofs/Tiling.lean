import Extraction.Proofs.Declared
import Extraction.Proofs.Topmost

/-!
# Trees that are drawn in one pass

A sketch can be drawn node by node: one counter gives the next byte, a node is added below its
parent when it opens and gets its end when it closes.  The tree that comes out is the layout of the
sketch.  Its nodes are numbered in preorder, the children of a node fill its range but for the first
and the last byte, and ranges are nested or apart as the nodes are.  A selection from one sibling to
another therefore covers the trees of the siblings between them and nothing else.
-/

namespace Extraction

namespace SyntaxTree

/-- Adds a forest behind the children of the node `id`. -/
def hang (id : Nat) : SyntaxTree → SyntaxTree → SyntaxTree
  | .nil, _ => .nil
  | .cons n children rest, g =>
    .cons n (if n.id == id then hang id children g ++ g else hang id children g) (hang id rest g)

def attach (t : SyntaxTree) (parent : Option Nat) (g : SyntaxTree) : SyntaxTree :=
  match parent with
  | none => t ++ g
  | some id => t.hang id g

def setStop (id : Nat) (stop : Int) (n : Node) : Node :=
  if n.id = id then { n with stop } else n

section Attach

variable {id : Nat} {parent : Option Nat} {f g t : SyntaxTree}

theorem graft_eq_hang (id : Nat) (n : Node) (t : SyntaxTree) :
    t.graft (fun m => m.id == id) n = t.hang id (.cons n .nil .nil) := by
  induction t with
  | nil => rfl
  | cons m children rest ihc ihr => simp only [Forest.graft, hang, ihc, ihr]

theorem add_eq_attach (t : SyntaxTree) (parent : Option Nat) (n : Node) :
    t.add parent n = t.attach parent (.cons n .nil .nil) := by
  cases parent with
  | none => rfl
  | some id => exact graft_eq_hang id n t

theorem attach_nil (t : SyntaxTree) (parent : Option Nat) : t.attach parent .nil = t := by
  cases parent with
  | none => exact Forest.append_nil t
  | some id =>
    simp only [attach]
    induction t with
    | nil => rfl
    | cons n children rest ihc ihr => simp only [hang, ihc, ihr, Forest.append_nil, ite_self]

theorem hang_append (id : Nat) (g s t : SyntaxTree) :
    (s ++ t).hang id g = s.hang id g ++ t.hang id g := by
  induction s with
  | nil => rfl
  | cons n children rest _ ihr => simp only [Forest.cons_append, hang, ihr]

theorem hang_of_forall_ne (h : ∀ n ∈ t.toList, n.id ≠ id) : t.hang id g = t := by
  induction t with
  | nil => rfl
  | cons n children rest ihc ihr =>
    simp only [Forest.toList, List.forall_mem_cons, List.forall_mem_append] at h
    simp only [hang, beq_eq_false_iff_ne.mpr h.1, Bool.false_eq_true, if_false,
      ihc h.2.1, ihr h.2.2]

theorem hang_attach (h : ∀ n ∈ t.toList, n.id ≠ id) :
    (t.attach parent f).hang id g = t.attach parent (f.hang id g) := by
  cases parent with
  | none => rw [attach, attach, hang_append, hang_of_forall_ne h]
  | some i =>
    simp only [attach]
    induction t with
    | nil => rfl
    | cons n children rest ihc ihr =>
      simp only [Forest.toList, List.forall_mem_cons, List.forall_mem_append] at h
      simp only [hang, beq_eq_false_iff_ne.mpr h.1, Bool.false_eq_true, if_false, ihr h.2.2]
      split
      · rw [hang_append, ihc h.2.1]
      · rw [ihc h.2.1]

theorem attach_twice (h : ∀ n ∈ f.toList, some n.id ≠ parent) :
    (t.attach parent f).attach parent g = t.attach parent (f ++ g) := by
  cases parent with
  | none => exact Forest.append_assoc t f g
  | some i =>
    have hfresh : f.hang i g = f := hang_of_forall_ne fun n hn heq => h n hn (congrArg some heq)
    simp only [attach]
    induction t with
    | nil => rfl
    | cons n children rest ihc ihr =>
      simp only [hang, ihr]
      split
      · rw [hang_append, ihc, hfresh, Forest.append_assoc]
      · rw [ihc]

theorem map_append (k : Node → Node) (s t : SyntaxTree) : (s ++ t).map k = s.map k ++ t.map k := by
  induction s with
  | nil => rfl
  | cons n children rest _ ihr => simp only [Forest.cons_append, Forest.map, ihr]

theorem map_eq_self {k : Node → Node} (h : ∀ n ∈ t.toList, k n = n) : t.map k = t := by
  induction t with
  | nil => rfl
  | cons n children rest ihc ihr =>
    simp only [Forest.toList, List.forall_mem_cons, List.forall_mem_append] at h
    rw [Forest.map, h.1, ihc h.2.1, ihr h.2.2]

theorem map_attach {k : Node → Node} (h : ∀ n ∈ t.toList, k n = n) :
    (t.attach parent g).map k = t.attach parent (g.map k) := by
  cases parent with
  | none => rw [attach, attach, map_append, map_eq_self h]
  | some i =>
    simp only [attach]
    induction t with
    | nil => rfl
    | cons n children rest ihc ihr =>
      simp only [Forest.toList, List.forall_mem_cons, List.forall_mem_append] at h
      simp only [hang, Forest.map, h.1, ihr h.2.2]
      split
      · rw [map_append, ihc h.2.1]
      · rw [ihc h.2.1]

theorem mem_attach {n : Node} (hn : n ∈ (t.attach parent g).toList) :
    n ∈ t.toList ∨ n ∈ g.toList := by
  cases parent with
  | none => simpa [attach] using hn
  | some i =>
    simp only [attach] at hn
    induction t with
    | nil => cases hn
    | cons m children rest ihc ihr =>
      simp only [hang, Forest.toList, List.mem_cons, List.mem_append] at hn ⊢
      rcases hn with hn | hn | hn
      · exact Or.inl (Or.inl hn)
      · split at hn
        · rcases List.mem_append.mp (Forest.toList_append _ _ ▸ hn) with hn | hn
          · exact (ihc hn).imp_left fun h => Or.inr (Or.inl h)
          · exact Or.inr hn
        · exact (ihc hn).imp_left fun h => Or.inr (Or.inl h)
      · exact (ihr hn).imp_left fun h => Or.inr (Or.inr h)

end Attach

end SyntaxTree

open SyntaxTree

namespace Sketch

/-- A tree that is being drawn: what was added so far, how many nodes these are, and the next
byte. -/
structure Drawing where
  tree : SyntaxTree := .nil
  count : Nat := 0
  offset : Int := 0

namespace Drawing

def opened (d : Drawing) (parent : Option Nat) (p : Payload) : Drawing :=
  { tree := d.tree.add parent { p with id := d.count, start := d.offset, stop := 0 }
    count := d.count + 1
    offset := d.offset + 1 }

def closed (d : Drawing) (id : Nat) : Drawing :=
  { d with tree := d.tree.map (setStop id (d.offset + 1)), offset := d.offset + 1 }

/-- Draws the trees of a forest below `parent`, one after the other. -/
def draw (parent : Option Nat) : Forest Payload → Drawing → Drawing
  | .nil, d => d
  | .cons p children rest, d =>
    draw parent rest ((draw (some d.count) children (d.opened parent p)).closed d.count)

theorem setStop_of_ne {id : Nat} {stop : Int} {n : Node} (h : n.id ≠ id) : setStop id stop n = n :=
  if_neg h

theorem closed_hang {t : SyntaxTree} {id : Nat} (hfresh : ∀ n ∈ t.toList, n.id < id)
    (parent : Option Nat) (p : Payload) (start stop : Int) {below : SyntaxTree}
    (hbelow : ∀ n ∈ below.toList, id < n.id) :
    (((t.add parent { p with id, start, stop := 0 }).attach (some id) below).map
      (setStop id stop)) = t.attach parent (.cons { p with id, start, stop } below .nil) := by
  have hne : ∀ n ∈ t.toList, n.id ≠ id := fun n hn => Nat.ne_of_lt (hfresh n hn)
  rw [add_eq_attach]
  change ((t.attach parent _).hang id below).map _ = _
  have hkept : ∀ n ∈ t.toList, setStop id stop n = n := fun n hn => setStop_of_ne (hne n hn)
  have hinner : below.map (setStop id stop) = below :=
    map_eq_self fun n hn => setStop_of_ne (Nat.ne_of_gt (hbelow n hn))
  rw [hang_attach hne, map_attach hkept]
  simp [hang, Forest.map, hinner, setStop]

/-- The nodes of a forest get the numbers and bytes that come next, and nothing that was drawn
before changes. -/
theorem draw_eq (parent : Option Nat) (f : Forest Payload) (d : Drawing)
    (hfresh : ∀ n ∈ d.tree.toList, n.id < d.count) (hparent : ∀ i ∈ parent, i < d.count) :
    draw parent f d =
      { tree := d.tree.attach parent (layoutFrom d.offset d.count f)
        count := d.count + f.size
        offset := d.offset + 2 * f.size } := by
  induction f generalizing parent d with
  | nil => simp [draw, layoutFrom, attach_nil, Forest.size]
  | cons p children rest ihc ihr =>
    obtain ⟨t, count, offset⟩ := d
    simp only at hfresh hparent
    have hopened : ∀ n ∈ (t.add parent { p with id := count, start := offset, stop := 0 }).toList,
        n.id < count + 1 := by
      intro n hn
      rw [add_eq_attach] at hn
      rcases mem_attach hn with hn | hn
      · exact Nat.lt_succ_of_lt (hfresh n hn)
      · simp only [Forest.toList, List.append_nil, List.mem_singleton] at hn
        simp [hn]
    have hbelow : ∀ n ∈ (layoutFrom (offset + 1) (count + 1) children).toList, count < n.id :=
      fun n hn =>
      (laid_bounds (laid_layoutFrom children _ _) hn).2.2.2.1
    have htree : (draw (some count) children (opened ⟨t, count, offset⟩ parent p)).closed count =
        { tree := t.attach parent (layoutFrom offset count (.cons p children .nil))
          count := count + 1 + children.size
          offset := offset + 2 * (children.size + 1) } := by
      have hoffset : offset + 1 + 2 * (children.size : Int) + 1 =
          offset + 2 * (children.size + 1) := by omega
      rw [opened, ihc (some count) _ hopened (by simp), closed]
      simp only [hoffset, closed_hang hfresh parent p offset _ hbelow, layoutFrom]
    have hnew : ∀ n ∈ (layoutFrom offset count (.cons p children .nil)).toList,
        count ≤ n.id ∧ n.id < count + 1 + children.size := by
      intro n hn
      have := laid_bounds (laid_layoutFrom (.cons p children .nil) offset count) hn
      simp only [size_layoutFrom, Forest.size] at this
      omega
    rw [draw, htree, ihr]
    · rw [attach_twice]
      · simp only [layoutFrom, Forest.size, Forest.cons_append, Forest.nil_append,
          Drawing.mk.injEq, true_and]
        omega
      · intro n hn heq
        have := hparent n.id heq.symm
        have := (hnew n hn).1
        omega
    · intro n hn
      rcases mem_attach hn with hn | hn
      · exact Nat.lt_of_lt_of_le (hfresh n hn) (by simp only; omega)
      · exact (hnew n hn).2
    · exact fun i hi => Nat.lt_of_lt_of_le (hparent i hi) (by simp only; omega)

end Drawing

def size (s : Sketch) : Nat :=
  (Forest.cons s.root s.children .nil).size

def drawn (s : Sketch) : SyntaxTree :=
  (Drawing.draw none (.cons s.root s.children .nil) {}).tree

theorem drawn_eq (s : Sketch) : s.drawn = layoutFrom 0 0 (.cons s.root s.children .nil) := by
  rw [drawn, Drawing.draw_eq none _ {} (by simp [Forest.toList]) (by simp)]
  rfl

end Sketch

def Payload.unplaced (p : Payload) : Payload :=
  { p with binding := p.binding.map fun b => { b with pos := 0 } }

namespace SyntaxTree

/-- The ranges of the nodes follow each other without a gap from `start` to `stop`. -/
def Tiles (start stop : Int) : List Node → Prop
  | [] => start = stop
  | n :: rest => n.start = start ∧ n.start < n.stop ∧ Tiles n.stop stop rest

variable {path : List Node} {f : SyntaxTree} {offset : Int} {id : Nat}

theorem tiles_roots (h : Laid offset id f) : Tiles offset (offset + 2 * f.size) f.roots := by
  induction f generalizing offset id with
  | nil => simp [Forest.roots, Tiles, Forest.size]
  | cons n children rest _ ihr =>
    obtain ⟨hstart, _, hstop, _, hrest⟩ := h
    have hend : n.stop + 2 * (rest.size : Int) =
        offset + 2 * ((Forest.cons n children rest).size : Nat) := by
      simp only [Forest.size]
      omega
    exact ⟨hstart, by omega, hend ▸ ihr hrest⟩

theorem map_map (g : Node → Payload) (k : Node → Node) (t : SyntaxTree) :
    (t.map k).map g = t.map (g ∘ k) := by
  induction t with
  | nil => rfl
  | cons n children rest ihc ihr => simp only [Forest.map, ihc, ihr, Function.comp_apply]

theorem map_layoutFrom (g : Payload → Payload) (t : Forest Payload) (offset : Int) (id : Nat) :
    (Sketch.layoutFrom offset id t).map (fun n => g n.toPayload) = t.map g := by
  induction t generalizing offset id with
  | nil => rfl
  | cons p children rest ihc ihr => simp only [Sketch.layoutFrom, Forest.map, ihc, ihr]

theorem mem_inner_iff (h : Laid offset id f) {p q : Place} (hp : p ∈ placesBelow [] f)
    (hq : q ∈ placesBelow [] f) :
    q ∈ p.inner ↔ p.node ∈ q.ancestors := by
  refine ⟨mem_ancestors, fun hnode => ?_⟩
  rcases ancestor_cases hq _ hnode with hpath | ⟨r, hr, heq, hin⟩
  · cases hpath
  · rwa [place_unique h hp hr (by rw [heq])]

theorem nested_iff (h : Laid offset id f) {p q : Place} (hp : p ∈ placesBelow path f)
    (hq : q ∈ placesBelow path f) :
    p.node.start ≤ q.node.start ∧ q.node.stop ≤ p.node.stop ↔ q = p ∨ q ∈ p.inner := by
  constructor
  · rintro ⟨hstart, hstop⟩
    rcases Nat.lt_trichotomy p.node.id q.node.id with hlt | heq | hgt
    · refine Or.inr ((inner_or_beyond h hp hq hlt).resolve_right fun hbeyond => ?_)
      have := laid_bounds h (node_mem_of_mem_placesBelow hq)
      omega
    · exact Or.inl (place_unique h hq hp heq.symm)
    · exact absurd (start_lt_of_id_lt h hq hp hgt) (Int.not_lt.mpr hstart)
  · rintro (rfl | hin)
    · exact ⟨Int.le_refl _, Int.le_refl _⟩
    · have := inner_bounds h hp hin
      omega

theorem apart_iff (h : Laid offset id f) {p q : Place} (hp : p ∈ placesBelow path f)
    (hq : q ∈ placesBelow path f) :
    p.node.stop ≤ q.node.start ∨ q.node.stop ≤ p.node.start ↔
      ¬ (q = p ∨ q ∈ p.inner ∨ p ∈ q.inner) := by
  have hpb := laid_bounds h (node_mem_of_mem_placesBelow hp)
  have hqb := laid_bounds h (node_mem_of_mem_placesBelow hq)
  constructor
  · rintro hapart (rfl | hin | hin)
    · omega
    · have := inner_bounds h hp hin
      omega
    · have := inner_bounds h hq hin
      omega
  · intro hnot
    rcases Nat.lt_trichotomy p.node.id q.node.id with hlt | heq | hgt
    · exact Or.inl ((inner_or_beyond h hp hq hlt).resolve_left fun hin =>
        hnot (Or.inr (Or.inl hin)))
    · exact absurd (Or.inl (place_unique h hq hp heq.symm)) hnot
    · exact Or.inr ((inner_or_beyond h hq hp hgt).resolve_left fun hin =>
        hnot (Or.inr (Or.inr hin)))

theorem ancestors_eq_of_parent? (h : Laid offset id f) {p q : Place} (hp : p ∈ placesBelow [] f)
    (hq : q ∈ placesBelow [] f) (hparent : p.parent? = q.parent?) : p.ancestors = q.ancestors := by
  rw [Place.parent?, Place.parent?] at hparent
  rcases parent_mem hp with hroot | ⟨r, hr, hbelow, -⟩
  · rw [hroot] at hparent ⊢
    exact (List.head?_eq_none_iff.mp hparent.symm).symm
  · rcases parent_mem hq with hroot' | ⟨r', hr', hbelow', -⟩
    · rw [hroot', hbelow] at hparent
      cases hparent
    · rw [hbelow, hbelow'] at hparent ⊢
      rw [place_unique h hr hr' (congrArg (·.id) (Option.some.inj hparent))]

theorem exists_sibling (h : Laid offset id f) {first last p : Place}
    (hfirst : first ∈ placesBelow [] f) (hlast : last ∈ placesBelow [] f)
    (hp : p ∈ placesBelow [] f) (hsiblings : last.ancestors = first.ancestors)
    (hstart : first.node.start ≤ p.node.start) (hstop : p.node.stop ≤ last.node.stop) :
    ∃ c ∈ placesBelow [] f, c.ancestors = first.ancestors ∧ (p = c ∨ p ∈ c.inner) := by
  rcases parent_mem hfirst with hroot | ⟨r, hr, hbelow, hin⟩
  · obtain ⟨c, hc, hpc⟩ := exists_root hp
    obtain ⟨hmem, htop⟩ := rootPlaces_subset _ _ c hc
    exact ⟨c, hmem, htop.trans hroot.symm, hpc⟩
  · have hlastIn : last ∈ r.inner := by
      rw [mem_inner_iff h hr hlast, hsiblings, hbelow]
      exact List.mem_cons_self
    have hfirstBounds := inner_bounds h hr hin
    have hlastBounds := inner_bounds h hr hlastIn
    rcases (nested_iff h hr hp).mp (by omega) with rfl | hpr
    · omega
    · obtain ⟨c, hc, hpc⟩ := exists_root hpr
      obtain ⟨hmem, htop⟩ := rootPlaces_subset _ _ c hc
      exact ⟨c, inner_subset hr c hmem, htop.trans hbelow.symm, hpc⟩

theorem between_siblings_iff (h : Laid offset id f) {first last p : Place}
    (hfirst : first ∈ placesBelow [] f) (hlast : last ∈ placesBelow [] f)
    (hp : p ∈ placesBelow [] f) (hsiblings : last.ancestors = first.ancestors) :
    first.node.start ≤ p.node.start ∧ p.node.stop ≤ last.node.stop ↔
      ∃ c ∈ placesBelow [] f, c.ancestors = first.ancestors ∧ first.node.id ≤ c.node.id ∧
        c.node.id ≤ last.node.id ∧ (p = c ∨ p ∈ c.inner) := by
  have hpb := laid_bounds h (node_mem_of_mem_placesBelow hp)
  constructor
  · rintro ⟨hstart, hstop⟩
    obtain ⟨c, hc, hancestors, hpc⟩ := exists_sibling h hfirst hlast hp hsiblings hstart hstop
    have hwithin := (nested_iff h hc hp).mpr hpc
    refine ⟨c, hc, hancestors, ?_, ?_, hpc⟩
    · refine Nat.not_lt.mp fun hlt => ?_
      have := beyond_of_siblings h hc hfirst hancestors hlt
      omega
    · refine Nat.not_lt.mp fun hlt => ?_
      have := beyond_of_siblings h hlast hc (hsiblings.trans hancestors.symm) hlt
      omega
  · rintro ⟨c, hc, hancestors, hle, hle', hpc⟩
    have hwithin := (nested_iff h hc hp).mpr hpc
    have hcb := laid_bounds h (node_mem_of_mem_placesBelow hc)
    constructor
    · rcases Nat.eq_or_lt_of_le hle with heq | hlt
      · rw [place_unique h hfirst hc heq]
        exact hwithin.1
      · have := start_lt_of_id_lt h hfirst hc hlt
        omega
    · rcases Nat.eq_or_lt_of_le hle' with heq | hlt
      · rw [← place_unique h hc hlast heq]
        exact hwithin.2
      · have := beyond_of_siblings h hc hlast (hancestors.trans hsiblings.symm) hlt
        have := laid_bounds h (node_mem_of_mem_placesBelow hlast)
        omega

end SyntaxTree

namespace Sketch

/-- The ranges of a tree are nested and apart as its nodes are, without gaps, and its nodes are
those of the sketch. -/
structure Tiled (s : Sketch) (t : SyntaxTree) : Prop where
  /-- The tree comes from one pass, after which every variable gets the offset of its
  declaration. -/
  drawn : t = s.drawn.map fun n => { n with binding := n.binding.map (declaredIn s.drawn) }
  shape : t.map (fun n => n.toPayload.unplaced) =
    (Forest.cons s.root s.children .nil).map Payload.unplaced
  numbers : t.toList.map (·.id) = List.range s.size
  root : ∃ n children, t = .cons n children .nil ∧ n.start = 0 ∧ n.stop = 2 * s.size
  width : ∀ p ∈ t.places, p.node.stop - p.node.start = 2 * (Forest.cons p.node p.children .nil).size
  tiles : ∀ p ∈ t.places, Tiles (p.node.start + 1) (p.node.stop - 1) p.children.roots
  nested : ∀ p ∈ t.places, ∀ q ∈ t.places,
    p.node.start ≤ q.node.start ∧ q.node.stop ≤ p.node.stop ↔ q = p ∨ p.node ∈ q.ancestors
  apart : ∀ p ∈ t.places, ∀ q ∈ t.places,
    p.node.stop ≤ q.node.start ∨ q.node.stop ≤ p.node.start ↔
      ¬ (q = p ∨ p.node ∈ q.ancestors ∨ q.node ∈ p.ancestors)
  /-- A selection from one sibling to another covers the trees of the siblings between them. -/
  covered : ∀ first ∈ t.places, ∀ last ∈ t.places, last.parent? = first.parent? →
    first.node.id ≤ last.node.id → last.node.stop < 0x8000000000000000 →
      ∃ sel, selectNodes first.node last.node = .ok sel ∧
        ∀ p ∈ t.places, sel.Covers p.node.start p.node.stop ↔
          ∃ c ∈ t.places, c.parent? = first.parent? ∧ first.node.id ≤ c.node.id ∧
            c.node.id ≤ last.node.id ∧ (p = c ∨ c.node ∈ p.ancestors)

/-- Every sketch is laid out so. -/
theorem layout_tiled (s : Sketch) : s.Tiled s.layout := by
  have h : Laid 0 0 s.layout := laid_layout s
  have hlayout : s.layout = s.drawn.map fun n =>
      { n with binding := n.binding.map (declaredIn s.drawn) } := by
    rw [drawn_eq]
    rfl
  have hsize : s.layout.size = s.size := by
    rw [layout, size_map, size_layoutFrom, size]
  refine
    { drawn := hlayout
      shape := ?_
      numbers := by rw [ids_of_laid h, hsize, List.range_eq_range']
      root := ⟨_, _, rfl, rfl, ?_⟩
      width := fun p hp => ?_
      tiles := fun p hp => ?_
      nested := fun p hp q hq => by rw [nested_iff h hp hq, mem_inner_iff h hp hq]
      apart := fun p hp q hq => by
        rw [apart_iff h hp hq, mem_inner_iff h hp hq, mem_inner_iff h hq hp]
      covered := fun first hfirst last hlast hparent hle hfits => ?_ }
  · rw [layout, map_map, ← map_layoutFrom Payload.unplaced _ 0 0]
    congr 1
    funext n
    simp [Payload.unplaced, declaredIn, Function.comp_def]
  · simp only [size, Forest.size]
    omega
  · have := (laid_children h hp).2
    simp only [Forest.size]
    omega
  · obtain ⟨hchildren, hstop⟩ := laid_children h hp
    have hend : p.node.stop - 1 = p.node.start + 1 + 2 * p.children.size := by omega
    rw [hend]
    exact tiles_roots hchildren
  · have hsiblings := ancestors_eq_of_parent? h hlast hfirst hparent
    have hstart := laid_bounds h (node_mem_of_mem_placesBelow hfirst)
    have hstop := Trace.stop_le_of_siblings h hfirst hlast hsiblings.symm hle
    obtain ⟨sel, hsel⟩ : ∃ sel, selectNodes first.node last.node = .ok sel :=
      ⟨_, if_neg (Int.not_lt.mpr (by omega))⟩
    obtain ⟨hoffset, hpast⟩ := Extent.past_between (by omega) (by omega) hfits hsel
    refine ⟨sel, hsel, fun p hp => ?_⟩
    rw [Extent.Covers, hoffset, hpast, between_siblings_iff h hfirst hlast hp hsiblings]
    constructor
    · rintro ⟨c, hc, hancestors, hfrom, hto, hpc⟩
      refine ⟨c, hc, congrArg List.head? hancestors, hfrom, hto, ?_⟩
      rwa [← mem_inner_iff h hc hp]
    · rintro ⟨c, hc, hancestors, hfrom, hto, hpc⟩
      refine ⟨c, hc, ancestors_eq_of_parent? h hc hfirst hancestors, hfrom, hto, ?_⟩
      rwa [mem_inner_iff h hc hp]

end Sketch

end Extraction
