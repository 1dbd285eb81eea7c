import Extraction.Proofs.Enclosing
import Extraction.Proofs.Paths

/-!
# Exposed places

Facts about the roots of a forest, the children of a place and the places that are not inside a
function or type.
-/

namespace Extraction

namespace SyntaxTree

variable {path : List Node} {f : SyntaxTree} {offset : Int} {id : Nat}

theorem exposed_sublist (path : List Node) (f : SyntaxTree) :
    (exposed path f).Sublist (placesBelow path f) := by
  induction f generalizing path with
  | nil => exact List.Sublist.refl _
  | cons n children rest ihc ihr =>
    rw [exposed, placesBelow]
    refine List.Sublist.cons_cons _ (List.Sublist.append ?_ (ihr _))
    split
    · exact List.nil_sublist _
    · exact ihc _

theorem exposed_subset (path : List Node) (f : SyntaxTree) :
    ∀ p ∈ exposed path f, p ∈ placesBelow path f :=
  fun _ hp => (exposed_sublist path f).subset hp

theorem mem_exposed {path : List Node} {f : SyntaxTree} {p : Place} (hp : p ∈ placesBelow path f)
    (hscope : ∀ upper, p.ancestors = upper ++ path → ∀ n ∈ upper, n.kind.isScope = false) :
    p ∈ exposed path f := by
  induction f generalizing path with
  | nil => cases hp
  | cons n children rest ihc ihr =>
    simp only [placesBelow, List.mem_cons, List.mem_append] at hp
    simp only [exposed, List.mem_cons, List.mem_append]
    rcases hp with rfl | hp | hp
    · exact Or.inl rfl
    · obtain ⟨upper, hupper, _⟩ := exists_upper hp
      have hn : n.kind.isScope = false := hscope (upper ++ [n]) (by rw [hupper]; simp) n (by simp)
      rw [hn]
      refine Or.inr (Or.inl (ihc hp fun upper' hupper' k hk => ?_))
      exact hscope (upper' ++ [n]) (by rw [hupper']; simp) k (by simp [hk])
    · exact Or.inr (Or.inr (ihr hp hscope))

theorem exists_root {path : List Node} {f : SyntaxTree} {p : Place} (hp : p ∈ placesBelow path f) :
    ∃ r ∈ rootPlaces path f, p = r ∨ p ∈ r.inner := by
  induction f with
  | nil => cases hp
  | cons n children rest _ ihr =>
    simp only [placesBelow, List.mem_cons, List.mem_append] at hp
    simp only [rootPlaces, List.mem_cons, exists_eq_or_imp]
    rcases hp with rfl | hp | hp
    · exact Or.inl (Or.inl rfl)
    · exact Or.inl (Or.inr hp)
    · exact Or.inr (ihr hp)

theorem mem_exposed_children {path : List Node} {f : SyntaxTree} {p : Place}
    (hp : p ∈ exposed path f) (hscope : p.node.kind.isScope = false) :
    ∀ c ∈ exposed p.below p.children, c ∈ exposed path f := by
  induction f generalizing path with
  | nil => cases hp
  | cons n children rest ihc ihr =>
    intro c hc
    simp only [exposed, List.mem_cons, List.mem_append] at hp ⊢
    rcases hp with rfl | hp | hp
    · refine Or.inr (Or.inl ?_)
      rw [hscope]
      exact hc
    · split at hp
      · cases hp
      next hn =>
        rw [if_neg hn]
        exact Or.inr (Or.inl (ihc hp c hc))
    · exact Or.inr (Or.inr (ihr hp c hc))

theorem rootPlaces_exposed {path : List Node} {f : SyntaxTree} :
    ∀ c ∈ rootPlaces path f, c ∈ exposed path f := by
  induction f with
  | nil => simp [rootPlaces]
  | cons n children rest _ ihr =>
    intro c hc
    simp only [rootPlaces, List.mem_cons] at hc
    simp only [exposed, List.mem_cons, List.mem_append]
    rcases hc with rfl | hc
    · exact Or.inl rfl
    · exact Or.inr (Or.inr (ihr c hc))

/-- What is exposed at a place is exposed in the forest, but for the insides of functions. -/
theorem exposed_place {path : List Node} {f : SyntaxTree} {p : Place} (hp : p ∈ exposed path f) :
    ∀ e ∈ exposed p.ancestors (.cons p.node p.children .nil), e ∈ exposed path f := by
  intro e he
  simp only [exposed, List.mem_cons, List.mem_append, List.not_mem_nil, or_false] at he
  rcases he with rfl | he
  · exact hp
  · split at he
    · cases he
    next hscope => exact mem_exposed_children hp (Bool.eq_false_iff.mpr hscope) e he

theorem child_exposed {p c : Place} (hp : p ∈ exposed path f) (hscope : p.node.kind.isScope = false)
    (hc : c ∈ rootPlaces p.below p.children) : c ∈ exposed path f :=
  mem_exposed_children hp hscope c (rootPlaces_exposed c hc)

theorem role_mem {p c : Place} (hc : c ∈ rootPlaces p.below p.children) :
    c.node.role ∈ p.children.roots.map (·.role) := by
  rw [← map_node_rootPlaces p.below p.children, List.map_map]
  exact List.mem_map_of_mem (f := fun c : Place => c.node.role) hc

theorem exposed_scopeless {p : Place} (hp : p ∈ exposed path f) :
    ∃ upper, p.ancestors = upper ++ path ∧ ∀ n ∈ upper, n.kind.isScope = false := by
  induction f generalizing path with
  | nil => cases hp
  | cons n children rest ihc ihr =>
    simp only [exposed, List.mem_cons, List.mem_append] at hp
    rcases hp with rfl | hp | hp
    · exact ⟨[], rfl, List.forall_mem_nil _⟩
    · split at hp
      · cases hp
      next hn =>
        obtain ⟨upper, hupper, hscope⟩ := ihc hp
        refine ⟨upper ++ [n], by rw [hupper, List.append_assoc]; rfl, fun k hk => ?_⟩
        rcases List.mem_append.mp hk with hk | hk
        · exact hscope k hk
        · rw [List.mem_singleton.mp hk]
          exact Bool.eq_false_iff.mpr hn
    · exact ihr hp

theorem mem_exposed_iff {m p : Place} (h : Laid offset id f) (hm : m ∈ placesBelow path f)
    (hscope : m.node.kind.isScope = true) (hp : p ∈ m.inner) :
    p ∈ exposed m.below m.children ↔
      (p.ancestor? [.method, .lambda, .typeDecl]).map (·.id) = some m.node.id := by
  have hkinds : ∀ n : Node, n.kind ∈ [Kind.method, .lambda, .typeDecl] ↔ n.kind.isScope = true := by
    intro n
    cases n.kind <;> simp [Kind.isScope]
  obtain ⟨upper, hupper, hnodes⟩ := exists_upper hp
  rw [Place.ancestor?, hupper, List.find?_append]
  constructor
  · intro hexposed
    obtain ⟨upper', hupper', hfree⟩ := exposed_scopeless hexposed
    obtain rfl : upper = upper' := List.append_cancel_right (hupper.symm.trans hupper')
    have hnone : (upper.find? fun n => n.kind ∈ [Kind.method, .lambda, .typeDecl]) = none := by
      refine List.find?_eq_none.mpr fun n hn hkind => ?_
      rw [decide_eq_true_iff, hkinds, hfree n hn] at hkind
      cases hkind
    have hhere :
        (m.below.find? fun n => n.kind ∈ [Kind.method, .lambda, .typeDecl]) = some m.node :=
      List.find?_cons_of_pos (decide_eq_true ((hkinds m.node).mpr hscope))
    rw [hnone, hhere]
    rfl
  · intro hnearest
    refine mem_exposed hp fun upper' hupper' n hn => ?_
    obtain rfl : upper = upper' := List.append_cancel_right (hupper.symm.trans hupper')
    -- a scope on the way would be the nearest one, and it has a later number
    refine Bool.eq_false_iff.mpr fun hk => ?_
    cases hfound : upper.find? fun n => n.kind ∈ [Kind.method, .lambda, .typeDecl] with
    | none => exact absurd (decide_eq_true ((hkinds n).mpr hk)) (List.find?_eq_none.mp hfound n hn)
    | some k =>
      rw [hfound] at hnearest
      have hid : k.id = m.node.id := Option.some.inj hnearest
      have hbounds := laid_bounds (laid_children h hm).1
        (hnodes k (List.mem_of_find?_eq_some hfound))
      omega

theorem parent_not_scope {p c : Place} (hp : p ∈ exposed path f)
    (hc : c ∈ rootPlaces p.below p.children) (hexposed : c ∈ exposed path f) :
    p.node.kind.isScope = false := by
  obtain ⟨upper, hupper, hscope⟩ := exposed_scopeless hexposed
  obtain ⟨upper', hupper', -⟩ := exposed_scopeless hp
  have hbelow : p.node :: upper' = upper := by
    refine List.append_cancel_right (?_ : _ ++ path = _ ++ path)
    rw [← hupper, (rootPlaces_subset _ _ c hc).2, Place.below, hupper', List.cons_append]
  exact hscope p.node (hbelow ▸ List.mem_cons_self)

theorem child_not_root {p c : Place} (hp : p ∈ placesBelow path f)
    (hc : c ∈ rootPlaces p.below p.children) :
    c.ancestors ≠ path := by
  obtain ⟨upper, hupper, -⟩ := exists_upper hp
  rw [(rootPlaces_subset _ _ c hc).2, Place.below, hupper]
  intro heq
  have := congrArg List.length heq
  simp only [List.length_cons, List.length_append] at this
  omega

theorem inner_not_root {p c : Place} (hp : p ∈ placesBelow path f) (hc : c ∈ p.inner) :
    c.ancestors ≠ path := by
  obtain ⟨upper, hupper, -⟩ := exists_upper hp
  obtain ⟨upper', hupper', -⟩ := exists_upper hc
  rw [hupper', Place.below, hupper]
  intro heq
  have := congrArg List.length heq
  simp only [List.length_cons, List.length_append] at this
  omega

theorem mem_rootPlaces {p : Place} (hp : p ∈ placesBelow path f) (hroot : p.ancestors = path) :
    p ∈ rootPlaces path f := by
  obtain ⟨r, hr, hpr⟩ := exists_root hp
  rcases hpr with rfl | hpr
  · exact hr
  · exact absurd hroot (inner_not_root (rootPlaces_subset path f r hr).1 hpr)

theorem parent_unique (h : Laid offset id f) {p q c : Place} (hp : p ∈ placesBelow path f)
    (hq : q ∈ placesBelow path f) (hcp : c ∈ rootPlaces p.below p.children)
    (hcq : c ∈ rootPlaces q.below q.children) :
    p = q := by
  have hbelow : p.below = q.below := by
    rw [← (rootPlaces_subset _ _ c hcp).2, ← (rootPlaces_subset _ _ c hcq).2]
  exact place_unique h hp hq (by rw [(List.cons.inj hbelow).1])

theorem child_mem_inner {p c : Place} (hc : c ∈ rootPlaces p.below p.children) : c ∈ p.inner :=
  (rootPlaces_subset _ _ c hc).1

theorem beyond_of_siblings (h : Laid offset id f) {p q : Place} (hp : p ∈ placesBelow path f)
    (hq : q ∈ placesBelow path f) (hsiblings : p.ancestors = q.ancestors)
    (hlt : p.node.id < q.node.id) :
    p.node.stop ≤ q.node.start := by
  rcases inner_or_beyond h hp hq hlt with hin | hbeyond
  · obtain ⟨upper, hupper, -⟩ := exists_upper hin
    have hlength := congrArg List.length (hsiblings.trans hupper)
    simp only [Place.below, List.length_append, List.length_cons] at hlength
    omega
  · exact hbeyond

theorem parent_within (h : Laid offset id f) {p c r : Place} (hp : p ∈ placesBelow path f)
    (hr : r ∈ placesBelow path f) (hc : c ∈ rootPlaces p.below p.children) (hcr : c ∈ r.inner) :
    p = r ∨ p ∈ r.inner := by
  have hancestors := (rootPlaces_subset _ _ c hc).2
  rcases parent_mem hcr with hroot | ⟨q, hq, hparent, -⟩
  · rw [hancestors] at hroot
    exact Or.inl (place_unique h hp hr (by rw [(List.cons.inj hroot).1]))
  · rw [hancestors] at hparent
    have hpq : p = q := place_unique h hp (inner_subset hr q hq) (by rw [(List.cons.inj hparent).1])
    exact Or.inr (hpq ▸ hq)

theorem pairwise_rootPlaces (h : Laid offset id f) :
    (rootPlaces path f).Pairwise fun c d => c.node.id < d.node.id := by
  induction f generalizing offset id with
  | nil => exact List.Pairwise.nil
  | cons n children rest _ ihr =>
    refine List.pairwise_cons.mpr ⟨fun d hd => ?_, ihr h.2.2.2.2⟩
    have hbounds := laid_bounds h.2.2.2.2
      (node_mem_of_mem_placesBelow (rootPlaces_subset path rest d hd).1)
    have hid := h.2.1
    simp only
    omega

end SyntaxTree

theorem find?_eq_some_of_nodup {α β : Type} [DecidableEq β] {g : α → β} {l : List α}
    (h : (l.map g).Nodup) {c : α} (hc : c ∈ l) : (l.find? fun x => g x = g c) = some c := by
  induction l with
  | nil => cases hc
  | cons a l ih =>
    obtain ⟨ha, hl⟩ := List.nodup_cons.mp h
    rcases List.mem_cons.mp hc with rfl | hc
    · simp
    · have hne : g a ≠ g c := fun he => ha (he ▸ List.mem_map_of_mem hc)
      rw [List.find?_cons_of_neg (by simpa using hne)]
      exact ih hl hc

theorem Place.mem_part {p c : Place} {x : Part} :
    c ∈ p.part x ↔ c ∈ SyntaxTree.rootPlaces p.below p.children ∧ p.partOf c.node = x := by
  simp [part]

theorem Place.pairwise_part {path : List Node} {f : SyntaxTree} {offset : Int} {id : Nat}
    (h : SyntaxTree.Laid offset id f) {p : Place} (hp : p ∈ SyntaxTree.placesBelow path f)
    (x : Part) :
    (p.part x).Pairwise fun c d => c.node.id < d.node.id :=
  (SyntaxTree.pairwise_rootPlaces (SyntaxTree.laid_children h hp).1).filter _

end Extraction
