import Extraction.Proofs.Exposed

/-!
# What control has passed

The children of one part run in order, so a path that is at some place has passed the siblings
before it, in every part that the place lies in.  An invariant of paths says what is true of the
siblings that were passed and of the parts that were entered.
-/

namespace Extraction

open SyntaxTree

namespace Place

def Linear (p : Place) : Prop :=
  p.node.kind ≠ .ifStmt ∧ p.node.kind.isLoop = false ∧ p.node.kind ≠ .switch ∧
    p.node.kind ≠ .caseClause

theorem mem_part_body {p c : Place} (h : p.Linear) (htry : p.node.kind ≠ .tryStmt)
    (hc : c ∈ rootPlaces p.below p.children) : c ∈ p.part .body := by
  obtain ⟨h₁, h₂, h₃, h₄⟩ := h
  refine mem_part.mpr ⟨hc, ?_⟩
  unfold partOf
  split <;> simp_all [Kind.isLoop]

end Place

def Ending.Local (o : Ending) : Prop :=
  ∀ b, o = .jumped b → b.kind ≠ .gotoBranch

theorem Place.local_settles {p : Place} (hgoto : p.node.kind ≠ .gotoStmt) {o : Ending}
    (ho : o ∈ p.settles) : o.Local := by
  rintro b rfl hb
  obtain ⟨kind, label⟩ := b
  obtain rfl : kind = .gotoBranch := hb
  unfold settles at ho
  split at ho <;> simp_all

theorem mem_part_clause {p c : Place} (hk : p.node.kind = .switch) (hc : c ∈ p.clauses) :
    c ∈ p.part (.clause c.node.id) := by
  obtain ⟨hroot, hrole⟩ := List.mem_filter.mp hc
  refine Place.mem_part.mpr ⟨hroot, ?_⟩
  have hrole : c.node.role ≠ .cond := by simpa using hrole
  simp [Place.partOf, hk, hrole]

theorem id_of_mem_clause {p s : Place} {i : Nat} (hs : s ∈ p.part (.clause i)) : s.node.id = i := by
  obtain ⟨-, hpart⟩ := Place.mem_part.mp hs
  unfold Place.partOf at hpart
  split at hpart <;> try (split at hpart <;> cases hpart; done)
  · split at hpart
    · cases hpart
    · cases hpart
      rfl
  · cases hpart

theorem Place.next_cases {lenient : Bool} {p : Place} {x y : Part}
    (hloop : p.node.kind.isLoop = false) (hnext : some y ∈ p.nextParts lenient x) :
    p.node.kind = .ifStmt ∧ x = .heads ∧ (y = .thenPart ∨ y = .elsePart) ∨
      p.node.kind = .switch ∧ x = .heads ∧ (∃ i, y = .clause i) ∨
      p.node.kind = .caseClause ∧ x = .test ∧ y = .body := by
  unfold nextParts at hnext
  split at hnext
  case h_1 hk =>
    simp only [List.mem_cons, Option.some.injEq, List.not_mem_nil, or_false] at hnext
    exact Or.inl ⟨hk, rfl, hnext⟩
  case h_10 hk =>
    refine Or.inr (Or.inl ⟨hk, rfl, ?_⟩)
    rcases List.mem_append.mp hnext with hnext | hnext
    · obtain ⟨c, -, hc⟩ := List.mem_map.mp hnext
      exact ⟨c.node.id, (Option.some.inj hc).symm⟩
    · split at hnext <;> simp at hnext
  case h_11 hk => exact Or.inr (Or.inr ⟨hk, rfl, by simpa using hnext⟩)
  all_goals simp_all [Kind.isLoop]

section Siblings

variable {P : Place → Prop} {xs l r : List Place} {c d : Place}

theorem earlier_first (hpair : xs.Pairwise fun c d => c.node.id < d.node.id) (hxs : xs = c :: r) :
    ∀ s ∈ xs, s.node.id < c.node.id → P s := by
  subst hxs
  intro s hs hlt
  rcases List.mem_cons.mp hs with rfl | hs
  · exact absurd hlt (Nat.lt_irrefl _)
  · exact absurd ((List.pairwise_cons.mp hpair).1 s hs) (Nat.lt_asymm hlt)

theorem lt_of_adjacent (hpair : xs.Pairwise fun c d => c.node.id < d.node.id)
    (hxs : xs = l ++ c :: d :: r) :
    c.node.id < d.node.id := by
  subst hxs
  exact (List.pairwise_cons.mp (List.pairwise_append.mp hpair).2.1).1 d List.mem_cons_self

theorem earlier_last (hpair : xs.Pairwise fun c d => c.node.id < d.node.id) (hxs : xs = l ++ [c])
    (hearlier : ∀ s ∈ xs, s.node.id < c.node.id → P s) (hc : P c) : ∀ s ∈ xs, P s := by
  subst hxs
  intro s hs
  rcases List.mem_append.mp hs with hl | hl
  · exact hearlier s hs ((List.pairwise_append.mp hpair).2.2 s hl c List.mem_cons_self)
  · rw [List.mem_singleton.mp hl]
    exact hc

theorem earlier_next (hpair : xs.Pairwise fun c d => c.node.id < d.node.id)
    (hxs : xs = l ++ c :: d :: r) (hearlier : ∀ s ∈ xs, s.node.id < c.node.id → P s) (hc : P c) :
    ∀ s ∈ xs, s.node.id < d.node.id → P s := by
  subst hxs
  obtain ⟨-, hright, hcross⟩ := List.pairwise_append.mp hpair
  intro s hs hlt
  rcases List.mem_append.mp hs with hl | hl
  · exact hearlier s hs (hcross s hl c List.mem_cons_self)
  · rcases List.mem_cons.mp hl with rfl | hl
    · exact hc
    · exact earlier_first (List.pairwise_cons.mp hright).2 rfl s hl hlt

end Siblings

/-- What is known at a place: all that was run before it, in each of the parts it lies in, satisfies
`D`, and of each of these parts `N` is true. -/
structure Known (D : Place → Prop) (N : Place → Part → Prop) (path : List Node) (f : SyntaxTree)
    (p : Place) : Prop where
  roots : ∀ r ∈ rootPlaces path f, p = r ∨ p ∈ r.inner →
    ∀ s ∈ rootPlaces path f, s.node.id < r.node.id → D s
  parts : ∀ q ∈ exposed path f, ∀ x, ∀ c ∈ q.part x, p = c ∨ p ∈ c.inner →
    (∀ s ∈ q.part x, s.node.id < c.node.id → D s) ∧ N q x

variable {D : Place → Prop} {N : Place → Part → Prop} {path : List Node} {f : SyntaxTree}
  {offset : Int} {id : Nat}

theorem Known.parent {p c : Place} {x : Part} (h : Known D N path f c) (hc : c ∈ p.part x) :
    Known D N path f p := by
  have hroot := (Place.mem_part.mp hc).1
  have hbelow : ∀ {r : Place}, p = r ∨ p ∈ r.inner → c ∈ r.inner := by
    rintro r (rfl | hr)
    · exact child_mem_inner hroot
    · exact inner_subset hr c (child_mem_inner hroot)
  exact ⟨fun r hr hpr => h.roots r hr (Or.inr (hbelow hpr)),
    fun q hq y d hd hpd => h.parts q hq y d hd (Or.inr (hbelow hpd))⟩

theorem Known.child (hlaid : Laid offset id f) {p c : Place} {x : Part} (h : Known D N path f p)
    (hp : p ∈ exposed path f) (hc : c ∈ p.part x)
    (hearlier : ∀ s ∈ p.part x, s.node.id < c.node.id → D s) (hentered : N p x) :
    Known D N path f c := by
  obtain ⟨hroot, hpart⟩ := Place.mem_part.mp hc
  have hpmem := exposed_subset _ _ p hp
  refine ⟨fun r hr hcr => ?_, fun q hq y d hd hcd => ?_⟩
  · obtain ⟨hrmem, hrpath⟩ := rootPlaces_subset _ _ r hr
    rcases hcr with rfl | hcr
    · exact absurd hrpath (child_not_root hpmem hroot)
    · exact h.roots r hr (parent_within hlaid hpmem hrmem hroot hcr)
  · obtain ⟨hdroot, hdpart⟩ := Place.mem_part.mp hd
    have hqmem := exposed_subset _ _ q hq
    rcases hcd with rfl | hcd
    · obtain rfl := parent_unique hlaid hpmem hqmem hroot hdroot
      obtain rfl : x = y := hpart.symm.trans hdpart
      exact ⟨hearlier, hentered⟩
    · exact h.parts q hq y d hd
        (parent_within hlaid hpmem (inner_subset hqmem d (child_mem_inner hdroot)) hroot hcd)

theorem Known.root {c : Place} (hc : c ∈ rootPlaces path f)
    (hearlier : ∀ s ∈ rootPlaces path f, s.node.id < c.node.id → D s) : Known D N path f c := by
  have hpath := (rootPlaces_subset _ _ c hc).2
  refine ⟨fun r hr hcr => ?_, fun q hq y d hd hcd => ?_⟩
  · rcases hcr with rfl | hcr
    · exact hearlier
    · exact absurd hpath (inner_not_root (rootPlaces_subset _ _ r hr).1 hcr)
  · have hqmem := exposed_subset _ _ q hq
    have hdroot := (Place.mem_part.mp hd).1
    rcases hcd with rfl | hcd
    · exact absurd hpath (child_not_root hqmem hdroot)
    · exact absurd hpath (inner_not_root (inner_subset hqmem d (child_mem_inner hdroot)) hcd)

end Extraction
