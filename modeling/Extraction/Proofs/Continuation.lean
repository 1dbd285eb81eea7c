import Mathlib.Logic.Relation
import Extraction.Proofs.Grammar
import Extraction.Proofs.Progress

/-!
# Where control goes

Without jumps to labels, control that has passed a point of the text goes on to places that stand
after the point, or goes round a loop that stands around the point and runs all of it but the part
that is run once.
-/

namespace Extraction

open SyntaxTree

variable {lenient : Bool} {path : List Node} {f : SyntaxTree} {offset : Int} {id : Nat} {stop : Int}
  {p c d loop : Place} {x y : Part}

namespace Place

def Around (stop : Int) (p : Place) : Prop :=
  p.node.start < stop ∧ stop ≤ p.node.stop

def Repeats (loop p : Place) : Prop :=
  ∃ x ≠ .init, ∃ c ∈ loop.part x, p = c ∨ p ∈ c.inner

theorem Repeats.inner (h : loop.Repeats p) : p ∈ loop.inner := by
  obtain ⟨x, -, c, hc, rfl | hpc⟩ := h
  · exact child_mem_inner (mem_part.mp hc).1
  · exact inner_subset (child_mem_inner (mem_part.mp hc).1) p hpc

theorem Repeats.below (h : loop.Repeats p) (hc : c ∈ p.inner) : loop.Repeats c := by
  obtain ⟨x, hx, d, hd, rfl | hpd⟩ := h
  · exact ⟨x, hx, p, hd, Or.inr hc⟩
  · exact ⟨x, hx, d, hd, Or.inr (inner_subset hpd c hc)⟩

theorem Repeats.parent (hlaid : Laid offset id f) (hloop : loop ∈ placesBelow path f)
    (hp : p ∈ placesBelow path f) (hc : c ∈ rootPlaces p.below p.children) (h : loop.Repeats c) :
    p = loop ∧ p.partOf c.node ≠ .init ∨ loop.Repeats p := by
  obtain ⟨x, hx, d, hd, hcd⟩ := h
  obtain ⟨hroot, hpart⟩ := mem_part.mp hd
  rcases hcd with rfl | hcd
  · obtain rfl := parent_unique hlaid hp hloop hc hroot
    exact Or.inl ⟨rfl, fun hinit => hx (hpart.symm.trans hinit)⟩
  · exact Or.inr ⟨x, hx, d, hd,
      parent_within hlaid hp (inner_subset hloop d (child_mem_inner hroot)) hc hcd⟩

end Place

/-- The places that control can come to after the point. -/
def Reached (path : List Node) (f : SyntaxTree) (stop : Int) (p : Place) : Prop :=
  stop ≤ p.node.start ∨
    ∃ loop ∈ exposed path f, loop.node.kind.isLoop = true ∧ loop.Around stop ∧ loop.Repeats p

theorem Reached.below (hlaid : Laid offset id f) (hp : p ∈ placesBelow path f) (hc : c ∈ p.inner)
    (h : Reached path f stop p) : Reached path f stop c := by
  rcases h with hstop | ⟨loop, hloop, hkind, haround, hrepeats⟩
  · have := (inner_bounds hlaid hp hc).1
    exact Or.inl (by omega)
  · exact Or.inr ⟨loop, hloop, hkind, haround, hrepeats.below hc⟩

theorem reached_of_loop (hp : p ∈ exposed path f) (hloop : p.node.kind.isLoop = true)
    (haround : p.Around stop) (hx : x ≠ .init) (hc : c ∈ p.part x) : Reached path f stop c :=
  Or.inr ⟨p, hp, hloop, haround, x, hx, c, hc, Or.inl rfl⟩

theorem Reached.parent (hlaid : Laid offset id f) (hp : p ∈ exposed path f) (hc : c ∈ p.part x)
    (h : Reached path f stop c ∨ c.Around stop) : Reached path f stop p ∨ p.Around stop := by
  have hpmem := exposed_subset _ _ p hp
  have hroot := (Place.mem_part.mp hc).1
  have hbounds := inner_bounds hlaid hpmem (child_mem_inner hroot)
  have hc' := Trace.start_le_stop hlaid (inner_subset hpmem c (child_mem_inner hroot))
  rcases h with (hstop | ⟨loop, hloop, hkind, haround, hrepeats⟩) | haround
  · by_cases hp' : stop ≤ p.node.start
    · exact Or.inl (Or.inl hp')
    · exact Or.inr ⟨by omega, by omega⟩
  · rcases hrepeats.parent hlaid (exposed_subset _ _ loop hloop) hpmem hroot
      with ⟨rfl, -⟩ | hrepeats
    · exact Or.inr haround
    · exact Or.inl (Or.inr ⟨loop, hloop, hkind, haround, hrepeats⟩)
  · exact Or.inr ⟨by have := haround.1; omega, by have := haround.2; omega⟩

theorem stop_le_start (hlaid : Laid offset id f) (hp : p ∈ placesBelow path f)
    (hc : c ∈ rootPlaces p.below p.children) (hd : d ∈ rootPlaces p.below p.children)
    (hcd : c.node.id < d.node.id) : c.node.stop ≤ d.node.start := by
  have hcmem := inner_subset hp c (child_mem_inner hc)
  have hdmem := inner_subset hp d (child_mem_inner hd)
  rcases inner_or_beyond hlaid hcmem hdmem hcd with hin | hbeyond
  · have hpc := (inner_bounds hlaid hp (child_mem_inner hc)).2.2
    rcases parent_within hlaid hp hcmem hd hin with rfl | hpin
    · omega
    · have := (inner_bounds hlaid hcmem hpin).2.2
      omega
  · exact hbeyond

theorem Reached.sibling (hlaid : Laid offset id f) (hp : p ∈ exposed path f) (hc : c ∈ p.part x)
    (hd : d ∈ p.part y) (hcd : c.node.id < d.node.id) (hxy : x = y ∨ p.node.kind.isLoop = false)
    (h : Reached path f stop c ∨ c.Around stop) : Reached path f stop d := by
  have hpmem := exposed_subset _ _ p hp
  obtain ⟨hroot, hpart⟩ := Place.mem_part.mp hc
  have hdroot := (Place.mem_part.mp hd).1
  have horder := stop_le_start hlaid hpmem hroot hdroot hcd
  have hc' := Trace.start_le_stop hlaid (inner_subset hpmem c (child_mem_inner hroot))
  rcases h with (hstop | ⟨loop, hloop, hkind, haround, hrepeats⟩) | haround
  · exact Or.inl (by omega)
  · rcases hrepeats.parent hlaid (exposed_subset _ _ loop hloop) hpmem hroot
      with ⟨rfl, hinit⟩ | hrepeats
    · -- the parent is the loop itself, and only children of one part follow each other in the text
      rcases hxy with rfl | hnot
      · exact reached_of_loop hp hkind haround (hpart ▸ hinit) hd
      · rw [hkind] at hnot
        cases hnot
    · exact Or.inr ⟨loop, hloop, hkind, haround, hrepeats.below (child_mem_inner hdroot)⟩
  · exact Or.inl (by have := haround.2; omega)

theorem Reached.root (hlaid : Laid offset id f) (hc : c ∈ rootPlaces path f)
    (hd : d ∈ rootPlaces path f) (hcd : c.node.id < d.node.id)
    (h : Reached path f stop c ∨ c.Around stop) : Reached path f stop d := by
  obtain ⟨hcmem, hcpath⟩ := rootPlaces_subset _ _ c hc
  obtain ⟨hdmem, hdpath⟩ := rootPlaces_subset _ _ d hd
  have hc' := Trace.start_le_stop hlaid hcmem
  have horder : c.node.stop ≤ d.node.start :=
    (inner_or_beyond hlaid hcmem hdmem hcd).resolve_left fun hin => inner_not_root hcmem hin hdpath
  rcases h with (hstop | ⟨loop, hloop, -, -, hrepeats⟩) | haround
  · exact Or.inl (by omega)
  · exact absurd hcpath (inner_not_root (exposed_subset _ _ loop hloop) hrepeats.inner)
  · exact Or.inl (by have := haround.2; omega)

/-! ### The parts of a place in the text -/

theorem Kind.Takes.pairwise {kind : Kind} {roles : List Role} (h : kind.Takes roles)
    (hkind : kind = .ifStmt ∨ kind = .switch ∨ kind = .caseClause) :
    roles.Pairwise fun _ r => r ≠ .cond := by
  have hheaded : ((∀ r ∈ roles.head?, r = .cond ∨ r = .unspecified) ∧
      ∀ r ∈ roles.tail, r = .unspecified) → roles.Pairwise fun _ r => r ≠ .cond := by
    rintro ⟨-, htail⟩
    have hne : ∀ r ∈ roles.tail, r ≠ .cond := fun r hr => by rw [htail r hr]; decide
    cases roles with
    | nil => exact List.Pairwise.nil
    | cons r roles =>
      exact List.pairwise_cons.mpr ⟨hne, List.pairwise_of_forall_mem_list fun _ _ b hb => hne b hb⟩
  rcases hkind with rfl | rfl | rfl
  · exact List.Pairwise.sublist h (by decide)
  · exact hheaded h
  · exact hheaded h

theorem Place.nextParts_next (hloop : p.node.kind.isLoop = false)
    (hnext : some y ∈ p.nextParts lenient x) (z : Part) :
    some z ∉ p.nextParts lenient y := by
  rcases next_cases hloop hnext with ⟨hk, -, rfl | rfl⟩ | ⟨hk, -, i, rfl⟩ | ⟨hk, -, rfl⟩ <;>
    simp [nextParts, hk]

theorem Place.role_of_next (hfits : Fits p.node p.children) (hc : c ∈ p.part x) (hd : d ∈ p.part y)
    (hloop : p.node.kind.isLoop = false) (hnext : some y ∈ p.nextParts lenient x) :
    (p.node.kind = .ifStmt ∨ p.node.kind = .switch ∨ p.node.kind = .caseClause) ∧
      c.node.role = .cond ∧ d.node.role ≠ .cond := by
  obtain ⟨hroot, hcpart⟩ := mem_part.mp hc
  obtain ⟨-, hdpart⟩ := mem_part.mp hd
  rcases next_cases hloop hnext with ⟨hk, rfl, hy⟩ | ⟨hk, rfl, i, rfl⟩ | ⟨hk, rfl, rfl⟩
  · rw [Fits, hk] at hfits
    have hrole := hfits.subset (role_mem hroot)
    simp only [partOf, hk] at hcpart hdpart
    refine ⟨Or.inl hk, ?_, fun hcond => ?_⟩
    · simp only [List.mem_cons, List.not_mem_nil, or_false] at hrole
      rcases hrole with hr | hr | hr
      · exact hr
      all_goals
        rw [hr] at hcpart
        cases hcpart
    · rw [hcond] at hdpart
      rcases hy with rfl | rfl <;> cases hdpart
  · simp only [partOf, hk] at hcpart hdpart
    refine ⟨Or.inr (Or.inl hk), ?_, fun hcond => ?_⟩
    · by_contra hr
      rw [if_neg hr] at hcpart
      cases hcpart
    · rw [if_pos hcond] at hdpart
      cases hdpart
  · simp only [partOf, hk] at hcpart hdpart
    refine ⟨Or.inr (Or.inr hk), ?_, fun hcond => ?_⟩
    · by_contra hr
      rw [if_neg hr] at hcpart
      cases hcpart
    · rw [if_pos hcond] at hdpart
      cases hdpart

theorem rel_of_id_lt {R : Place → Place → Prop} {xs : List Place} (hrel : xs.Pairwise R)
    (hpair : xs.Pairwise fun c d => c.node.id < d.node.id) (hc : c ∈ xs) (hd : d ∈ xs)
    (hcd : c.node.id < d.node.id) :
    R c d := by
  induction xs with
  | nil => cases hc
  | cons e xs ih =>
    obtain ⟨hrel, hrels⟩ := List.pairwise_cons.mp hrel
    obtain ⟨hlt, hlts⟩ := List.pairwise_cons.mp hpair
    rcases List.mem_cons.mp hc with rfl | hcx
    · rcases List.mem_cons.mp hd with rfl | hdx
      · exact absurd hcd (Nat.lt_irrefl _)
      · exact hrel d hdx
    · rcases List.mem_cons.mp hd with rfl | hdx
      · exact absurd (hlt c hcx) (Nat.lt_asymm hcd)
      · exact ih hrels hlts hcx hdx

theorem id_lt_of_next (hlaid : Laid offset id f) (hp : p ∈ placesBelow path f)
    (hfits : Fits p.node p.children) (hc : c ∈ p.part x) (hd : d ∈ p.part y)
    (hloop : p.node.kind.isLoop = false) (hnext : some y ∈ p.nextParts lenient x) :
    c.node.id < d.node.id := by
  obtain ⟨hkind, hcrole, hdrole⟩ := Place.role_of_next hfits hc hd hloop hnext
  obtain ⟨hcroot, -⟩ := Place.mem_part.mp hc
  obtain ⟨hdroot, -⟩ := Place.mem_part.mp hd
  have hchildren := (laid_children hlaid hp).1
  have hroles : (rootPlaces p.below p.children).Pairwise fun _ c => c.node.role ≠ .cond := by
    have hpairwise := Kind.Takes.pairwise hfits hkind
    rwa [← map_node_rootPlaces p.below p.children, List.map_map, List.pairwise_map] at hpairwise
  rcases Nat.lt_trichotomy c.node.id d.node.id with hlt | heq | hgt
  · exact hlt
  · have hcd := place_unique hchildren (child_mem_inner hcroot) (child_mem_inner hdroot) heq
    exact absurd (hcd ▸ hcrole) hdrole
  · exact absurd hcrole (rel_of_id_lt hroles (pairwise_rootPlaces hchildren) hdroot hcroot hgt)

/-! ### Steps and paths -/

def Ahead (lenient : Bool) (path : List Node) (f : SyntaxTree) (stop : Int) (p : Place)
    (x : Part) : Prop :=
  ∀ y, some y ∈ p.nextParts lenient x → ∀ c ∈ p.part y, Reached path f stop c

theorem ahead_of_loop (hp : p ∈ exposed path f) (hloop : p.node.kind.isLoop = true)
    (haround : p.Around stop) (x : Part) :
    Ahead lenient path f stop p x := by
  intro y hy c hc
  refine reached_of_loop hp hloop haround ?_ hc
  rintro rfl
  unfold Place.nextParts at hy
  split at hy <;> simp_all

/-- Where control is after the point, and where it goes from there. -/
def Moment.IsPast (lenient : Bool) (path : List Node) (f : SyntaxTree) (stop : Int) : Moment → Prop
  | .enter p => p ∈ placesBelow path f ∧ Reached path f stop p
  | .run p x =>
    Reached path f stop p ∨ p.Around stop ∧ (∀ c ∈ p.part x, Reached path f stop c) ∧
      Ahead lenient path f stop p x
  | .ran p x => Reached path f stop p ∨ p.Around stop ∧ Ahead lenient path f stop p x
  | .done p o => (Reached path f stop p ∨ p.Around stop) ∧ o.Local
  | .finished _ => True

variable {m m' : Moment × List Ending}

theorem Moves.isPast (hlaid : Laid offset id f)
    (hfits : ∀ p ∈ exposed path f, Fits p.node p.children)
    (hstructured : ∀ p ∈ exposed path f, p.node.kind ≠ .gotoStmt ∧ p.node.kind ≠ .tryStmt)
    (hmove : Moves lenient path f m m') (hm : m.1.IsPast lenient path f stop) :
    m'.1.IsPast lenient path f stop := by
  have hpair : ∀ {p : Place} (x : Part), p ∈ exposed path f → (p.part x).Pairwise fun c d =>
    c.node.id < d.node.id :=
    fun x hp => Place.pairwise_part hlaid (exposed_subset _ _ _ hp) x
  have hlocal : Ending.normal.Local := nofun
  cases hmove with
  | skip => exact ⟨Or.inl hm.2, hlocal⟩
  | start => exact Or.inl hm.2
  | @first p x c r k hp hpart =>
    have hc : c ∈ p.part x := by rw [hpart]; simp
    have hroot := (Place.mem_part.mp hc).1
    have hpmem := exposed_subset _ _ p hp
    refine ⟨inner_subset hpmem c (child_mem_inner hroot), ?_⟩
    rcases hm with hm | ⟨-, hm, -⟩
    · exact hm.below hlaid hpmem (child_mem_inner hroot)
    · exact hm c hc
  | empty =>
    rcases hm with hm | ⟨haround, -, hahead⟩
    · exact Or.inl hm
    · exact Or.inr ⟨haround, hahead⟩
  | @next p x l c d r k hp hpart =>
    have hc : c ∈ p.part x := by rw [hpart]; simp
    have hd : d ∈ p.part x := by rw [hpart]; simp
    exact ⟨inner_subset (exposed_subset _ _ p hp) d (child_mem_inner (Place.mem_part.mp hd).1),
      Reached.sibling hlaid hp hc hd (lt_of_adjacent (hpair x hp) hpart) (Or.inl rfl) hm.1⟩
  | @last p x l c k hp hpart =>
    have hc : c ∈ p.part x := by rw [hpart]; simp
    rcases Reached.parent hlaid hp hc hm.1 with hreached | haround
    · exact Or.inl hreached
    · -- the point lies in the place: a loop comes back to its parts, all else goes on behind the child
      refine Or.inr ⟨haround, ?_⟩
      cases hloop : p.node.kind.isLoop with
      | true => exact ahead_of_loop hp hloop haround x
      | false =>
        intro y hy d hd
        have hlt := id_lt_of_next hlaid (exposed_subset _ _ p hp) (hfits p hp) hc hd hloop hy
        exact Reached.sibling hlaid hp hc hd hlt (Or.inr hloop) hm.1
  | @turn p x y k hp _ hnext =>
    rcases hm with hm | ⟨haround, hahead⟩
    · exact Or.inl hm
    · refine Or.inr ⟨haround, hahead y hnext, ?_⟩
      cases hloop : p.node.kind.isLoop with
      | true => exact ahead_of_loop hp hloop haround y
      | false => exact fun z hz => absurd hz (Place.nextParts_next hloop hnext z)
  | @settle p x o k hp _ _ ho =>
    exact ⟨hm.imp_right And.left, Place.local_settles (hstructured p hp).1 ho⟩
  | pass hp hc _ => exact ⟨Reached.parent hlaid hp hc hm.1, hm.2⟩
  | breakOut hp hc _ => exact ⟨Reached.parent hlaid hp hc hm.1, hlocal⟩
  | @again p x c b k hp hc hb =>
    rcases Reached.parent hlaid hp hc hm.1 with hreached | haround
    · exact Or.inl hreached
    · exact Or.inr ⟨haround, fun c hc => reached_of_loop (x := .post) hp hb.2.1 haround nofun hc,
        ahead_of_loop hp hb.2.1 haround _⟩
  | @fallThrough p l c d r b k hp hclauses hb =>
    have hc : c ∈ p.clauses := by rw [hclauses]; simp
    have hd : d ∈ p.clauses := by rw [hclauses]; simp
    have hlt : c.node.id < d.node.id :=
      lt_of_adjacent
        ((pairwise_rootPlaces (laid_children hlaid (exposed_subset _ _ p hp)).1).filter _) hclauses
    exact Or.inl (Reached.sibling hlaid hp (mem_part_clause hb.2 hc) (mem_part_clause hb.2 hd) hlt
      (Or.inr (by rw [hb.2]; rfl)) hm.1)
  | @fallOut p l c b k hp hclauses hb =>
    have hc : c ∈ p.clauses := by rw [hclauses]; simp
    exact ⟨Reached.parent hlaid hp (mem_part_clause hb.2 hc) hm.1, hlocal⟩
  | land _ _ _ hb => exact absurd hb.1 (hm.2 _ rfl)
  | handle hp htry | wait hp htry | close hp htry | release hp htry | replace hp htry =>
    exact absurd htry (hstructured _ hp).2
  | @nextRoot l c d r k hroots =>
    have hc : c ∈ rootPlaces path f := by rw [hroots]; simp
    have hd : d ∈ rootPlaces path f := by rw [hroots]; simp
    exact ⟨(rootPlaces_subset _ _ d hd).1,
      Reached.root hlaid hc hd (lt_of_adjacent (pairwise_rootPlaces hlaid) hroots) hm.1⟩
  | lastRoot => trivial
  | landRoot _ _ hb => exact absurd hb.1 (hm.2 _ rfl)
  | leave => trivial

/-- A path that has come to the end of a place goes on to places behind it, or round a loop. -/
theorem reached_of_path (hlaid : Laid offset id f)
    (hfits : ∀ p ∈ exposed path f, Fits p.node p.children)
    (hstructured : ∀ p ∈ exposed path f, p.node.kind ≠ .gotoStmt ∧ p.node.kind ≠ .tryStmt)
    (hc : c ∈ placesBelow path f) {k k' : List Ending}
    (hpath : Relation.ReflTransGen (Moves lenient path f) (.done c .normal, k) (.enter p, k')) :
    p ∈ placesBelow path f ∧ Reached path f c.node.stop p := by
  have hinvariant : ∀ m, Relation.ReflTransGen (Moves lenient path f) (.done c .normal, k) m →
      m.1.IsPast lenient path f c.node.stop := by
    intro m hm
    induction hm with
    | refl => exact ⟨Or.inr ⟨Trace.laid_lt hlaid hc, Int.le_refl _⟩, nofun⟩
    | tail _ hmove ih => exact hmove.isPast hlaid hfits hstructured ih
  exact hinvariant _ hpath

theorem exposed_of_path (hlaid : Laid offset id f) (hp : p ∈ placesBelow path f)
    (hc : c ∈ rootPlaces p.below p.children) {k k' : List Ending}
    (hpath : Relation.ReflTransGen (Moves lenient path f) (.done c .normal, k) (.enter d, k')) :
    p ∈ exposed path f := by
  have hparent : ∀ q ∈ exposed path f, ∀ x, c ∈ q.part x → p ∈ exposed path f := by
    intro q hq x hcq
    rwa [parent_unique hlaid hp (exposed_subset _ _ q hq) hc (Place.mem_part.mp hcq).1]
  have hroot : c ∉ rootPlaces path f :=
    fun hroot => child_not_root hp hc (rootPlaces_subset _ _ c hroot).2
  rcases Relation.ReflTransGen.cases_head hpath with heq | ⟨m, hmove, -⟩
  · cases heq
  · cases hmove with
    | next hq hpart => exact hparent _ hq _ (by rw [hpart]; simp)
    | last hq hpart => exact hparent _ hq _ (by rw [hpart]; simp)
    | pass _ _ ho => exact ho.elim
    | wait _ _ _ _ ho | replace _ _ _ ho => exact absurd rfl ho
    | nextRoot hroots => exact absurd (by rw [hroots]; simp) hroot
    | lastRoot hroots => exact absurd (by rw [hroots]; simp) hroot
    | leave _ ho _ => exact absurd rfl ho

end Extraction
