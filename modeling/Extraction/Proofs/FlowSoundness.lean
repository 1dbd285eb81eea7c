import Mathlib.Logic.Relation
import Extraction.Proofs.Progress
import Extraction.Proofs.RegularFlow
import Extraction.Proofs.Selected

/-!
# Flows and paths

The flow of a selection without `try` is right about every path through it: if the flow excludes
returns no path returns, if it excludes normal completion no path completes normally, and every jump
by which a path leaves is open.
-/

namespace Extraction

open SyntaxTree Sketch

variable {lenient : Bool} {path : List Node} {f : SyntaxTree} {offset : Int} {id : Nat}
  {m m' : Moment × List Ending}

def Ending.Shown (parts : List FlowNode) : Ending → Prop
  | .returned => ∃ g ∈ parts, g.flow.mode.MayReturn
  | .jumped b => ∃ g ∈ parts, b ∈ g.flow.openBranches
  | _ => True

/-- Jumps to labels come from statements of the forest. -/
def Ending.Grounded (path : List Node) (f : SyntaxTree) (o : Ending) : Prop :=
  ∀ b, o = .jumped b → b.kind = .gotoBranch → ∃ e ∈ exposed path f, e.node.kind = .gotoStmt

namespace Moment

/-- The returns and jumps met so far are in the flows of the places they have left. -/
def Shown (path : List Node) (f : SyntaxTree) : Moment → Prop
  | enter p => p ∈ exposed path f
  | run p _ | ran p _ => p ∈ exposed path f ∧ p.node.kind.isScope = false
  | done p o => p ∈ exposed path f ∧ o.Shown p.parts ∧ o.Grounded path f
  | finished o =>
    o.Shown (FlowNode.parts path f) ∧ ∀ b, o = .jumped b → ∀ l ∈ exposed path f, ¬ b.LandsOn l

end Moment

theorem Ending.Shown.mono {parts parts' : List FlowNode} (hsub : ∀ g ∈ parts, g ∈ parts')
    {o : Ending} (h : o.Shown parts) : o.Shown parts' := by
  cases o with
  | normal | raised => trivial
  | returned =>
    obtain ⟨g, hg, hm⟩ := h
    exact ⟨g, hsub g hg, hm⟩
  | jumped b =>
    obtain ⟨g, hg, hb⟩ := h
    exact ⟨g, hsub g hg, hb⟩

theorem Place.exists_parts {P : Flow → Prop} {p : Place}
    (hstatement : p.node.kind.isStatement = true) (h : P p.flow) :
    ∃ g ∈ p.parts, P g.flow := by
  rw [parts_statement hstatement]
  exact ⟨_, List.mem_singleton_self _, h⟩

theorem Place.shown_settles {p : Place} {o : Ending} (ho : o ∈ p.settles) : o.Shown p.parts := by
  have hjump : ∀ {b : BranchTarget}, p.node.kind.isStatement = true → p.flow = ⟨.noReturn, [b]⟩ →
      (Ending.jumped b).Shown p.parts := fun {b} hk hflow =>
    exists_parts (P := fun g => b ∈ g.openBranches) hk
      (by rw [hflow]; exact List.mem_singleton_self _)
  unfold settles at ho
  split at ho
  next hk =>
    rw [List.mem_singleton.mp ho]
    refine exists_parts (P := fun g => g.mode.MayReturn) (by rw [hk]; rfl) ?_
    simp only [flow, Flow.ofStatement, hk]
    exact Or.inr rfl
  next =>
    rw [List.mem_singleton.mp ho]
    trivial
  next =>
    simp only [List.mem_cons, List.not_mem_nil, or_false] at ho
    rcases ho with rfl | rfl <;> trivial
  next hk =>
    rw [List.mem_singleton.mp ho]
    exact hjump (by rw [hk]; rfl) (by simp only [flow, Flow.ofStatement, hk])
  next hk =>
    rw [List.mem_singleton.mp ho]
    exact hjump (by rw [hk]; rfl) (by simp only [flow, Flow.ofStatement, hk])
  next hk =>
    rw [List.mem_singleton.mp ho]
    exact hjump (by rw [hk]; rfl) (by simp only [flow, Flow.ofStatement, hk])
  next hk =>
    rw [List.mem_singleton.mp ho]
    exact hjump (by rw [hk]; rfl) (by simp only [flow, Flow.ofStatement, hk])
  next =>
    rw [List.mem_singleton.mp ho]
    trivial

theorem Place.grounded_settles {p : Place} (hp : p ∈ exposed path f) {o : Ending}
    (ho : o ∈ p.settles) :
    o.Grounded path f := by
  rintro b rfl hb
  unfold settles at ho
  split at ho <;> simp at ho <;> subst ho <;> first | exact ⟨p, hp, by assumption⟩ | cases hb

theorem SyntaxTree.Regular.shown_pass (h : Regular path f) {p c : Place} (hp : p ∈ exposed path f)
    (hscope : p.node.kind.isScope = false) (hc : c ∈ rootPlaces p.below p.children) {o : Ending}
    (ho : p.Passes o) (hshown : o.Shown c.parts) : o.Shown p.parts := by
  cases hstatement : p.node.kind.isStatement with
  | false =>
    rw [Place.parts_plain hstatement hscope]
    exact hshown.mono fun g hg => mem_parts_children hc hg
  | true =>
    rw [Place.parts_statement hstatement]
    cases o with
    | normal | raised => trivial
    | returned =>
      obtain ⟨g, hg, hm⟩ := hshown
      exact ⟨_, List.mem_singleton_self _, h.mayReturn_part hp hstatement hc hg hm⟩
    | jumped b =>
      obtain ⟨g, hg, hb⟩ := hshown
      refine ⟨_, List.mem_singleton_self _,
        (h.orderly.mem_openBranches hp).mpr (Or.inr ⟨?_, g, mem_parts_children hc hg, hb⟩)⟩
      rintro (hended | hcontinued | hfallen)
      · exact ho.2.1 hended
      · exact ho.2.2.1 hcontinued
      · exact ho.2.2.2.1 hfallen

theorem Moves.shown (h : Regular path f) (hmove : Moves lenient path f m m')
    (hm : m.1.Shown path f) :
    m'.1.Shown path f := by
  have hchild : ∀ {p c : Place} {x : Part}, p ∈ exposed path f → c ∈ exposed path f → c ∈ p.part x →
      c ∈ rootPlaces p.below p.children ∧ p.node.kind.isScope = false := by
    intro p c x hp hexposed hc
    have hroot := (Place.mem_part.mp hc).1
    exact ⟨hroot, parent_not_scope hp hroot hexposed⟩
  have hnormal : ∀ {p : Place}, p ∈ exposed path f → (Moment.done p .normal).Shown path f :=
    fun hp =>
    ⟨hp, trivial, nofun⟩
  cases hmove with
  | skip hp _ => exact hnormal hp
  | start hp hscope => exact ⟨hp, hscope⟩
  | first hp hpart =>
    exact child_exposed hp hm.2 (Place.mem_part.mp (hpart ▸ List.mem_cons_self)).1
  | empty hp _ => exact hm
  | next hp hpart =>
    obtain ⟨_, hscope⟩ := hchild hp hm.1 (by rw [hpart]; simp)
    exact child_exposed hp hscope (Place.mem_part.mp (by rw [hpart]; simp)).1
  | last hp hpart =>
    obtain ⟨_, hscope⟩ := hchild hp hm.1 (by rw [hpart]; simp)
    exact ⟨hp, hscope⟩
  | turn hp _ _ => exact hm
  | settle hp _ _ ho => exact ⟨hp, Place.shown_settles ho, Place.grounded_settles hp ho⟩
  | pass hp hc ho =>
    obtain ⟨hroot, hscope⟩ := hchild hp hm.1 hc
    exact ⟨hp, h.shown_pass hp hscope hroot ho hm.2.1, hm.2.2⟩
  | breakOut hp _ _ => exact hnormal hp
  | again hp hc _ => exact ⟨hp, (hchild hp hm.1 hc).2⟩
  | @fallThrough p l c d r b k hp hclauses hb =>
    obtain ⟨hd, hrole⟩ := List.mem_filter.mp (show d ∈ p.clauses by rw [hclauses]; simp)
    have hcase := h.orderly.clause_kind hp hb.2 hd (by simpa using hrole)
    exact ⟨child_exposed hp (by rw [hb.2]; rfl) hd, by rw [hcase]; rfl⟩
  | fallOut hp _ _ => exact hnormal hp
  | land hp hc hl _ =>
    obtain ⟨_, hscope⟩ := hchild hp hm.1 hc
    exact mem_exposed_children hp hscope _ hl
  | handle hp htry | wait hp htry | close hp htry | release hp htry | replace hp htry =>
    exact absurd htry (h.tryFree _ hp).1
  | nextRoot hroots => exact rootPlaces_exposed _ (by rw [hroots]; simp)
  | lastRoot _ => exact ⟨trivial, nofun⟩
  | landRoot _ hl _ => exact hl
  | leave hc _ hland =>
    refine ⟨hm.2.1.mono fun g hg => ?_, hland⟩
    rw [FlowNode.parts_eq_flatMap]
    exact List.mem_flatMap.mpr ⟨_, hc, hg⟩

namespace Place

def Has (p : Place) (x : Part) : Prop :=
  match p.node.kind with
  | .ifStmt => x = .heads ∨ x = .thenPart ∨ x = .elsePart
  | .loop => x = .init ∨ x = .test ∨ x = .body ∨ x = .post
  | .doWhile => x = .test ∨ x = .body ∨ x = .post
  | .switch => x = .heads ∨ ∃ c ∈ p.clauses, x = .clause c.node.id
  | .caseClause => x = .test ∨ x = .body
  | _ => x = .body

theorem has_firstPart (p : Place) : p.Has p.firstPart := by
  unfold Has firstPart
  split <;> simp_all

theorem has_nextParts {p : Place} {x y : Part} (hy : some y ∈ p.nextParts lenient x) : p.Has y := by
  unfold nextParts at hy
  split at hy <;> rename_i hk
  · simp only [Has, hk]
    exact Or.inr (by simpa using hy)
  · simp_all [Has]
  · simp_all [Has]
  · have hbody : y = .body := by split at hy <;> simpa using hy
    simp [Has, hk, hbody]
  · have hbody : y = .body := by split at hy <;> simpa using hy
    simp [Has, hk, hbody]
  · simp_all [Has]
  · simp_all [Has]
  · have htest : y = .test := by split at hy <;> simpa using hy
    simp [Has, hk, htest]
  · have htest : y = .test := by split at hy <;> simpa using hy
    simp [Has, hk, htest]
  · simp only [Has, hk]
    rcases List.mem_append.mp hy with hy | hy
    · obtain ⟨c, hc, hcy⟩ := List.mem_map.mp hy
      exact Or.inr ⟨c, hc, (Option.some.inj hcy).symm⟩
    · split at hy <;> simp at hy
  · simp_all [Has]
  · simp at hy

theorem Has.eq_body {p : Place} (h : p.Linear) {x : Part} (hx : p.Has x) : x = .body := by
  obtain ⟨h₁, h₂, h₃, h₄⟩ := h
  unfold Has at hx
  split at hx <;> simp_all [Kind.isLoop]

end Place

/-- A clause that is reached from the one before it: the switch around it completes. -/
def Excused (path : List Node) (f : SyntaxTree) (c : Place) : Prop :=
  ∃ p ∈ exposed path f, p.node.kind = .switch ∧ c ∈ p.clauses ∧ p.Done

structure Entered (path : List Node) (f : SyntaxTree) (p : Place) (x : Part) : Prop where
  has : p.Has x
  post : x = .post → p.Done
  test : x = .test → p.node.kind = .doWhile → p.Done
  body : x = .body → p.node.kind = .caseClause → (∀ c ∈ p.part .test, c.Done) ∨ Excused path f p

/-- Control has come this far only if what it has passed completes. -/
def Moment.Passed (path : List Node) (f : SyntaxTree) : Moment → Prop
  | enter p => Known Place.Done (Entered path f) path f p
  | run p x => Known Place.Done (Entered path f) path f p ∧ Entered path f p x
  | ran p x => Known Place.Done (Entered path f) path f p ∧ Entered path f p x ∧
      ((∀ c ∈ p.part x, c.Done) ∨ p.node.kind = .switch ∧ p.Done)
  | done p o =>
    Known Place.Done (Entered path f) path f p ∧ (o = .normal → p.Done ∨ Excused path f p)
  | finished o => o = .normal → ∀ r ∈ rootPlaces path f, r.Done

theorem Excused.switch (hlaid : Laid offset id f) {p c : Place} (h : Excused path f c)
    (hp : p ∈ exposed path f) (hc : c ∈ rootPlaces p.below p.children) :
    p.node.kind = .switch ∧ c ∈ p.clauses ∧ p.Done := by
  obtain ⟨q, hq, hk, hclause, hdone⟩ := h
  obtain rfl := parent_unique hlaid (exposed_subset _ _ p hp) (exposed_subset _ _ q hq) hc
    (List.mem_filter.mp hclause).1
  exact ⟨hk, hclause, hdone⟩

theorem SyntaxTree.Regular.done_ran (h : Regular path f) {p : Place} (hp : p ∈ exposed path f)
    (hscope : p.node.kind.isScope = false) {x : Part} (hentered : Entered path f p x)
    (hran : (∀ c ∈ p.part x, c.Done) ∨ p.node.kind = .switch ∧ p.Done)
    (hnone : none ∈ p.nextParts lenient x) (hexit : Ending.normal ∈ p.settles) :
    p.Done ∨ Excused path f p := by
  have hhas := hentered.has
  by_cases hif : p.node.kind = .ifStmt
  · simp only [Place.Has, hif] at hhas
    have hdone := hran.resolve_right fun hs => by rw [hif] at hs; cases hs.1
    rcases hhas with rfl | hx
    · simp [Place.nextParts, hif] at hnone
    · exact Or.inl (h.done_conditional hp hif hx hdone)
  by_cases hloop : p.node.kind = .loop
  · simp only [Place.Has, hloop] at hhas
    rcases hhas with rfl | rfl | rfl | rfl
    · simp [Place.nextParts, hloop] at hnone
    · refine Or.inl (done_tested hloop fun hnil => ?_)
      simp [Place.nextParts, hloop, hnil] at hnone
    · simp [Place.nextParts, hloop] at hnone
    · exact Or.inl (hentered.post rfl)
  by_cases hdo : p.node.kind = .doWhile
  · simp only [Place.Has, hdo] at hhas
    rcases hhas with rfl | rfl | rfl
    · exact Or.inl (hentered.test rfl hdo)
    · simp [Place.nextParts, hdo] at hnone
    · exact Or.inl (hentered.post rfl)
  by_cases hswitch : p.node.kind = .switch
  · rcases hran with hran | hran
    · simp only [Place.Has, hswitch] at hhas
      rcases hhas with rfl | ⟨c, hc, rfl⟩
      · refine Or.inl (h.done_unmatched hp hswitch ?_ hran)
        rw [Bool.eq_false_iff]
        intro hany
        simp [Place.nextParts, hswitch, hany] at hnone
      · exact Or.inl (h.done_clause hp hswitch hc (hran c (mem_part_clause hswitch hc)))
    · exact Or.inl hran.2
  have hdone := hran.resolve_right fun hs => hswitch hs.1
  have hnotLoop : p.node.kind.isLoop = false := by
    cases hk : p.node.kind <;> first | rfl | exact absurd hk hloop | exact absurd hk hdo
  by_cases hcase : p.node.kind = .caseClause
  · simp only [Place.Has, hcase] at hhas
    rcases hhas with rfl | rfl
    · simp [Place.nextParts, hcase] at hnone
    · refine (hentered.body rfl hcase).imp_left fun htest => ?_
      refine h.done_children hp hscope ⟨hif, hnotLoop, hswitch⟩ hexit fun c hc => ?_
      by_cases hrole : c.node.role = .cond
      · exact htest c (Place.mem_part.mpr ⟨hc, by simp [Place.partOf, hcase, hrole]⟩)
      · exact hdone c (Place.mem_part.mpr ⟨hc, by simp [Place.partOf, hcase, hrole]⟩)
  · have hlinear : p.Linear := ⟨hif, hnotLoop, hswitch, hcase⟩
    obtain rfl := hhas.eq_body hlinear
    refine Or.inl (h.done_children hp hscope ⟨hif, hnotLoop, hswitch⟩ hexit fun c hc => hdone c ?_)
    exact Place.mem_part_body hlinear (h.tryFree p hp).1 hc

theorem SyntaxTree.Regular.entered_turn (h : Regular path f) {p : Place} (hp : p ∈ exposed path f)
    {x y : Part} (hentered : Entered path f p x)
    (hran : (∀ c ∈ p.part x, c.Done) ∨ p.node.kind = .switch ∧ p.Done)
    (hnext : some y ∈ p.nextParts lenient x) : Entered path f p y := by
  have hhas := hentered.has
  refine ⟨Place.has_nextParts hnext, ?_, ?_, ?_⟩
  · rintro rfl
    unfold Place.nextParts at hnext
    split at hnext <;> rename_i hk <;> try (simp at hnext; done)
    · exact h.done_loop hp (Or.inl hk) (hran.resolve_right fun hs => by rw [hk] at hs; cases hs.1)
    · exact h.done_loop hp (Or.inr hk) (hran.resolve_right fun hs => by rw [hk] at hs; cases hs.1)
  · rintro rfl hdo
    have hdone := hran.resolve_right fun hs => by rw [hdo] at hs; cases hs.1
    simp only [Place.Has, hdo] at hhas
    rcases hhas with rfl | rfl | rfl
    · exact hentered.test rfl hdo
    · simp [Place.nextParts, hdo] at hnext
    · exact hentered.post rfl
  · rintro rfl hcase
    have hdone := hran.resolve_right fun hs => by rw [hcase] at hs; cases hs.1
    simp only [Place.Has, hcase] at hhas
    rcases hhas with rfl | rfl
    · exact Or.inl hdone
    · simp [Place.nextParts, hcase] at hnext

theorem Excused.not_root {c : Place} (h : Excused path f c) : c ∉ rootPlaces path f := by
  obtain ⟨p, hp, -, hclause, -⟩ := h
  exact fun hc => child_not_root (exposed_subset _ _ p hp) (List.mem_filter.mp hclause).1
    (rootPlaces_subset _ _ c hc).2

/-- Without jumps to labels, every step keeps what has been passed in agreement with the flows. -/
theorem Moves.passed (h : Regular path f) (hlaid : Laid offset id f)
    (hgoto : ∀ e ∈ exposed path f, e.node.kind ≠ .gotoStmt) (hmove : Moves lenient path f m m')
    (hshown : m.1.Shown path f) (hm : m.1.Passed path f) : m'.1.Passed path f := by
  have hpair : ∀ {p : Place} (x : Part), p ∈ exposed path f → (p.part x).Pairwise fun c d =>
    c.node.id < d.node.id :=
    fun x hp => Place.pairwise_part hlaid (exposed_subset _ _ _ hp) x
  have hland : ∀ {o : Ending} {b : BranchTarget} {l : Place}, o = .jumped b → o.Grounded path f →
      ¬ b.LandsOn l := by
    intro o b l ho hground hl
    obtain ⟨e, he, hk⟩ := hground b ho hl.1
    exact hgoto e he hk
  cases hmove with
  | skip hp hscope =>
    refine ⟨hm, fun _ => Or.inl fun g hg => ?_⟩
    rw [Place.parts_scope hscope] at hg
    cases hg
  | @start p k hp hscope =>
    refine ⟨hm, p.has_firstPart, ?_, ?_, ?_⟩
    · intro hx
      unfold Place.firstPart at hx
      split at hx <;> cases hx
    · intro hx hk
      simp [Place.firstPart, hk] at hx
    · intro hx hk
      simp [Place.firstPart, hk] at hx
  | @first p x c r k hp hpart =>
    exact hm.1.child hlaid hp (by rw [hpart]; simp) (earlier_first (hpair x hp) hpart) hm.2
  | @empty p x k hp hpart => exact ⟨hm.1, hm.2, Or.inl (by rw [hpart]; exact List.forall_mem_nil _)⟩
  | @next p x l c d r k hp hpart =>
    have hc : c ∈ p.part x := by rw [hpart]; simp
    have hd : d ∈ p.part x := by rw [hpart]; simp
    obtain ⟨hearlier, hentered⟩ := hm.1.parts p hp x c hc (Or.inl rfl)
    have hdone : c.Done := (hm.2 rfl).resolve_right fun hexcused => by
      -- only a clause is excused, and a clause has no sibling in its part
      obtain ⟨hk, hclause, -⟩ := hexcused.switch hlaid hp (Place.mem_part.mp hc).1
      have hx : x = .clause c.node.id :=
        (Place.mem_part.mp hc).2.symm.trans (Place.mem_part.mp (mem_part_clause hk hclause)).2
      have hcd := lt_of_adjacent (hpair x hp) hpart
      rw [hx] at hd
      have := id_of_mem_clause hd
      omega
    exact (hm.1.parent hc).child hlaid hp hd
      (earlier_next (hpair x hp) hpart hearlier hdone) hentered
  | @last p x l c k hp hpart =>
    have hc : c ∈ p.part x := by rw [hpart]; simp
    obtain ⟨hearlier, hentered⟩ := hm.1.parts p hp x c hc (Or.inl rfl)
    refine ⟨hm.1.parent hc, hentered,
      (hm.2 rfl).imp (earlier_last (hpair x hp) hpart hearlier) fun hexcused => ?_⟩
    obtain ⟨hk, -, hdone⟩ := hexcused.switch hlaid hp (Place.mem_part.mp hc).1
    exact ⟨hk, hdone⟩
  | turn hp _ hnext => exact ⟨hm.1, h.entered_turn hp hm.2.1 hm.2.2 hnext⟩
  | settle hp _ hnone ho =>
    refine ⟨hm.1, ?_⟩
    rintro rfl
    exact h.done_ran hp hshown.2 hm.2.1 hm.2.2 hnone ho
  | pass hp hc ho =>
    refine ⟨hm.1.parent hc, ?_⟩
    rintro rfl
    exact ho.elim
  | breakOut hp hc hb =>
    obtain ⟨g, hg, hopen⟩ := hshown.2.1
    exact ⟨hm.1.parent hc, fun _ =>
      Or.inl (h.done_target hp (Place.mem_part.mp hc).1 hg hopen (Or.inl hb))⟩
  | @again p x c b k hp hc hb =>
    obtain ⟨g, hg, hopen⟩ := hshown.2.1
    have hdone := h.done_target hp (Place.mem_part.mp hc).1 hg hopen (Or.inr (Or.inl hb))
    refine ⟨hm.1.parent hc, ?_, fun _ => hdone, nofun, nofun⟩
    rcases Kind.isLoop_iff.mp hb.2.1 with hk | hk <;> simp [Place.Has, hk]
  | @fallThrough p l c d r b k hp hclauses hb =>
    have hc : c ∈ p.clauses := by rw [hclauses]; simp
    have hd : d ∈ p.clauses := by rw [hclauses]; simp
    obtain ⟨g, hg, hopen⟩ := hshown.2.1
    have hdone := h.done_target hp (List.mem_filter.mp hc).1 hg hopen (Or.inr (Or.inr hb))
    have hhas : p.Has (.clause d.node.id) := by
      simp only [Place.Has, hb.2]
      exact Or.inr ⟨d, hd, rfl⟩
    have hcase := h.orderly.clause_kind hp hb.2 (List.mem_filter.mp hd).1
      (by simpa using (List.mem_filter.mp hd).2)
    refine ⟨(hm.1.parent (mem_part_clause hb.2 hc)).child hlaid hp (mem_part_clause hb.2 hd)
      (fun s hs hlt => ?_)
      ⟨hhas, nofun, nofun, nofun⟩, ?_, nofun, nofun, fun _ _ => Or.inr ⟨p, hp, hb.2, hd, hdone⟩⟩
    · have := id_of_mem_clause hs
      omega
    · simp [Place.Has, hcase]
  | @fallOut p l c b k hp hclauses hb =>
    have hc : c ∈ p.clauses := by rw [hclauses]; simp
    obtain ⟨g, hg, hopen⟩ := hshown.2.1
    exact ⟨hm.1.parent (mem_part_clause hb.2 hc),
      fun _ => Or.inl (h.done_target hp (List.mem_filter.mp hc).1 hg hopen (Or.inr (Or.inr hb)))⟩
  | land hp hc hl hb => exact absurd hb (hland rfl hshown.2.2)
  | handle hp htry | wait hp htry | close hp htry | release hp htry | replace hp htry =>
    exact absurd htry (h.tryFree _ hp).1
  | @nextRoot l c d r k hroots =>
    have hc : c ∈ rootPlaces path f := by rw [hroots]; simp
    have hdone : c.Done := (hm.2 rfl).resolve_right fun hexcused => hexcused.not_root hc
    exact Known.root (by rw [hroots]; simp)
      (earlier_next (pairwise_rootPlaces hlaid) hroots (hm.1.roots c hc (Or.inl rfl)) hdone)
  | @lastRoot l c k hroots =>
    have hc : c ∈ rootPlaces path f := by rw [hroots]; simp
    have hdone : c.Done := (hm.2 rfl).resolve_right fun hexcused => hexcused.not_root hc
    exact fun _ => earlier_last (pairwise_rootPlaces hlaid) hroots
      (hm.1.roots c hc (Or.inl rfl)) hdone
  | landRoot hc hl hb => exact absurd hb (hland rfl hshown.2.2)
  | leave hc ho _ =>
    intro hn
    exact absurd hn ho

theorem shown_of_path (h : Regular path f)
    (hpath : Relation.ReflTransGen (Moves lenient path f) (Moment.start path f, []) m) :
    m.1.Shown path f := by
  induction hpath with
  | refl =>
    unfold Moment.start
    split
    · exact ⟨trivial, nofun⟩
    next c r hroots => exact rootPlaces_exposed c (by rw [hroots]; exact List.mem_cons_self)
  | tail _ hmove ih => exact hmove.shown h ih

theorem passed_of_path (h : Regular path f) (hlaid : Laid offset id f)
    (hgoto : ∀ e ∈ exposed path f, e.node.kind ≠ .gotoStmt)
    (hpath : Relation.ReflTransGen (Moves lenient path f) (Moment.start path f, []) m) :
    m.1.Passed path f := by
  induction hpath with
  | refl =>
    unfold Moment.start
    split
    next hroots =>
      intro _ r hr
      rw [hroots] at hr
      cases hr
    next c r hroots =>
      exact Known.root (by rw [hroots]; exact List.mem_cons_self)
        (earlier_first (pairwise_rootPlaces hlaid) hroots)
  | tail hpath hmove ih => exact hmove.passed h hlaid hgoto (shown_of_path h hpath) ih

theorem SyntaxTree.Regular.completes_of_path (h : Regular path f) (hlaid : Laid offset id f)
    {k : List Ending} (hpath : Relation.ReflTransGen (Moves lenient path f)
    (Moment.start path f, []) (.finished .normal, k)) :
    (Flow.sequence ((FlowNode.parts path f).map (·.flow))).mode.Completes := by
  by_cases hgoto : ∃ e ∈ exposed path f, e.node.kind = .gotoStmt
  · obtain ⟨e, he, hk⟩ := hgoto
    obtain ⟨g, hg, hopen⟩ := h.goto_open hlaid he hk
    refine Flow.sane_sequence (fun k hk => ?_)
      (List.ne_nil_of_mem (a := ⟨.gotoBranch, e.node.label⟩) ?_)
    · obtain ⟨g, hg, rfl⟩ := List.mem_map.mp hk
      rw [FlowNode.parts_eq_flatMap] at hg
      obtain ⟨c, hc, hgc⟩ := List.mem_flatMap.mp hg
      exact h.sane (rootPlaces_exposed c hc) g hgc
    · rw [Flow.openBranches_sequence]
      exact Flow.mem_openBranches_alternatives.mpr ⟨g.flow, List.mem_map_of_mem hg, hopen⟩
  · have hdone : ∀ r ∈ rootPlaces path f, r.Done :=
      passed_of_path h hlaid (fun e he hk => hgoto ⟨e, he, hk⟩) hpath rfl
    refine Flow.completes_sequence fun k hk => ?_
    obtain ⟨g, hg, rfl⟩ := List.mem_map.mp hk
    rw [FlowNode.parts_eq_flatMap] at hg
    obtain ⟨c, hc, hgc⟩ := List.mem_flatMap.mp hg
    exact hdone c hc g hgc

/-- The flow of a selection of consecutive statements is sound for the paths through them. -/
theorem flow_sound (s : Sketch) (hbuilt : s.Built) (hwf : ∀ p ∈ s.layout.places, p.WellFormed)
    {sel : Extent} {boundaries : Boundaries} {w : Verdict}
    (hw : analyze s.layout sel boundaries = .ok w) {q : Place} {before chosen after : SyntaxTree}
    (hsel : Selects s.layout w q before chosen after)
    (hmethod : (q.ancestor? [.method, .lambda, .typeDecl]).map (·.id) = w.method)
      (htry : ∀ p ∈ exposed q.below chosen,
      p.node.kind ≠ .tryStmt ∧ p.node.kind ≠ .catchClause ∧ p.node.kind ≠ .finallyClause)
    (hoperands : ∀ p ∈ exposed q.below chosen, p.node.kind = .returnStmt ∨
      p.node.kind = .throwStmt → ∀ c ∈ rootPlaces p.below p.children, c.Clear)
    (lenient : Bool) {o : Ending} {k : List Ending}
    (hpath : Relation.ReflTransGen (Moves lenient q.below chosen) (Moment.start q.below chosen, [])
    (.finished o, k)) :
    (o = .returned → w.flow.mode = .someReturn ∨ w.flow.mode = .allReturn) ∧
      (o = .normal → w.flow.mode ≠ .allReturn ∧ w.flow.mode ≠ .throws) ∧
      ∀ b, o = .jumped b → b ∈ w.flow.openBranches := by
  have hlaid : Laid 0 0 s.layout := laid_layout s
  have hplaces : ∀ p ∈ exposed q.below chosen, p ∈ s.layout.places := fun p hp =>
    inner_subset hsel.place p (hsel.chosen_subset p (exposed_subset _ _ p hp))
  have hregular : Regular q.below chosen :=
    ⟨fun p hp => hbuilt.fits p (hplaces p hp), fun p hp => hwf p (hplaces p hp), htry, hoperands⟩
  obtain ⟨offset, hchosen⟩ := hsel.laid_chosen hlaid
  obtain ⟨m, a, b, ds, hm, hl, hds, hverdict⟩ :=
    Trace.exists_located_of_analyze (t := s.layout) hlaid hw
    (by rw [hsel.selected]; simpa using hsel.nonempty)
  obtain ⟨hmode, hopen⟩ := hsel.flow_eq hlaid hm hl hds hverdict hmethod
  obtain ⟨hshown, hland⟩ := shown_of_path hregular hpath
  refine ⟨?_, ?_, ?_⟩
  · rintro rfl
    obtain ⟨g, hg, hreturn⟩ := hshown
    rw [hmode]
    exact Flow.mayReturn_sequence ⟨g.flow, List.mem_map_of_mem hg, hreturn⟩
  · rintro rfl
    rw [hmode]
    exact hregular.completes_of_path hchosen hpath
  · rintro b rfl
    obtain ⟨g, hg, hb⟩ := hshown
    refine hopen b ?_ fun hgoto hlabel => ?_
    · rw [Flow.openBranches_sequence]
      exact Flow.mem_openBranches_alternatives.mpr ⟨g.flow, List.mem_map_of_mem hg, hb⟩
    · obtain ⟨l, hl, hll⟩ := List.mem_filterMap.mp hlabel
      split at hll
      next hk => exact hland b rfl l hl ⟨hgoto, hk, Option.some.inj hll⟩
      next => cases hll

/-- A method that returns early under some condition. -/
def earlyReturn : Sketch :=
  .file [some (.method "m" true []
    [some (.conditional (some (.operation [])) (some (.ret none)) none), some (.eval none)])]

def earlyReturnVerdict : Verdict where
  diagnostics := [⟨.partialReturn, "Some, but not all, paths through the selection return",
    none, ⟨3, 6⟩⟩]
  method := some 1
  selected := [3]
  flow := ⟨.someReturn, []⟩

/-- The path that takes the early return shows in the flow. -/
theorem earlyReturn_flow_sound :
    analyze earlyReturn.layout ⟨3, 6⟩ .everywhere = .ok earlyReturnVerdict ∧
      (earlyReturnVerdict.flow.mode = .someReturn ∨ earlyReturnVerdict.flow.mode = .allReturn) := by
  let body : Place := earlyReturn.layout.places.get ⟨2, by decide⟩
  let cond : Place := earlyReturn.layout.places.get ⟨3, by decide⟩
  have hbuilt : earlyReturn.Built := by
    repeat'
      first
        | constructor | apply Built.cons | apply Built.nil | apply Built.present | apply Built.absent
  have hw : analyze earlyReturn.layout ⟨3, 6⟩ .everywhere = .ok earlyReturnVerdict := by
    decide +kernel
  have hsel : Selects earlyReturn.layout earlyReturnVerdict body .nil body.children.first
      (.cons (earlyReturn.layout.places.get ⟨6, by decide⟩).node .nil .nil) := by
    constructor <;> decide +kernel
  have hpath : Relation.ReflTransGen (Moves false body.below body.children.first)
      (Moment.start body.below body.children.first, []) (.finished .returned, []) := by
    refine .head (.start (by decide) rfl) ?_
    refine .head (.first (by decide) rfl) ?_
    refine .head (.start (by decide) rfl) ?_
    refine .head (.empty (by decide) rfl) ?_
    refine .head (.settle (o := .normal) (by decide) (by decide) (by decide) (by decide)) ?_
    refine .head (.last (p := cond) (x := .heads) (l := []) (by decide) rfl) ?_
    refine .head (.turn (y := .thenPart) (by decide) (by decide) (by decide)) ?_
    refine .head (.first (by decide) rfl) ?_
    refine .head (.start (by decide) rfl) ?_
    refine .head (.empty (by decide) rfl) ?_
    refine .head (.settle (o := .returned) (by decide) (by decide) (by decide) (by decide)) ?_
    refine .head (.pass (p := cond) (x := .thenPart) (by decide) (by decide) nofun) ?_
    exact .single (.leave (by decide) nofun nofun)
  exact ⟨hw, (flow_sound earlyReturn hbuilt (by decide +kernel) hw hsel (by decide) (by decide)
    (by decide) false hpath).1 rfl⟩

/-- Some path through the selected statements ends in a way that their flow excludes. -/
def Sketch.Misjudged (s : Sketch) (sel : Extent) : Prop :=
  s.Built ∧ (∀ p ∈ s.layout.places, p.WellFormed) ∧ ∃ w q before chosen after o,
    analyze s.layout sel .everywhere = .ok w ∧ Selects s.layout w q before chosen after ∧
      (∀ p ∈ exposed q.below chosen,
        p.node.kind ≠ .tryStmt ∧ p.node.kind ≠ .catchClause ∧ p.node.kind ≠ .finallyClause) ∧
      Relation.ReflTransGen (Moves false q.below chosen) (Moment.start q.below chosen, [])
        (.finished o, []) ∧
      (o = .returned ∧ w.flow.mode = .noReturn ∨ ∃ b, o = .jumped b ∧ b ∉ w.flow.openBranches)

/-- The statements of a lambda.  A selection that starts with the first byte of their block is not
enclosed by it, so the method of the verdict is the one around the lambda. -/
def nestedReturn : Sketch :=
  .file [some (.method "m" true []
    [some (.eval (some (.lambda true [some (.eval (some (.operation []))), some (.ret none)])))])]

/-- The operand of a return that jumps. -/
def brokenReturn : Sketch :=
  .file [some (.method "m" false [] [some (.loop none (some (.operation [])) none (some (.block
    [some (.eval (some (.operation []))),
    some (.ret (some (.operation [some (.jump .breakStmt "")])))])))])]

theorem misjudged_return_and_jump :
    nestedReturn.Misjudged ⟨5, 7⟩ ∧ brokenReturn.Misjudged ⟨7, 10⟩ := by
  constructor
  · let body : Place := nestedReturn.layout.places.get ⟨5, by decide⟩
    let stmt : Place := nestedReturn.layout.places.get ⟨6, by decide⟩
    refine ⟨?_, by decide +kernel, { diagnostics := [], method := some 1, selected := [6, 8] },
      body, .nil, body.children, .nil, .returned, by decide +kernel,
      by constructor <;> decide +kernel, by decide, ?_, .inl ⟨rfl, rfl⟩⟩
    · repeat'
        first
          | constructor | apply Built.cons | apply Built.nil | apply Built.present | apply Built.absent
    · refine .head (.start (by decide) rfl) ?_
      refine .head (.first (by decide) rfl) ?_
      refine .head (.start (by decide) rfl) ?_
      refine .head (.empty (by decide) rfl) ?_
      refine .head (.settle (o := .normal) (by decide) (by decide) (by decide) (by decide)) ?_
      refine .head (.last (p := stmt) (x := .body) (l := []) (by decide) rfl) ?_
      refine .head (.settle (o := .normal) (by decide) (by decide) (by decide) (by decide)) ?_
      refine .head (.nextRoot (l := []) rfl) ?_
      refine .head (.start (by decide) rfl) ?_
      refine .head (.empty (by decide) rfl) ?_
      refine .head (.settle (o := .returned) (by decide) (by decide) (by decide) (by decide)) ?_
      exact .single (.leave (by decide) nofun nofun)
  · let body : Place := brokenReturn.layout.places.get ⟨5, by decide⟩
    let stmt : Place := brokenReturn.layout.places.get ⟨6, by decide⟩
    let ret : Place := brokenReturn.layout.places.get ⟨8, by decide⟩
    let operand : Place := brokenReturn.layout.places.get ⟨9, by decide⟩
    refine ⟨?_, by decide +kernel,
      { diagnostics := [], method := some 1, selected := [6, 8], returnKind := .statementValue,
        flow := ⟨.allReturn, []⟩ },
      body, .nil, body.children, .nil, .jumped ⟨.breakBranch, ""⟩, by decide +kernel,
      by constructor <;> decide +kernel, by decide, ?_, .inr ⟨_, rfl, List.not_mem_nil⟩⟩
    · repeat'
        first
          | constructor | apply Built.cons | apply Built.nil | apply Built.present | apply Built.absent
    · refine .head (.start (by decide) rfl) ?_
      refine .head (.first (by decide) rfl) ?_
      refine .head (.start (by decide) rfl) ?_
      refine .head (.empty (by decide) rfl) ?_
      refine .head (.settle (o := .normal) (by decide) (by decide) (by decide) (by decide)) ?_
      refine .head (.last (p := stmt) (x := .body) (l := []) (by decide) rfl) ?_
      refine .head (.settle (o := .normal) (by decide) (by decide) (by decide) (by decide)) ?_
      refine .head (.nextRoot (l := []) rfl) ?_
      refine .head (.start (by decide) rfl) ?_
      refine .head (.first (by decide) rfl) ?_
      refine .head (.start (by decide) rfl) ?_
      refine .head (.first (by decide) rfl) ?_
      refine .head (.start (by decide) rfl) ?_
      refine .head (.empty (by decide) rfl) ?_
      refine .head (.settle (o := .jumped ⟨.breakBranch, ""⟩) (by decide) (by decide) (by decide)
        (by decide)) ?_
      refine .head (.pass (p := operand) (x := .body) (by decide) (by decide) ?_) ?_
      · exact ⟨by decide, fun h => h.2, fun h => (nomatch h.1), fun h => (nomatch h.1),
          fun _ _ h => (nomatch h.1)⟩
      refine .head (.pass (p := ret) (x := .body) (by decide) (by decide) ?_) ?_
      · exact ⟨by decide, fun h => h.2, fun h => (nomatch h.1), fun h => (nomatch h.1),
          fun _ _ h => (nomatch h.1)⟩
      exact .single (.leave (by decide) nofun fun b hb _ _ h => by cases hb; cases h.1)

end Extraction
