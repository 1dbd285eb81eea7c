import Mathlib.Logic.Relation
import Extraction.Proofs.Accesses
import Extraction.Proofs.FlowRules
import Extraction.Proofs.Progress

/-!
# Definite assignment

A statement assigns a variable if it writes it on every way to its normal end: it writes the
variable itself, or it runs all its children in order and one of them assigns the variable, or it is
a conditional and its condition or both its branches do.  A path through statements one of which
assigns the variable does not complete normally without a write.
-/

namespace Extraction

open SyntaxTree Sketch

namespace Place

/-- Whether all children run in order and no jump inside the place ends there. -/
def Straight (p : Place) : Prop :=
  p.Linear ∧ p.node.kind ≠ .tryStmt ∧ p.node.kind ≠ .labeled ∧ p.node.kind.isScope = false

instance (p : Place) : Decidable p.Linear :=
  inferInstanceAs (Decidable (_ ∧ _))

instance (p : Place) : Decidable p.Straight :=
  inferInstanceAs (Decidable (_ ∧ _))

/-- Whether every way to the end of the place leads through one of the given children. -/
def Runs (p : Place) (cs : List Place) : Prop :=
  p.node.kind = .ifStmt ∧
      ((∃ c ∈ cs, p.partOf c.node = .heads) ∨
        (∃ c ∈ cs, p.partOf c.node = .thenPart) ∧ ∃ c ∈ cs, p.partOf c.node = .elsePart) ∨
    p.Straight ∧ cs ≠ []

instance (p : Place) (cs : List Place) : Decidable (p.Runs cs) :=
  inferInstanceAs (Decidable (_ ∨ _))

end Place

def SyntaxTree.assigned (v : Binding) (path : List Node) : SyntaxTree → List Place
  | .nil => []
  | .cons n children rest =>
    let p : Place := ⟨n, children, path⟩
    (if p.Writes v ∨ p.Runs (assigned v (n :: path) children) then [p] else []) ++
      assigned v path rest

/-- Whether the place writes the variable on every way to its end. -/
def Place.Assigns (v : Binding) (p : Place) : Prop :=
  p.Writes v ∨ p.Runs (assigned v p.below p.children)

instance (v : Binding) (p : Place) : Decidable (p.Assigns v) :=
  inferInstanceAs (Decidable (_ ∨ _))

variable {v : Binding} {lenient : Bool} {path : List Node} {f : SyntaxTree}
  {offset : Int} {id : Nat} {m m' : Moment × List Ending}

theorem SyntaxTree.mem_assigned {p : Place} : p ∈ assigned v path f ↔ p ∈ rootPlaces path f ∧
    p.Assigns v := by
  induction f with
  | nil => simp [assigned, rootPlaces]
  | cons n children rest _ ihr =>
    simp only [assigned, rootPlaces, List.mem_append, List.mem_cons, ihr, or_and_right]
    refine or_congr_left ?_
    split
    next h =>
      rw [List.mem_singleton]
      exact ⟨fun hp => ⟨hp, hp ▸ h⟩, And.left⟩
    next h =>
      refine iff_of_false List.not_mem_nil ?_
      rintro ⟨rfl, hassigns⟩
      exact h hassigns

namespace Place

theorem not_assigns_of_not_straight {p : Place} (hwrites : ¬ p.Writes v)
    (hif : p.node.kind ≠ .ifStmt) (hstraight : ¬ p.Straight) : ¬ p.Assigns v := by
  rintro (h | ⟨hk, -⟩ | ⟨hs, -⟩)
  · exact hwrites h
  · exact hif hk
  · exact hstraight hs

theorem not_straight_of_endedBy {p : Place} {b : BranchTarget} (hb : p.EndedBy b) :
    p.node.kind ≠ .ifStmt ∧ ¬ p.Straight := by
  obtain ⟨-, hk⟩ := hb
  split at hk
  case h_5 => exact hk.elim
  all_goals simp [*, Kind.isLoop, Straight, Linear]

end Place

/-- What is known of a part that has been entered: the condition of a conditional does not assign
the variable once a branch is run. -/
def Unassigned (v : Binding) (p : Place) (x : Part) : Prop :=
  (p.node.kind = .ifStmt → x = .heads ∨ (x = .thenPart ∨ x = .elsePart) ∧
    ∀ s ∈ p.part .heads, ¬ s.Assigns v) ∧ (p.Straight → x = .body)

theorem unassigned_of_not_straight {p : Place} (hif : p.node.kind ≠ .ifStmt)
    (hstraight : ¬ p.Straight) (x : Part) :
    Unassigned v p x :=
  ⟨fun hk => absurd hk hif, fun hs => absurd hs hstraight⟩

namespace Moment

/-- What has been passed without a write does not assign the variable. -/
def Avoids (v : Binding) (path : List Node) (f : SyntaxTree) : Moment → Prop
  | enter p => Known (¬ ·.Assigns v) (Unassigned v) path f p
  | run p x => Known (¬ ·.Assigns v) (Unassigned v) path f p ∧ Unassigned v p x
  | ran p x =>
    Known (¬ ·.Assigns v) (Unassigned v) path f p ∧ Unassigned v p x ∧ ∀ c ∈ p.part x, ¬ c.Assigns v
  | done p o =>
    Known (¬ ·.Assigns v) (Unassigned v) path f p ∧ o.Local ∧ (o = .normal → ¬ p.Assigns v)
  | finished o => o = .normal → ∀ r ∈ rootPlaces path f, ¬ r.Assigns v

end Moment

theorem Unassigned.settle {p : Place} {x : Part} (h : Unassigned v p x)
    (hran : ∀ c ∈ p.part x, ¬ c.Assigns v) (hnone : none ∈ p.nextParts lenient x)
    (hwrites : ¬ p.Writes v) : ¬ p.Assigns v := by
  rintro (hw | ⟨hif, hruns⟩ | ⟨hstraight, hruns⟩)
  · exact hwrites hw
  · -- each branch that is run leaves the other one as the only place for the write
    have hpart : ∀ {y : Part}, (∃ c ∈ assigned v p.below p.children, p.partOf c.node = y) →
        ∃ c ∈ p.part y, c.Assigns v := by
      rintro y ⟨c, hc, hy⟩
      obtain ⟨hroot, hassigns⟩ := mem_assigned.mp hc
      exact ⟨c, Place.mem_part.mpr ⟨hroot, hy⟩, hassigns⟩
    rcases h.1 hif with rfl | ⟨hx, hheads⟩
    · simp [Place.nextParts, hif] at hnone
    · rcases hruns with hruns | ⟨hthen, helse⟩
      · obtain ⟨c, hc, hassigns⟩ := hpart hruns
        exact hheads c hc hassigns
      · rcases hx with rfl | rfl
        · obtain ⟨c, hc, hassigns⟩ := hpart hthen
          exact hran c hc hassigns
        · obtain ⟨c, hc, hassigns⟩ := hpart helse
          exact hran c hc hassigns
  · obtain rfl := h.2 hstraight
    obtain ⟨c, hc⟩ := List.exists_mem_of_ne_nil _ hruns
    obtain ⟨hroot, hassigns⟩ := mem_assigned.mp hc
    exact hran c (Place.mem_part_body hstraight.1 hstraight.2.1 hroot) hassigns

theorem unassigned_next {p : Place} {x y : Part} (hran : ∀ c ∈ p.part x, ¬ c.Assigns v)
    (hnext : some y ∈ p.nextParts lenient x) : Unassigned v p y := by
  constructor
  · intro hif
    rcases Place.next_cases (by rw [hif]; rfl) hnext with ⟨-, rfl, hy⟩ | ⟨hk, -⟩ | ⟨hk, -⟩
    · exact Or.inr ⟨hy, hran⟩
    · rw [hif] at hk
      cases hk
    · rw [hif] at hk
      cases hk
  · rintro ⟨⟨hif, hloop, hswitch, hcase⟩, -⟩
    rcases Place.next_cases hloop hnext with ⟨hk, -⟩ | ⟨hk, -⟩ | ⟨hk, -⟩
    · exact absurd hk hif
    · exact absurd hk hswitch
    · exact absurd hk hcase

theorem unassigned_firstPart (p : Place) : Unassigned v p p.firstPart := by
  constructor
  · intro hif
    simp [Place.firstPart, hif]
  · intro hstraight
    obtain ⟨h₁, h₂, h₃, h₄⟩ := hstraight.1
    unfold Place.firstPart
    split <;> simp_all [Kind.isLoop]

/-- Without jumps to labels, a step that does not write the variable passes nothing that assigns
it. -/
theorem Moves.avoids (hlaid : Laid offset id f)
    (hgoto : ∀ e ∈ exposed path f, e.node.kind ≠ .gotoStmt)
    (hmembers : ∀ p ∈ exposed path f, p.node.kind = .switch → ∀ c ∈ p.clauses, c.node.kind =
    .caseClause) (hmove : Moves lenient path f m m') (hfree : ¬ m'.1.Writes v)
      (hwaiting : ∀ o ∈ m.2, o.Local)
    (hm : m.1.Avoids v path f) : m'.1.Avoids v path f ∧ ∀ o ∈ m'.2, o.Local := by
  have hpair : ∀ {p : Place} (x : Part), p ∈ exposed path f → (p.part x).Pairwise fun c d =>
    c.node.id < d.node.id :=
    fun x hp => Place.pairwise_part hlaid (exposed_subset _ _ _ hp) x
  have hlocal : Ending.normal.Local := nofun
  -- a place that ends normally in another way than after its last part is neither straight nor a
  -- conditional
  cases hmove with
  | @skip p k hp hscope =>
    refine ⟨⟨hm, hlocal, fun _ => Place.not_assigns_of_not_straight hfree ?_ fun hs => ?_⟩,
      hwaiting⟩
    · intro hk
      rw [hk] at hscope
      cases hscope
    · rw [hs.2.2.2] at hscope
      cases hscope
  | @start p k hp hscope => exact ⟨⟨hm, unassigned_firstPart p⟩, hwaiting⟩
  | @first p x c r k hp hpart =>
    exact ⟨hm.1.child hlaid hp (by rw [hpart]; simp) (earlier_first (hpair x hp) hpart) hm.2,
      hwaiting⟩
  | @empty p x k hp hpart =>
    exact ⟨⟨hm.1, hm.2, by rw [hpart]; exact List.forall_mem_nil _⟩, hwaiting⟩
  | @next p x l c d r k hp hpart =>
    have hc : c ∈ p.part x := by rw [hpart]; simp
    have hd : d ∈ p.part x := by rw [hpart]; simp
    obtain ⟨hearlier, hentered⟩ := hm.1.parts p hp x c hc (Or.inl rfl)
    exact ⟨(hm.1.parent hc).child hlaid hp hd
      (earlier_next (hpair x hp) hpart hearlier (hm.2.2 rfl)) hentered, hwaiting⟩
  | @last p x l c k hp hpart =>
    have hc : c ∈ p.part x := by rw [hpart]; simp
    obtain ⟨hearlier, hentered⟩ := hm.1.parts p hp x c hc (Or.inl rfl)
    exact ⟨⟨hm.1.parent hc, hentered, earlier_last (hpair x hp) hpart hearlier (hm.2.2 rfl)⟩,
      hwaiting⟩
  | turn hp _ hnext => exact ⟨⟨hm.1, unassigned_next hm.2.2 hnext⟩, hwaiting⟩
  | @settle p x o k hp _ hnone ho =>
    refine ⟨⟨hm.1, Place.local_settles (hgoto p hp) ho, ?_⟩, hwaiting⟩
    rintro rfl
    exact hm.2.1.settle hm.2.2 hnone hfree
  | pass hp hc ho =>
    refine ⟨⟨hm.1.parent hc, hm.2.1, ?_⟩, hwaiting⟩
    rintro rfl
    exact ho.elim
  | breakOut hp hc hb =>
    obtain ⟨hif, hstraight⟩ := Place.not_straight_of_endedBy hb
    exact ⟨⟨hm.1.parent hc, hlocal, fun _ => Place.not_assigns_of_not_straight hfree hif hstraight⟩,
      hwaiting⟩
  | @again p x c b k hp hc hb =>
    refine ⟨⟨hm.1.parent hc, unassigned_of_not_straight (fun hk => ?_) (fun hs => ?_) _⟩, hwaiting⟩
    · have hloop := hb.2.1
      rw [hk] at hloop
      cases hloop
    · have hloop := hb.2.1
      rw [hs.1.2.1] at hloop
      cases hloop
  | @fallThrough p l c d r b k hp hclauses hb =>
    have hc : c ∈ p.clauses := by rw [hclauses]; simp
    have hd : d ∈ p.clauses := by rw [hclauses]; simp
    have hcase := hmembers p hp hb.2 d hd
    have hswitch : Unassigned v p (.clause d.node.id) :=
      unassigned_of_not_straight (by rw [hb.2]; decide) (fun hs => hs.1.2.2.1 hb.2) _
    refine ⟨⟨(hm.1.parent (mem_part_clause hb.2 hc)).child hlaid hp (mem_part_clause hb.2 hd)
        (fun s hs hlt => ?_) hswitch,
      unassigned_of_not_straight (by rw [hcase]; decide) (fun hs => hs.1.2.2.2 hcase) _⟩, hwaiting⟩
    have := id_of_mem_clause hs
    omega
  | @fallOut p l c b k hp hclauses hb =>
    have hc : c ∈ p.clauses := by rw [hclauses]; simp
    refine ⟨⟨hm.1.parent (mem_part_clause hb.2 hc), hlocal, fun _ => ?_⟩, hwaiting⟩
    exact Place.not_assigns_of_not_straight hfree (by rw [hb.2]; decide) fun hs => hs.1.2.2.1 hb.2
  -- nothing jumps to a label
  | land hp hc hl hb => exact absurd hb.1 (hm.2.1 _ rfl)
  | handle hp htry hc hh =>
    exact ⟨⟨hm.1.parent hc, unassigned_of_not_straight (by rw [htry]; decide)
      (fun hs => hs.2.1 htry) _⟩, hwaiting⟩
  | wait hp htry hc hx ho =>
    exact ⟨⟨hm.1.parent hc, unassigned_of_not_straight (by rw [htry]; decide)
      (fun hs => hs.2.1 htry) _⟩, List.forall_mem_cons.mpr ⟨hm.2.1, hwaiting⟩⟩
  | close hp htry hx =>
    exact ⟨⟨hm.1, unassigned_of_not_straight (by rw [htry]; decide) (fun hs => hs.2.1 htry) _⟩,
      List.forall_mem_cons.mpr ⟨hlocal, hwaiting⟩⟩
  | @release p o k hp htry =>
    obtain ⟨ho, hrest⟩ := List.forall_mem_cons.mp hwaiting
    refine ⟨⟨hm.1, ho, ?_⟩, hrest⟩
    rintro rfl
    exact Place.not_assigns_of_not_straight hfree (by rw [htry]; decide) fun hs => hs.2.1 htry
  | replace hp htry hc ho =>
    refine ⟨⟨hm.1.parent hc, hm.2.1, fun hn => absurd hn ho⟩, (List.forall_mem_cons.mp hwaiting).2⟩
  | @nextRoot l c d r k hroots =>
    have hc : c ∈ rootPlaces path f := by rw [hroots]; simp
    exact ⟨Known.root (by rw [hroots]; simp)
      (earlier_next (pairwise_rootPlaces hlaid) hroots (hm.1.roots c hc (Or.inl rfl)) (hm.2.2 rfl)),
      hwaiting⟩
  | @lastRoot l c k hroots =>
    have hc : c ∈ rootPlaces path f := by rw [hroots]; simp
    exact ⟨fun _ => earlier_last (pairwise_rootPlaces hlaid) hroots (hm.1.roots c hc (Or.inl rfl))
      (hm.2.2 rfl), hwaiting⟩
  | landRoot hc hl hb => exact absurd hb.1 (hm.2.1 _ rfl)
  | leave hc ho _ => exact ⟨fun hn => absurd hn ho, hwaiting⟩

theorem writes_of_path (hlaid : Laid offset id f)
    (hgoto : ∀ e ∈ exposed path f, e.node.kind ≠ .gotoStmt)
    (hmembers : ∀ p ∈ exposed path f, p.node.kind = .switch → ∀ c ∈ p.clauses, c.node.kind =
    .caseClause) (hassigned : assigned v path f ≠ []) {k : List Ending} :
    ¬ Relation.ReflTransGen (fun x y => Moves lenient path f x y ∧ ¬ y.1.Writes v)
      (Moment.start path f, []) (.finished .normal, k) := by
  intro hpath
  have hinvariant : ∀ y, Relation.ReflTransGen (fun x y => Moves lenient path f x y ∧
      ¬ y.1.Writes v) (Moment.start path f, []) y → y.1.Avoids v path f ∧ ∀ o ∈ y.2, o.Local := by
    intro y hy
    induction hy with
    | refl =>
      refine ⟨?_, List.forall_mem_nil _⟩
      unfold Moment.start
      split
      next hroots =>
        intro _ r hr
        rw [hroots] at hr
        cases hr
      next c r hroots =>
        exact Known.root (by rw [hroots]; exact List.mem_cons_self)
          (earlier_first (pairwise_rootPlaces hlaid) hroots)
    | tail _ hstep ih => exact hstep.1.avoids hlaid hgoto hmembers hstep.2 ih.2 ih.1
  obtain ⟨c, hc⟩ := List.exists_mem_of_ne_nil _ hassigned
  obtain ⟨hroot, hassigns⟩ := mem_assigned.mp hc
  exact (hinvariant _ hpath).1 rfl c hroot hassigns

/-- A verdict returns a variable only if some selected place writes it, and takes it as an argument
exactly if some selected place reads it.  If a selected statement assigns the variable, every path
that completes the selection writes it. -/
theorem returnValue_written (s : Sketch) {sel : Extent} {boundaries : Boundaries} {w : Verdict}
    {q : Place} {before chosen after : SyntaxTree} {v : Binding}
    (hw : analyze s.layout sel boundaries = .ok w) (hsel : Selects s.layout w q before chosen after)
    (hv : w.returnValue = some v) (hout : ¬ sel.Contains v.pos) :
    (∃ p ∈ placesBelow q.below chosen, p.Writes v) ∧
      (v ∈ w.arguments ↔ ∃ p ∈ placesBelow q.below chosen, p.Reads v) ∧
      ((∀ p ∈ exposed q.below chosen, p.Shaped ∧ p.node.kind ≠ .gotoStmt) →
        (∃ r ∈ rootPlaces q.below chosen, r.Assigns v) → ∀ lenient k,
          ¬ Relation.ReflTransGen (fun x y => Moves lenient q.below chosen x y ∧ ¬ y.1.Writes v)
            (Moment.start q.below chosen, []) (.finished .normal, k)) := by
  have hlaid : Laid 0 0 s.layout := laid_layout s
  obtain ⟨m, a, b, ds, hm, hl, hds, hverdict⟩ :=
    Trace.exists_located_of_analyze (t := s.layout) hlaid hw
    (by rw [hsel.selected]; simpa using hsel.nonempty)
  obtain ⟨hreturn, harguments⟩ := Trace.verdict_variables (Trace.ofSelection s.layout sel) sel hds
  rw [← hverdict] at hreturn harguments
  obtain ⟨hreads, hwrites⟩ := hsel.mem_selected_iff hlaid hm hl hverdict v
  refine ⟨?_, ?_, fun hformed hassigns lenient k => ?_⟩
  · rw [hreturn] at hv
    exact hwrites.mp (Locals.mem_candidates_ofEvents.mp (Locals.mem_candidates_of_returnValue hv)).2
  · rw [harguments, Locals.mem_arguments_ofEvents, ← hreads]
    exact and_iff_left hout
  · obtain ⟨offset, hchosen⟩ := hsel.laid_chosen hlaid
    obtain ⟨r, hr, hra⟩ := hassigns
    refine writes_of_path hchosen (fun p hp => (hformed p hp).2) (fun p hp hk c hc => ?_)
      (List.ne_nil_of_mem (mem_assigned.mpr ⟨hr, hra⟩))
    obtain ⟨hroot, hrole⟩ := List.mem_filter.mp hc
    exact (hformed p hp).1.members hk c.node
      (map_node_rootPlaces p.below p.children ▸ List.mem_map_of_mem hroot) (by simpa using hrole)

/-- A method that writes a variable under a condition, otherwise does what is given, and then uses
the variable. -/
def guardedWrite (otherwise : Option Sketch) : Sketch :=
  let c : Binding := { key := 0, name := "c", kind := .parameter }
  let x : Binding := { key := 1, name := "x" }
  .file [some (.method "m" true [some c] [some (.declare (some x) none),
    some (.conditional (some (.ref (some c)))
      (some (.block [some (.assign false (some x) (some (.operation [])))])) otherwise),
    some (.eval (some (.call "use" [] [some (.ref (some x))])))])]

def guardedWriteBoth : Sketch :=
  guardedWrite (some (.block
    [some (.assign false (some { key := 1, name := "x" }) (some (.operation [])))]))

def guardedWriteVerdict : Verdict where
  diagnostics := []
  returnKind := .variableValue
  arguments := [{ key := 0, name := "c", kind := .parameter, pos := 2 }]
  extractedLocals := [{ key := 1, name := "x", pos := 6 }]
  returnValue := some { key := 1, name := "x", pos := 6 }
  method := some 1
  selected := [6]

/-- With a write in both branches, the returned variable has a value whichever branch is taken. -/
theorem guardedWriteBoth_written :
    analyze guardedWriteBoth.layout ⟨9, 24⟩ .everywhere = .ok guardedWriteVerdict ∧
      ∃ q before chosen after, Selects guardedWriteBoth.layout guardedWriteVerdict q before
        chosen after ∧ ∀ lenient k, ¬ Relation.ReflTransGen
          (fun x y => Moves lenient q.below chosen x y ∧
          ¬ y.1.Writes { key := 1, name := "x", pos := 6 })
          (Moment.start q.below chosen, []) (.finished .normal, k) := by
  let body : Place := guardedWriteBoth.layout.places.get ⟨3, by decide⟩
  let decl : Place := guardedWriteBoth.layout.places.get ⟨4, by decide⟩
  let cond : Place := guardedWriteBoth.layout.places.get ⟨6, by decide⟩
  let use : Place := guardedWriteBoth.layout.places.get ⟨18, by decide⟩
  have hw : analyze guardedWriteBoth.layout ⟨9, 24⟩ .everywhere = .ok guardedWriteVerdict := by
    decide +kernel
  have hsel : Selects guardedWriteBoth.layout guardedWriteVerdict body
      (.cons decl.node decl.children .nil)
      (.cons cond.node cond.children .nil) (.cons use.node use.children .nil) := by
    constructor <;> decide +kernel
  have hwritten := returnValue_written guardedWriteBoth hw hsel rfl (by decide +kernel)
  exact ⟨hw, _, _, _, _, hsel,
    hwritten.2.2 (by decide +kernel) ⟨cond, by decide +kernel, by decide +kernel⟩⟩

/-- A legal selection returns a variable that is no argument and that some path through the
selection does not write. -/
def Sketch.ReturnsUnset (s : Sketch) (sel : Extent) : Prop :=
  s.Built ∧ ∃ w q before chosen after v, analyze s.layout sel .everywhere = .ok w ∧ w.Legal ∧
    q.node.kind = .block ∧ Selects s.layout w q before chosen after ∧ w.returnValue = some v ∧
      ¬ sel.Contains v.pos ∧
      v ∉ w.arguments ∧ Relation.ReflTransGen (fun x y => Moves false q.below chosen x y ∧
        ¬ y.1.Writes v) (Moment.start q.below chosen, []) (.finished .normal, [])

theorem guardedWrite_returnsUnset : (guardedWrite none).ReturnsUnset ⟨9, 14⟩ := by
  let body : Place := (guardedWrite none).layout.places.get ⟨3, by decide⟩
  let decl : Place := (guardedWrite none).layout.places.get ⟨4, by decide⟩
  let cond : Place := (guardedWrite none).layout.places.get ⟨6, by decide⟩
  let test : Place := (guardedWrite none).layout.places.get ⟨7, by decide⟩
  let use : Place := (guardedWrite none).layout.places.get ⟨13, by decide⟩
  refine ⟨?_, guardedWriteVerdict, body, .cons decl.node decl.children .nil,
    .cons cond.node cond.children .nil,
    .cons use.node use.children .nil, _, by decide +kernel, by decide +kernel,
      rfl, by constructor <;> decide +kernel,
    rfl, by decide +kernel, by decide +kernel, ?_⟩
  · exact .file (Built.cons (.method _ _ _ (Built.cons (.declare _ Built.absent) (Built.cons
      (.conditional (Built.present (.ref _))
        (Built.present (.block (Built.cons (.assign _ _ (Built.present (.operation Built.nil)))
        Built.nil))) Built.absent)
      (Built.cons (.eval (Built.present (.call _ _ (Built.cons (.ref _) Built.nil)))) Built.nil))))
        Built.nil)
  · refine (Moves.past_conditional (p := cond) (c := test) (by decide +kernel) rfl
      (by decide +kernel) (by decide +kernel) (by decide +kernel)
      (Moves.past_name (by decide +kernel) rfl rfl (by decide +kernel))).trans ?_
    exact .single ⟨.lastRoot (l := []) (by decide +kernel), nofun⟩

end Extraction
