import Extraction.Analysis.Verdict
import Extraction.Proofs.Enclosing
import Extraction.Proofs.Variables

/-!
# Which selections can be extracted

A selection can be extracted exactly if a list of conditions on the tree, on the text at its two
ends, on its control flow and on its variables holds.  Those on the tree and the text do not refer
to the traversal.
-/

namespace Extraction

namespace SyntaxTree

/-- The covered places whose parent is not covered, in order. -/
def maximalCovered (t : SyntaxTree) (sel : Extent) : List Place :=
  t.places.filter fun p => sel.Covers p.node.start p.node.stop ∧ Trace.isTopLevel sel p = true

variable {path : List Node} {f : SyntaxTree} {offset : Int} {id : Nat}

theorem exists_id (h : Laid offset id f) {i : Nat} (hle : id ≤ i) (hlt : i < id + f.size) :
    ∃ n ∈ f.toList, n.id = i := by
  have hmem : i ∈ f.toList.map (·.id) := by
    rw [ids_of_laid h, List.mem_range'_1]
    exact ⟨hle, hlt⟩
  exact List.mem_map.mp hmem

theorem places_split {p : Place} (hp : p ∈ placesBelow path f) :
    ∃ before after, placesBelow path f = before ++ p :: (p.inner ++ after) := by
  induction f generalizing path with
  | nil => cases hp
  | cons n children rest ihc ihr =>
    simp only [placesBelow, List.mem_cons, List.mem_append] at hp ⊢
    rcases hp with rfl | hp | hp
    · exact ⟨[], placesBelow path rest, rfl⟩
    · obtain ⟨before, after, h⟩ := ihc hp
      refine ⟨⟨n, children, path⟩ :: before, after ++ placesBelow path rest, ?_⟩
      simp [h]
    · obtain ⟨before, after, h⟩ := ihr hp
      refine ⟨⟨n, children, path⟩ :: (placesBelow (n :: path) children ++ before), after, ?_⟩
      simp [h]

end SyntaxTree

namespace Trace

open SyntaxTree

variable {sel : Extent} {path : List Node} {f : SyntaxTree} {offset : Int} {id a b : Nat}
  {m : Place} {s : Trace}

theorem Located.covers_iff (h : Laid offset id f) (hm : m ∈ placesBelow path f)
    (hl : Located sel m a b s) (huncut : ∀ p ∈ m.inner, p.node.id = b → sel.past ≤ p.node.start)
    {p : Place} (hp : p ∈ m.inner) :
    sel.Covers p.node.start p.node.stop ↔ Phase.among a b p.node.id = .selected := by
  have hc := (laid_children h hm).1
  have hpn := node_mem_of_mem_placesBelow hp
  have hbounds := laid_bounds hc hpn
  rw [Phase.among_eq_selected_iff]
  constructor
  · intro hcover
    have hstop := hcover.2
    refine ⟨Nat.not_lt.mp fun hlt => hl.splits.before _ hpn hlt hcover, Nat.not_le.mp fun hle => ?_⟩
    have hlater := hl.later
    have hab := hl.splits.le
    -- the node with number `b` starts beyond the selection, and so do all later ones
    obtain ⟨k, hk, hkb⟩ := exists_id hc (i := b) (by omega) (by omega)
    obtain ⟨q, hq, rfl⟩ := exists_place_of_mem m.below hk
    have hbeyond := huncut q hq hkb
    rcases Nat.lt_or_eq_of_le hle with hlt | heq
    · have := start_lt_of_id_lt hc hq hp (by omega)
      omega
    · rw [place_unique hc hq hp (by omega)] at hbeyond
      omega
  · rintro ⟨hle, hlt⟩
    exact hl.splits.selected _ hpn hle hlt

theorem Located.maximalCovered_eq (h : Laid offset id f) (hm : m ∈ placesBelow path f)
    (hl : Located sel m a b s) (huncut : ∀ p ∈ m.inner, p.node.id = b → sel.past ≤ p.node.start) :
    ((placesBelow path f).filter fun p => sel.Covers p.node.start p.node.stop ∧
      isTopLevel sel p = true) = picked sel a b m.inner := by
  obtain ⟨before, after, hsplit⟩ := places_split hm
  have hpair := pairwise_id path h
  have hcovered : ∀ p ∈ placesBelow path f, sel.Covers p.node.start p.node.stop → p ∈ m.inner :=
    fun p hp hcover => covered_mem_inner h hm hl.encloses hp hcover
  rw [hsplit] at hpair hcovered ⊢
  obtain ⟨_, hpair', hbefore⟩ := List.pairwise_append.mp hpair
  obtain ⟨hm', hpair''⟩ := List.pairwise_cons.mp hpair'
  obtain ⟨_, _, hafter⟩ := List.pairwise_append.mp hpair''
  have hmm : m ∉ m.inner := fun hin => absurd (hm' m (List.mem_append_left _ hin)) (Nat.lt_irrefl _)
  have hnone₁ : (before.filter fun p => sel.Covers p.node.start p.node.stop ∧
      isTopLevel sel p = true) = [] := by
    refine List.filter_eq_nil_iff.mpr fun p hp hcond => ?_
    have hin := hcovered p (List.mem_append_left _ hp) (of_decide_eq_true hcond).1
    have hlt := hbefore p hp p (List.mem_cons_of_mem _ (List.mem_append_left _ hin))
    exact absurd hlt (Nat.lt_irrefl _)
  have hnone₂ : (after.filter fun p => sel.Covers p.node.start p.node.stop ∧
      isTopLevel sel p = true) = [] := by
    refine List.filter_eq_nil_iff.mpr fun p hp hcond => ?_
    have hin := hcovered p (by simp [hp]) (of_decide_eq_true hcond).1
    exact absurd (hafter p hin p hp) (Nat.lt_irrefl _)
  rw [List.filter_append, hnone₁, List.nil_append, List.filter_cons_of_neg, List.filter_append,
    hnone₂, List.append_nil, picked]
  · refine List.filter_congr fun p hp => ?_
    rw [decide_eq_decide, hl.covers_iff h hm huncut hp]
  · intro hcond
    exact hmm (hcovered m (by simp) (of_decide_eq_true hcond).1)

theorem mem_picked {done : List Place} {p : Place} :
    p ∈ picked sel a b done ↔ p ∈ done ∧ Phase.among a b p.node.id = .selected ∧
      isTopLevel sel p = true := by
  rw [picked, List.mem_filter, decide_eq_true_eq]

theorem inner_trans {p q r : Place} (hq : q ∈ p.inner) (hr : r ∈ q.inner) : r ∈ p.inner :=
  inner_subset hq r hr

theorem Located.exists_picked (h : Laid offset id f) (hm : m ∈ placesBelow path f)
    (hl : Located sel m a b s) {p : Place} (hp : p ∈ m.inner)
    (hsel : Phase.among a b p.node.id = .selected) :
    ∃ q ∈ picked sel a b m.inner, p = q ∨ p ∈ q.inner := by
  have hc := (laid_children h hm).1
  generalize hi : p.node.id = i
  induction i using Nat.strongRecOn generalizing p with
  | ind i ih =>
    by_cases htop : isTopLevel sel p = true
    · exact ⟨p, mem_picked.mpr ⟨hp, hsel, htop⟩, Or.inl rfl⟩
    · -- the parent is covered, so it is not the method and it is selected too
      rcases parent_mem hp with hroot | ⟨r, hr, hparent, hpr⟩
      · have hbounds := encloses_bounds h hm hl.encloses
        simp only [isTopLevel, Place.parent?, hroot, Place.below, List.head?_cons, Option.all_some,
          Bool.not_eq_true', decide_eq_false_iff_not, Classical.not_not] at htop
        have := htop.1
        omega
      · simp only [isTopLevel, Place.parent?, hparent, Place.below, List.head?_cons,
          Option.all_some, Bool.not_eq_true', decide_eq_false_iff_not, Classical.not_not] at htop
        have hlt := (inner_bounds hc hr hpr).2.2
        have hrsel : Phase.among a b r.node.id = .selected := by
          rw [Phase.among_eq_selected_iff] at hsel ⊢
          refine ⟨Nat.not_lt.mp fun hra => ?_, by omega⟩
          exact hl.splits.before _ (node_mem_of_mem_placesBelow hr) hra htop
        obtain ⟨q, hq, hrq⟩ := ih r.node.id (by omega) hr hrsel rfl
        refine ⟨q, hq, Or.inr ?_⟩
        rcases hrq with rfl | hrq
        · exact hpr
        · exact inner_trans hrq hpr

theorem isTopLevel_eq_false (h : Laid offset id f) {p r : Place} (hr : r ∈ placesBelow path f)
    (hin : p ∈ r.inner) (hcover : sel.Covers r.node.start r.node.stop) :
    isTopLevel sel p = false := by
  rcases parent_mem hin with hroot | ⟨q, hq, hparent, -⟩
  · simp [isTopLevel, Place.parent?, hroot, Place.below, hcover]
  · have hbounds := inner_bounds h hr hq
    obtain ⟨hstart, hstop⟩ := hcover
    have hcover' : sel.Covers q.node.start q.node.stop := ⟨by omega, by omega⟩
    simp [isTopLevel, Place.parent?, hparent, Place.below, hcover']

theorem Located.selected_inner (h : Laid offset id f) (hm : m ∈ placesBelow path f)
    (hl : Located sel m a b s) {p r : Place} (hp : p ∈ m.inner)
    (hsel : Phase.among a b p.node.id = .selected) (hr : r ∈ p.inner) :
    Phase.among a b r.node.id = .selected := by
  have hc := (laid_children h hm).1
  have hpc := (laid_children hc hp).1
  rw [Phase.among_eq_selected_iff] at hsel ⊢
  have hcover := hl.splits.selected _ (node_mem_of_mem_placesBelow hp) hsel.1 hsel.2
  have hbelow := laid_bounds hpc (node_mem_of_mem_placesBelow hr)
  refine ⟨by omega, Nat.not_le.mp fun hb => ?_⟩
  -- the node that ends the selected phase would lie below `p` and be covered
  obtain ⟨k, hk, hkb⟩ := exists_id hpc (i := b) (by omega) (by omega)
  obtain ⟨e, he, rfl⟩ := exists_place_of_mem p.below hk
  have hafter := hl.splits.after _ (node_mem_of_mem_placesBelow (inner_trans hp he)) hkb
  have hbounds := inner_bounds hc hp he
  have := hcover.2
  omega

theorem Located.picked_apart (h : Laid offset id f) (hm : m ∈ placesBelow path f)
    (hl : Located sel m a b s) {p q : Place} (hp : p ∈ picked sel a b m.inner)
    (hq : q ∈ picked sel a b m.inner) (hlt : p.node.id < q.node.id) :
    p.node.stop ≤ q.node.start := by
  have hc := (laid_children h hm).1
  obtain ⟨hpin, hpsel, _⟩ := mem_picked.mp hp
  obtain ⟨hqin, _, hqtop⟩ := mem_picked.mp hq
  refine (inner_or_beyond hc hpin hqin hlt).resolve_left fun hin => ?_
  rw [Phase.among_eq_selected_iff] at hpsel
  have hcover := hl.splits.selected _ (node_mem_of_mem_placesBelow hpin) hpsel.1 hpsel.2
  rw [isTopLevel_eq_false hc hpin hin hcover] at hqtop
  cases hqtop

theorem Located.reach_eq (h : Laid 0 id f) (hm : m ∈ placesBelow path f) (hl : Located sel m a b s)
    {last : Place} (hlast : (picked sel a b m.inner).getLast? = some last) :
    s.reach = last.node.stop := by
  have hc := (laid_children h hm).1
  obtain ⟨earlier, hsplit⟩ := List.getLast?_eq_some_iff.mp hlast
  have hmem : last ∈ picked sel a b m.inner := by rw [hsplit]; simp
  obtain ⟨hin, hsel, _⟩ := mem_picked.mp hmem
  have hlower := hl.reach.2 _ (node_mem_of_mem_placesBelow hin) hsel
  have hpositive := laid_bounds h (node_mem_of_mem_placesBelow (inner_subset hm _ hin))
  rcases hl.reach.1 with hneg | ⟨n, hn, hnsel, hreach⟩
  · omega
  · refine Int.le_antisymm ?_ hlower
    obtain ⟨p, hp, rfl⟩ := exists_place_of_mem m.below hn
    obtain ⟨q, hq, hpq⟩ := hl.exists_picked h hm hp hnsel
    have hqin := (mem_picked.mp hq).1
    have hpstop : p.node.stop ≤ q.node.stop := by
      rcases hpq with rfl | hpq
      · exact Int.le_refl _
      · exact Int.le_of_lt (inner_bounds hc hqin hpq).2.1
    have hqlast : q.node.stop ≤ last.node.stop := by
      have hpair := (pairwise_id m.below hc).filter
        fun p => Phase.among a b p.node.id = .selected ∧ isTopLevel sel p = true
      have hqmem := hq
      rw [hsplit] at hqmem
      change (picked sel a b m.inner).Pairwise _ at hpair
      rw [hsplit] at hpair
      rcases List.mem_append.mp hqmem with hqe | hqe
      · have hlt := (List.pairwise_append.mp hpair).2.2 q hqe last (by simp)
        have := hl.picked_apart h hm hq hmem hlt
        have := laid_lt hc hin
        omega
      · exact Int.le_of_eq (congrArg (·.node.stop) (List.mem_singleton.mp hqe))
    omega

theorem returnDiagnostics_eq_ok (hranges : ∀ n ∈ s.topLevel, n.start ≤ n.stop) :
    ∃ ds, s.returnDiagnostics = .ok ds ∧
      (ds = [] ↔ ∀ n, s.topLevel = [n] → n.kind ≠ .returnStmt) := by
  unfold returnDiagnostics
  split
  next n htop =>
    split
    next hreturn =>
      have hle := hranges n (by simp [htop])
      refine ⟨_, by rw [Node.extent, Extent.between, if_neg (Int.not_lt.mpr hle)]; rfl, ?_⟩
      simp [htop, hreturn]
    next hreturn => exact ⟨[], rfl, by simp [htop, hreturn]⟩
  next htop => exact ⟨[], rfl, by simp only [true_iff]; exact fun n hn => absurd hn (htop n)⟩

theorem boundaryDiagnostics_eq_ok (allowed : Bool) (message : String) (node : Option Nat)
    (start stop : Int) (h : allowed = false → start ≤ stop) :
    ∃ ds, boundaryDiagnostics allowed message node start stop = .ok ds ∧
      (ds = [] ↔ allowed = true) := by
  cases allowed with
  | true => exact ⟨[], rfl, by simp⟩
  | false =>
    refine ⟨[⟨.invalidBoundary, message, node, start, word (stop - start)⟩], ?_, by simp⟩
    rw [boundaryDiagnostics, Extent.between, if_neg (Int.not_lt.mpr (h rfl))]
    rfl

/-- Once something is selected, the diagnostics that need the whole traversal can be given, and none
is given exactly if the two ends are at boundaries and the selection is more than a return. -/
theorem validated_eq_ok (boundaries : Boundaries) {method first : Node}
    (hmethod : s.method = some method) (hfirst : s.first = some first)
    (hranges : ∀ n ∈ s.topLevel, n.start ≤ n.stop) (hstart : sel.offset ≤ first.start) :
    ∃ ds, s.validated sel boundaries = .ok ds ∧
      (ds = [] ↔ s.diagnostics = [] ∧ (∀ n, s.topLevel = [n] → n.kind ≠ .returnStmt) ∧
        (boundaries.allows sel.offset && boundaries.blank sel.offset first.start) = true ∧
        (s.has .endsMidStatement || decide (s.reach < 0) || decide (sel.past < s.reach) ||
          (boundaries.allows sel.past && boundaries.blank s.reach sel.past)) = true) := by
  obtain ⟨single, hsingle, hsingleNil⟩ := returnDiagnostics_eq_ok hranges
  obtain ⟨start, hstartOk, hstartNil⟩ := boundaryDiagnostics_eq_ok
    (boundaries.allows sel.offset && boundaries.blank sel.offset first.start)
    "The beginning of the selection is not a valid statement boundary"
      (some first.id) sel.offset first.start
    fun _ => hstart
  obtain ⟨stop, hstopOk, hstopNil⟩ := boundaryDiagnostics_eq_ok
    (s.has .endsMidStatement || decide (s.reach < 0) || decide (sel.past < s.reach) ||
      (boundaries.allows sel.past && boundaries.blank s.reach sel.past))
    "The end of the selection is not a valid statement boundary"
      (s.last.map (·.id)) s.reach sel.past (by
      simp only [Bool.or_eq_false_iff, decide_eq_false_iff_not, Int.not_lt]
      exact fun h => h.1.2)
  refine ⟨s.diagnostics ++ single ++ start ++ stop, ?_, ?_⟩
  · simp only [validated, hmethod, hfirst, hsingle, hstartOk, hstopOk]
    rfl
  · rw [List.append_eq_nil_iff, List.append_eq_nil_iff, List.append_eq_nil_iff, hsingleNil,
      hstartNil, hstopNil]
    exact ⟨fun ⟨⟨⟨h₁, h₂⟩, h₃⟩, h₄⟩ => ⟨h₁, h₂, h₃, h₄⟩,
      fun ⟨h₁, h₂, h₃, h₄⟩ => ⟨⟨⟨h₁, h₂⟩, h₃⟩, h₄⟩⟩

theorem flowDiagnostics_eq_nil {flow : Flow} :
    flowDiagnostics sel flow = [] ↔ flow.Extractable := by
  by_cases hmode : flow.mode = .someReturn <;> by_cases hopen : flow.openBranches = [] <;>
    simp [flowDiagnostics, Flow.Extractable, hmode, hopen]

theorem candidateDiagnostics_eq_nil {candidates : List Binding} :
    candidateDiagnostics sel candidates = [] ↔ candidates.length ≤ 1 := by
  by_cases hle : candidates.length ≤ 1 <;> simp [candidateDiagnostics, hle]

theorem yieldDiagnostics_eq_nil {expression variableValue returns : Bool}
    {earlier : List Diagnostic} :
    yieldDiagnostics sel expression variableValue returns earlier = [] ↔
      ¬ (expression = true ∧ variableValue = true) ∧ ¬ (expression = true ∧ returns = true) ∧
        ¬ (variableValue = true ∧ returns = true) := by
  cases expression <;> cases variableValue <;> cases returns <;> simp [yieldDiagnostics]

theorem verdict_legal_iff (s : Trace) (sel : Extent) (ds : List Diagnostic) :
    (s.verdict sel ds).Legal ↔ ds = [] ∧ (Returns.ofEvents s.events.toList).flow.Extractable ∧
      (Locals.ofEvents s.events.toList).candidates.length ≤ 1 ∧
      ¬ (s.isExpression = true ∧ (Locals.ofEvents s.events.toList).returnValue.isSome = true) ∧
      ¬ (s.isExpression = true ∧ (Returns.ofEvents s.events.toList).flow.mode = .allReturn) ∧
      ¬ ((Locals.ofEvents s.events.toList).returnValue.isSome = true ∧
        (Returns.ofEvents s.events.toList).flow.mode = .allReturn) := by
  by_cases hds : ds = []
  · subst hds
    simp only [Verdict.Legal, verdict, List.any_nil, Bool.false_eq_true, if_false, List.nil_append,
      List.append_eq_nil_iff, flowDiagnostics_eq_nil, candidateDiagnostics_eq_nil,
      yieldDiagnostics_eq_nil,
      decide_eq_true_eq, true_and, and_assoc]
  · have hnot : ¬ (s.verdict sel ds).Legal := by
      simp only [Verdict.Legal, verdict]
      split
      · exact hds
      · simp [hds]
    simp [hnot, hds]

end Trace

/-- The selection is one expression that is no assignment target. -/
def SyntaxTree.SelectsExpression (t : SyntaxTree) (sel : Extent) : Prop :=
  ∃ p, t.maximalCovered sel = [p] ∧ p.node.kind.isExpression = true ∧ p.node.role ≠ .target

/-- No node behind a covered one holds the end of the selection. -/
def SyntaxTree.Uncut (t : SyntaxTree) (sel : Extent) : Prop :=
  ∀ p ∈ t.places, sel.Covers p.node.start p.node.stop →
    ∀ q ∈ t.places, p.node.id < q.node.id → ¬ sel.EndsInside q.node.start q.node.stop

instance (t : SyntaxTree) (sel : Extent) : Decidable (t.Uncut sel) :=
  inferInstanceAs (Decidable (∀ p ∈ t.places, _ → ∀ q ∈ t.places, _ → _))

/-- The conditions under which a selection can be extracted.  Numbers follow the preorder, so the
first maximal covered place is the first covered one. -/
structure Admissible (t : SyntaxTree) (sel : Extent) (boundaries : Boundaries) : Prop where
  enclosed : Trace.Enclosed sel t
  covered : ∃ n ∈ t.toList, sel.Covers n.start n.stop
  oneParent : ∀ p ∈ t.maximalCovered sel, ∀ q ∈ t.maximalCovered sel,
    p.parent?.map (·.id) = q.parent?.map (·.id)
  uncut : t.Uncut sel
  notReturn : ∀ p, t.maximalCovered sel = [p] → p.node.kind ≠ .returnStmt
  startAllowed : boundaries.allows sel.offset = true
  startBlank : ∀ p ∈ (t.maximalCovered sel).head?, boundaries.blank sel.offset p.node.start = true
  stopAllowed : boundaries.allows sel.past = true
  stopBlank : ∀ p ∈ (t.maximalCovered sel).getLast?, boundaries.blank p.node.stop sel.past = true
  flow : (Returns.ofEvents (Trace.ofSelection t sel).events.toList).flow.Extractable
  oneCandidate : ∀ b c, (Locals.ofEvents (Trace.ofSelection t sel).events.toList).IsCandidate b →
    (Locals.ofEvents (Trace.ofSelection t sel).events.toList).IsCandidate c → b = c
  oneYield :
    ¬ (t.SelectsExpression sel ∧
      ∃ b, (Locals.ofEvents (Trace.ofSelection t sel).events.toList).IsCandidate b) ∧
    ¬ (t.SelectsExpression sel ∧
      (Returns.ofEvents (Trace.ofSelection t sel).events.toList).flow.mode = .allReturn) ∧
    ¬ ((∃ b, (Locals.ofEvents (Trace.ofSelection t sel).events.toList).IsCandidate b) ∧
      (Returns.ofEvents (Trace.ofSelection t sel).events.toList).flow.mode = .allReturn)

namespace Trace

open SyntaxTree

variable {sel : Extent} {t : SyntaxTree} {a b : Nat} {m : Place}

/-- The selection ends inside no node that follows a covered one, exactly if the node that ends the
selected phase starts beyond it. -/
theorem Located.uncut_iff {s : Trace} (h : Laid 0 0 t) (hm : m ∈ t.places)
    (hl : Located sel m a b s) :
    t.Uncut sel ↔ ∀ p ∈ m.inner, p.node.id = b → sel.past ≤ p.node.start := by
  have hc := (laid_children h hm).1
  have hbounds := encloses_bounds h hm hl.encloses
  constructor
  · intro huncut p hp hpb
    have hpn := node_mem_of_mem_placesBelow hp
    have hpbounds := laid_bounds hc hpn
    have hle := hl.splits.le
    have hab := hl.splits.begins _ hpn (by omega)
    -- the first covered node
    obtain ⟨k, hk, hka⟩ := exists_id hc (i := a) hl.later (by omega)
    obtain ⟨r, hr, rfl⟩ := exists_place_of_mem m.below hk
    have hrcover := hl.splits.selected _ hk (by omega) (by omega)
    refine Int.not_lt.mp fun hstart => ?_
    exact huncut r (inner_subset hm r hr) hrcover p (inner_subset hm p hp) (by omega)
      ⟨hstart, hl.splits.after _ hpn hpb⟩
  · rintro huncut p hp hcover q hq hlt ⟨hstart, hstop⟩
    have hpin := covered_mem_inner h hm hl.encloses hp hcover
    have hmp := (inner_bounds h hm hpin).2.2
    rcases inner_or_beyond h hm hq (by omega) with hqin | hbeyond
    · have hqn := node_mem_of_mem_placesBelow hqin
      have hpa : a ≤ p.node.id :=
        Nat.not_lt.mp fun hpa => hl.splits.before _ (node_mem_of_mem_placesBelow hpin) hpa hcover
      rcases Nat.lt_trichotomy q.node.id b with hqb | hqb | hqb
      · have hcover' := (hl.splits.selected _ hqn (by omega) hqb).2
        omega
      · have := huncut q hqin hqb
        omega
      · have hle := hl.splits.le
        have hlater := hl.later
        obtain ⟨k, hk, hkb⟩ := exists_id hc (i := b) (by omega)
          (by have := laid_bounds hc hqn; omega)
        obtain ⟨r, hr, rfl⟩ := exists_place_of_mem m.below hk
        have := huncut r hr hkb
        have := start_lt_of_id_lt hc hr hqin (by omega)
        omega
    · omega

theorem Located.selected_covers {s : Trace} (hl : Located sel m a b s) {p : Place}
    (hp : p ∈ picked sel a b m.inner) : sel.Covers p.node.start p.node.stop := by
  obtain ⟨hin, hsel, _⟩ := mem_picked.mp hp
  rw [Phase.among_eq_selected_iff] at hsel
  exact hl.splits.selected _ (node_mem_of_mem_placesBelow hin) hsel.1 hsel.2

theorem Located.picked_ne_nil {s : Trace} (h : Laid 0 0 t) (hm : m ∈ t.places)
    (hl : Located sel m a b s) (hcovered : ∃ n ∈ t.toList, sel.Covers n.start n.stop) :
    picked sel a b m.inner ≠ [] := by
  have hc := (laid_children h hm).1
  obtain ⟨n, hn, hcover⟩ := hcovered
  obtain ⟨p, hp, rfl⟩ := exists_place_of_mem [] hn
  have hpn := node_mem_of_mem_placesBelow (covered_mem_inner h hm hl.encloses hp hcover)
  have hpa : a ≤ p.node.id := Nat.not_lt.mp fun hlt => hl.splits.before _ hpn hlt hcover
  have hpb := laid_bounds hc hpn
  have hab := hl.splits.begins _ hpn hpa
  -- the place with number `a`
  obtain ⟨k, hk, hka⟩ := exists_id hc (i := a) hl.later (by omega)
  obtain ⟨r, hr, rfl⟩ := exists_place_of_mem m.below hk
  exact List.ne_nil_of_mem (mem_picked.mpr
    ⟨hr, Phase.among_eq_selected_iff.mpr ⟨by omega, by omega⟩,
    first_isTopLevel h hm hl.encloses hl.splits hr hka⟩)

theorem Located.isExpression_iff {s : Trace} (hl : Located sel m a b s)
    (hmax : t.maximalCovered sel = picked sel a b m.inner) :
    s.isExpression = true ↔ t.SelectsExpression sel := by
  rw [isExpression, hl.gathers.topLevel, SelectsExpression, hmax]
  match picked sel a b m.inner with
  | [] => simp
  | [p] => simp
  | p :: q :: more => simp

theorem Located.notReturn_iff {s : Trace} (hl : Located sel m a b s)
    (hmax : t.maximalCovered sel = picked sel a b m.inner) :
    (∀ n, s.topLevel = [n] → n.kind ≠ .returnStmt) ↔
      ∀ p, t.maximalCovered sel = [p] → p.node.kind ≠ .returnStmt := by
  rw [hl.gathers.topLevel, hmax]
  match picked sel a b m.inner with
  | [] => simp
  | [p] => simp
  | p :: q :: more => simp

theorem Located.stop_iff {s : Trace} (boundaries : Boundaries) (h : Laid 0 0 t) (hm : m ∈ t.places)
    (hl : Located sel m a b s) {last : Place}
    (hlast : (picked sel a b m.inner).getLast? = some last) (hnone : s.diagnostics = []) :
    (s.has .endsMidStatement || decide (s.reach < 0) || decide (sel.past < s.reach) ||
        (boundaries.allows sel.past && boundaries.blank s.reach sel.past)) = true ↔
      boundaries.allows sel.past = true ∧ boundaries.blank last.node.stop sel.past = true := by
  have hmem := List.mem_of_mem_getLast? hlast
  have hbounds := laid_bounds h
    (node_mem_of_mem_placesBelow (inner_subset hm last (mem_picked.mp hmem).1))
  have hpositive : ¬ last.node.stop < 0 := by omega
  have hwithin : ¬ sel.past < last.node.stop := Int.not_lt.mpr (hl.selected_covers hmem).2
  simp only [has, hnone, List.any_nil, hl.reach_eq h hm hlast, hpositive, hwithin, decide_false,
    Bool.false_or, Bool.and_eq_true]

theorem Located.diagnostics_iff {s : Trace} (hl : Located sel m a b s) {first : Place}
    {more : List Place} (hpicked : picked sel a b m.inner = first :: more)
    (huncut : ∀ p ∈ m.inner, p.node.id = b → sel.past ≤ p.node.start) :
    s.diagnostics = [] ↔ ∀ p ∈ picked sel a b m.inner, ∀ q ∈ picked sel a b m.inner,
      p.parent?.map (·.id) = q.parent?.map (·.id) := by
  have hparent : s.parentOfFirst = first.parent?.map (·.id) := by
    rw [hl.gathers.parent, hpicked]; rfl
  rw [hl.gathers.diagnostics, hparent]
  constructor
  · rintro ⟨_, hsame⟩ p hp q hq
    rw [hsame p hp, hsame q hq]
  · intro hsame
    exact ⟨huncut, fun p hp => hsame p hp first (by rw [hpicked]; exact List.mem_cons_self)⟩

theorem Located.legal_iff {s : Trace} (boundaries : Boundaries) (hs : s = ofSelection t sel)
    (h : Laid 0 0 t) (henclosed : Enclosed sel t)
    (hcovered : ∃ n ∈ t.toList, sel.Covers n.start n.stop) (hm : m ∈ t.places)
    (hl : Located sel m a b s) :
    ∃ ds, s.validated sel boundaries = .ok ds ∧
      ((s.verdict sel ds).Legal ↔ Admissible t sel boundaries) := by
  obtain ⟨first, more, hpicked⟩ := List.exists_cons_of_ne_nil (hl.picked_ne_nil h hm hcovered)
  have hfirst : s.first = some first.node := by rw [hl.gathers.first, hpicked]; rfl
  have hfirstCovers := hl.selected_covers
    (hpicked ▸ List.mem_cons_self : first ∈ picked sel a b m.inner)
  obtain ⟨ds, hds, hnil⟩ := validated_eq_ok boundaries hl.method hfirst (by
    intro n hn
    rw [hl.gathers.topLevel] at hn
    obtain ⟨p, hp, rfl⟩ := List.mem_map.mp hn
    exact start_le_stop h (inner_subset hm p (mem_picked.mp hp).1)) hfirstCovers.1
  refine ⟨ds, hds, ?_⟩
  rw [verdict_legal_iff, hnil]
  by_cases huncut : ∀ p ∈ m.inner, p.node.id = b → sel.past ≤ p.node.start
  · have hmax : t.maximalCovered sel = picked sel a b m.inner := hl.maximalCovered_eq h hm huncut
    obtain ⟨last, hlast⟩ := Option.isSome_iff_exists.mp
      (List.getLast?_isSome.mpr (hl.picked_ne_nil h hm hcovered))
    have hexpression := hl.isExpression_iff hmax
    have hdiagnostics := hl.diagnostics_iff hpicked huncut
    have hreturn := hl.notReturn_iff (t := t) hmax
    have hstop := hl.stop_iff boundaries h hm hlast
    constructor
    · rintro ⟨⟨hnone, hret, hstart, hend⟩, hflow, hcandidates, hyield⟩
      rw [Bool.and_eq_true] at hstart
      obtain ⟨hstopAllowed, hstopBlank⟩ := (hstop hnone).mp hend
      have hvalue := Locals.returnValue_isSome_iff hcandidates
      refine ⟨henclosed, hcovered, ?_, (hl.uncut_iff h hm).mpr huncut, ?_, hstart.1, ?_,
        hstopAllowed, ?_, ?_, ?_, ?_⟩
      · rw [hmax]
        exact hdiagnostics.mp hnone
      · exact hreturn.mp hret
      · rw [hmax, hpicked]
        intro p hp
        rw [← Option.some.inj hp]
        exact hstart.2
      · rw [hmax, hlast]
        intro p hp
        rw [← Option.some.inj hp]
        exact hstopBlank
      · rw [← hs]
        exact hflow
      · rw [← hs]
        exact Locals.candidates_length_le_one_iff.mp hcandidates
      · rw [← hs, ← hexpression, ← hvalue]
        exact hyield
    · intro hadm
      have honeParent := hadm.oneParent
      have hstartBlank := hadm.startBlank
      have hstopBlank := hadm.stopBlank
      have hflow := hadm.flow
      have honeCandidate := hadm.oneCandidate
      have hyield := hadm.oneYield
      rw [hmax] at honeParent hstartBlank hstopBlank
      rw [← hs] at hflow honeCandidate hyield
      have hcandidates := Locals.candidates_length_le_one_iff.mpr honeCandidate
      rw [← hexpression, ← Locals.returnValue_isSome_iff hcandidates] at hyield
      have hnone := hdiagnostics.mpr honeParent
      refine ⟨⟨hnone, hreturn.mpr hadm.notReturn, ?_,
        (hstop hnone).mpr ⟨hadm.stopAllowed, hstopBlank last hlast⟩⟩, hflow, hcandidates, hyield⟩
      rw [Bool.and_eq_true]
      exact ⟨hadm.startAllowed, hstartBlank first (by rw [hpicked]; rfl)⟩
  · constructor
    · rintro ⟨⟨hdiagnostics, _⟩, _⟩
      exact absurd (hl.gathers.diagnostics.mp hdiagnostics).1 huncut
    · intro hadmissible
      exact absurd ((hl.uncut_iff h hm).mp hadmissible.uncut) huncut

end Trace

end Extraction
