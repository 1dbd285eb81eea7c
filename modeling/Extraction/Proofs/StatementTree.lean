import Extraction.Proofs.Brackets
import Extraction.Proofs.Classification
import Extraction.Proofs.Grammar
import Extraction.Proofs.LeavingJumps
import Extraction.Proofs.Totality

/-!
# The tree of the selected statements

The flow of a selection is found with a stack: a selected statement that is entered is pushed, and
popped when it is left. As the events are well bracketed, the stack is empty in the end, and what it
leaves behind is the tree of the selected statements.  Its roots are those that no other one stands
above, the parts of each are the nearest ones below it, and its flows are a recursion over the
syntax tree.
-/

namespace Extraction

namespace Trace

/-- The place is entered as a selected statement outside the functions and types in the method. -/
def Chosen (s : Trace) (p : Place) : Prop :=
  ∃ e ∈ s.events.toList, e.kind = .enter ∧ e.Counts ∧ e.place = p

instance (s : Trace) (p : Place) : Decidable (s.Chosen p) :=
  inferInstanceAs (Decidable (∃ e ∈ _, _))

end Trace

namespace FlowNode

/-- The chosen statements of a forest as a forest of their own, each with its flow. -/
def gather (chosen : Place → Bool) (path : List Node) : SyntaxTree → Forest FlowNode
  | .nil => .nil
  | .cons n children rest =>
    let p : Place := ⟨n, children, path⟩
    let below := gather chosen (n :: path) children
    (if chosen p then .cons ⟨p, Flow.ofStatement p below.roots⟩ below .nil else below) ++
      gather chosen path rest

end FlowNode

def SyntaxTree.chosenLabels (chosen : Place → Bool) (t : SyntaxTree) : List String :=
  (t.places.filter fun p => chosen p && p.node.kind == .labeled).map (·.node.label)

/-- The flow of the chosen statements of a tree, given the labels that are jumped to from
outside. -/
def Flow.ofChosen (chosen : Place → Bool) (incoming : List String) (t : SyntaxTree) : Flow :=
  let labels := t.chosenLabels chosen
  let flow := (sequence ((FlowNode.gather chosen [] t).roots.map (·.flow))).resolve
    (labels.map fun l => ⟨.gotoBranch, l⟩)
  { flow with
    openBranches := joinBranches flow.openBranches
      ((incoming.filter (· ∈ labels)).map fun l => ⟨.gotoBranch, l⟩) }

namespace SyntaxTree

def IsOutermost (chosen : Place → Bool) (ps : List Place) (p : Place) : Prop :=
  chosen p = true ∧ ∀ q ∈ ps, chosen q = true → p ∉ q.inner

instance (chosen : Place → Bool) (ps : List Place) (p : Place) :
    Decidable (IsOutermost chosen ps p) :=
  inferInstanceAs (Decidable (_ ∧ _))

def outermost (chosen : Place → Bool) (ps : List Place) : List Place :=
  ps.filter fun p => IsOutermost chosen ps p

end SyntaxTree

open SyntaxTree

section Gather

variable {chosen : Place → Bool} {path : List Node} {f : SyntaxTree} {n : Node}
  {children rest : SyntaxTree}

namespace SyntaxTree

theorem root_notMem_inner (hnodup : (placesBelow path (.cons n children rest)).Nodup) {q : Place}
    (hq : q ∈ placesBelow path (.cons n children rest)) :
    (⟨n, children, path⟩ : Place) ∉ q.inner := by
  intro hin
  rw [placesBelow, List.nodup_cons] at hnodup
  apply hnodup.1
  rw [placesBelow, List.mem_cons, List.mem_append] at hq
  rcases hq with rfl | hq | hq
  · exact List.mem_append_left _ hin
  · exact List.mem_append_left _ (inner_subset hq _ hin)
  · exact List.mem_append_right _ (inner_subset hq _ hin)

theorem isOutermost_below (hnodup : (placesBelow path (.cons n children rest)).Nodup) {p : Place}
    (hp : p ∈ placesBelow (n :: path) children) :
      IsOutermost chosen (placesBelow path (.cons n children rest)) p ↔
      ¬ chosen ⟨n, children, path⟩ = true ∧
          IsOutermost chosen (placesBelow (n :: path) children) p := by
  rw [placesBelow, List.nodup_cons, List.nodup_append] at hnodup
  simp only [IsOutermost, placesBelow, List.forall_mem_cons, List.forall_mem_append]
  constructor
  · rintro ⟨hc, hnot, hchildren, -⟩
    exact ⟨fun htop => hnot htop hp, hc, hchildren⟩
  · rintro ⟨hnot, hc, hchildren⟩
    refine ⟨hc, fun htop => absurd htop hnot, hchildren, fun q hq _ hin => ?_⟩
    exact hnodup.2.2.2 p hp p (inner_subset hq p hin) rfl

theorem isOutermost_behind (hnodup : (placesBelow path (.cons n children rest)).Nodup) {p : Place}
    (hp : p ∈ placesBelow path rest) :
      IsOutermost chosen (placesBelow path (.cons n children rest)) p ↔
      IsOutermost chosen (placesBelow path rest) p := by
  rw [placesBelow, List.nodup_cons, List.nodup_append] at hnodup
  simp only [IsOutermost, placesBelow, List.forall_mem_cons, List.forall_mem_append]
  constructor
  · rintro ⟨hc, -, -, hrest⟩
    exact ⟨hc, hrest⟩
  · rintro ⟨hc, hrest⟩
    refine ⟨hc, fun _ hin => ?_, fun q hq _ hin => ?_, hrest⟩
    · exact hnodup.2.2.2 p hin p hp rfl
    · exact hnodup.2.2.2 p (inner_subset hq p hin) p hp rfl

theorem outermost_cons (hnodup : (placesBelow path (.cons n children rest)).Nodup) :
    outermost chosen (placesBelow path (.cons n children rest)) =
      (if chosen ⟨n, children, path⟩ then [⟨n, children, path⟩]
        else outermost chosen (placesBelow (n :: path) children)) ++
        outermost chosen (placesBelow path rest) := by
  have hsplit : ∀ keep : Place → Bool, (placesBelow path (.cons n children rest)).filter keep =
      [⟨n, children, path⟩].filter keep ++
        ((placesBelow (n :: path) children).filter keep ++
        (placesBelow path rest).filter keep) := by
    intro keep
    rw [placesBelow, ← List.singleton_append, List.filter_append, List.filter_append]
  have hbelow : ((placesBelow (n :: path) children).filter fun p =>
      IsOutermost chosen (placesBelow path (.cons n children rest)) p) =
        (placesBelow (n :: path) children).filter fun p =>
        ¬ chosen ⟨n, children, path⟩ = true ∧
          IsOutermost chosen (placesBelow (n :: path) children) p :=
    List.filter_congr fun p hp => decide_eq_decide.mpr (isOutermost_below hnodup hp)
  have hbehind : ((placesBelow path rest).filter fun p =>
      IsOutermost chosen (placesBelow path (.cons n children rest)) p) =
        outermost chosen (placesBelow path rest) :=
    List.filter_congr fun p hp => decide_eq_decide.mpr (isOutermost_behind hnodup hp)
  rw [outermost, hsplit, hbelow, hbehind]
  by_cases hc : chosen ⟨n, children, path⟩ = true
  · have htop : IsOutermost chosen (placesBelow path (.cons n children rest)) ⟨n, children, path⟩ :=
      ⟨hc, fun q hq _ => root_notMem_inner hnodup hq⟩
    simp [hc, htop]
  · have htop : ¬ IsOutermost chosen (placesBelow path (.cons n children rest))
        ⟨n, children, path⟩ := fun h => hc h.1
    simp [hc, htop, outermost]

end SyntaxTree

theorem FlowNode.places_gather (hnodup : (placesBelow path f).Nodup) :
    (gather chosen path f).roots.map (·.place) = outermost chosen (placesBelow path f) := by
  induction f generalizing path with
  | nil => rfl
  | cons n children rest ihc ihr =>
    have hparts := hnodup
    rw [placesBelow, List.nodup_cons, List.nodup_append] at hparts
    rw [outermost_cons hnodup, gather, Forest.roots_append, List.map_append, ihr hparts.2.2.1,
      ← ihc hparts.2.1]
    split <;> rfl

theorem Forest.everywhere_append {α : Type} {P : α → Forest α → Prop} {f g : Forest α}
    (hf : f.Everywhere P) (hg : g.Everywhere P) : (f ++ g).Everywhere P := by
  induction f with
  | nil => exact hg
  | cons root children rest _ ihr => exact ⟨hf.1, hf.2.1, ihr hf.2.2⟩

theorem FlowNode.everywhere_gather (hnodup : (placesBelow path f).Nodup) :
    (gather chosen path f).Everywhere fun g parts =>
      parts.roots.map (·.place) = outermost chosen g.place.inner ∧
          g.flow = Flow.ofStatement g.place parts.roots := by
  induction f generalizing path with
  | nil => trivial
  | cons n children rest ihc ihr =>
    rw [placesBelow, List.nodup_cons, List.nodup_append] at hnodup
    have hbelow := ihc hnodup.2.1
    rw [gather]
    apply Forest.everywhere_append _ (ihr hnodup.2.2.1)
    split
    · exact ⟨⟨places_gather hnodup.2.1, rfl⟩, hbelow, trivial⟩
    · exact hbelow

theorem FlowNode.gather_eq_nil (path : List Node) (h : ∀ p ∈ placesBelow path f, chosen p = false) :
    gather chosen path f = .nil := by
  induction f generalizing path with
  | nil => rfl
  | cons n children rest ihc ihr =>
    simp only [placesBelow, List.forall_mem_cons, List.forall_mem_append] at h
    simp only [gather, h.1, ihc _ h.2.1, ihr _ h.2.2, Bool.false_eq_true, if_false,
      Forest.nil_append]

/-- If nothing outside `m` is chosen, what is gathered is gathered below `m`. -/
theorem FlowNode.gather_of_inner {m : Place} (hnodup : (placesBelow path f).Nodup)
    (hm : m ∈ placesBelow path f)
    (hnone : ∀ p ∈ placesBelow path f, p ∉ m.inner → chosen p = false) :
    gather chosen path f = gather chosen m.below m.children := by
  induction f generalizing path with
  | nil => cases hm
  | cons n children rest ihc ihr =>
    have hroot : chosen ⟨n, children, path⟩ = false :=
      hnone _ List.mem_cons_self (root_notMem_inner hnodup hm)
    rw [placesBelow, List.nodup_cons, List.nodup_append] at hnodup
    obtain ⟨-, hchildren, hrest, hapart⟩ := hnodup
    simp only [placesBelow, List.forall_mem_cons, List.forall_mem_append] at hnone
    simp only [placesBelow, List.mem_cons, List.mem_append] at hm
    simp only [gather, hroot, Bool.false_eq_true, if_false]
    rcases hm with rfl | hm | hm
    · rw [gather_eq_nil path fun p hp => hnone.2.2 p hp fun hin => hapart p hin p hp rfl,
        Forest.append_nil]
      rfl
    · rw [gather_eq_nil path fun p hp => hnone.2.2 p hp fun hin =>
        hapart p (inner_subset hm p hin) p hp rfl,
        Forest.append_nil, ihc hchildren hm hnone.2.1]
    · rw [gather_eq_nil (n :: path) fun p hp => hnone.2.1 p hp fun hin =>
        hapart p hp p (inner_subset hm p hin) rfl,
        Forest.nil_append, ihr hrest hm hnone.2.2]

end Gather

namespace Returns

theorem step_enter {e : Event} (hkind : e.kind = .enter) (h : e.Counts) (s : Returns) :
    step s e = s.opening e.place := by
  rw [step_eq, if_pos h, if_pos hkind]

theorem step_leave {e : Event} (hkind : e.kind = .leave) (h : e.Counts) (s : Returns) :
    step s e = s.close := by
  rw [step_eq, if_pos h, if_neg (by simp [hkind]), if_pos hkind]

theorem step_of_not_counts {e : Event} (h : ¬ e.Counts) (s : Returns) :
    ∃ labels, step s e = s.expecting labels := by
  rw [step_eq, if_neg h]
  split
  · exact ⟨[e.node.label], rfl⟩
  · exact ⟨[], rfl⟩

theorem close_expecting (s : Returns) (labels : List String) :
    (s.expecting labels).close = s.close.expecting labels := by
  obtain ⟨stack, roots, known, incoming⟩ := s
  cases stack with
  | nil => rfl
  | cons top outer => cases outer <;> rfl

theorem foldl_brackets (phase : Place → Phase) (nested : Place → Bool) {chosen : Place → Bool}
    (path : List Node) {f : SyntaxTree}
    (hchosen : ∀ p ∈ placesBelow path f, chosen p = true ↔
    Event.Counts ⟨.enter, phase p, nested p, p⟩) (s : Returns) :
    ∃ labels incoming, (Event.brackets phase nested path f).foldl step s =
      ((s.attach (FlowNode.gather chosen path f)).noting labels).expecting incoming := by
  induction f generalizing path s with
  | nil => exact ⟨[], [], by rw [FlowNode.gather, attach_nil]; rfl⟩
  | cons n children rest ihc ihr =>
    simp only [placesBelow, List.forall_mem_cons, List.forall_mem_append] at hchosen
    obtain ⟨hhere, hchildren, hrest⟩ := hchosen
    rw [Event.brackets, List.foldl_cons, List.foldl_append, List.foldl_cons, FlowNode.gather]
    by_cases hc : chosen ⟨n, children, path⟩ = true
    · -- the statement is pushed, its parts are added to it, and it is popped
      obtain ⟨ls, is, hbelow⟩ := ihc (n :: path) hchildren (s.opening ⟨n, children, path⟩)
      have hleave : Event.Counts ⟨.leave, phase _, nested _, ⟨n, children, path⟩⟩ := hhere.mp hc
      rw [step_enter rfl (hhere.mp hc), hbelow, step_leave rfl hleave, close_expecting,
        opening_close, if_pos hc]
      obtain ⟨ms, js, hlater⟩ := ihr path hrest _
      exact ⟨_, _, hlater.trans (attach_noting_expecting _ _ _ _ _ _ _)⟩
    · have hnot : ∀ kind, ¬ Event.Counts ⟨kind, phase _, nested _, ⟨n, children, path⟩⟩ :=
        fun _ h => hc (hhere.mpr h)
      obtain ⟨is, henter⟩ := step_of_not_counts (hnot .enter) s
      obtain ⟨ls, js, hbelow⟩ := ihc (n :: path) hchildren (s.expecting is)
      obtain ⟨ks, hleave⟩ := step_of_not_counts (hnot .leave)
        ((((s.expecting is).attach (FlowNode.gather chosen (n :: path) children)).noting
        ls).expecting js)
      rw [henter, hbelow, hleave, if_neg hc, expecting_attach, expecting_noting,
        expecting_expecting, expecting_expecting]
      obtain ⟨ms, ks', hlater⟩ := ihr path hrest _
      exact ⟨_, _, hlater.trans (attach_noting_expecting _ _ _ _ _ _ _)⟩

theorem foldl_filter (es : List Event) (s : Returns) :
    es.foldl step s = (es.filter fun e => e.IsBracket).foldl step s := by
  rw [List.foldl_filter]
  congr 1
  funext s e
  split
  · rfl
  next hnot =>
    have hkinds := not_or.mp fun hbracket => hnot (decide_eq_true hbracket)
    exact step_other hkinds.1 hkinds.2 s

theorem mem_foldl_step {known : Returns → List String} {adds : Event → Prop} [DecidablePred adds]
    (hstep : ∀ s e, known (step s e) = if adds e then (known s).insert e.node.label else known s)
    (es : List Event) (s : Returns) (l : String) :
    l ∈ known (es.foldl step s) ↔ l ∈ known s ∨ ∃ e ∈ es, adds e ∧ e.node.label = l := by
  induction es generalizing s with
  | nil => simp
  | cons e es ih =>
    rw [List.foldl_cons, ih, hstep]
    simp only [List.mem_cons, exists_eq_or_imp, ← or_assoc]
    apply or_congr_left
    split
    next h => simp [h, or_comm, eq_comm]
    next h => simp [h]

/-- Only which labels are known counts for the flow. -/
theorem flow_eq_ofChosen {r : Returns} {chosen : Place → Bool} {t : SyntaxTree}
    (hroots : r.roots = FlowNode.gather chosen [] t)
    (hlabels : ∀ l, l ∈ r.labels ↔ l ∈ t.chosenLabels chosen) :
    r.flow = Flow.ofChosen chosen r.incoming t := by
  have hresolve : ∀ f : Flow, f.resolve (r.labels.map fun l => ⟨.gotoBranch, l⟩) =
      f.resolve ((t.chosenLabels chosen).map fun l => ⟨.gotoBranch, l⟩) := by
    intro f
    rw [Flow.resolve, Flow.resolve]
    congr 1
    apply List.filter_congr
    intro b _
    simp only [List.mem_map, hlabels]
  have hfilter : r.incoming.filter (· ∈ r.labels) = r.incoming.filter (· ∈ t.chosenLabels chosen) :=
    List.filter_congr fun l _ => decide_eq_decide.mpr (hlabels l)
  rw [flow, Flow.ofChosen, hroots, hfilter, hresolve]

end Returns

namespace Trace

variable {sel : Extent} {t : SyntaxTree} {a b : Nat} {m p : Place} {s : Trace}

theorem Located.mem_inner_of_chosen (hl : Located sel m a b s) (hp : s.Chosen p) : p ∈ m.inner := by
  obtain ⟨e, he, -, hcounts, rfl⟩ := hp
  exact (Event.place_of_mem_stream (hl.mem_stream he hcounts.1)).2

theorem Located.chosen_iff (hl : Located sel m a b s) (hp : p ∈ m.inner) : s.Chosen p ↔
    Event.Counts ⟨.enter, Phase.among a b p.node.id, (p.upper m.below).any fun k =>
    k.kind.isScope, p⟩ := by
  constructor
  · rintro ⟨e, he, -, hcounts, rfl⟩
    have hmem := hl.mem_stream he hcounts.1
    obtain ⟨hphase, hnested, hstatement⟩ := hcounts
    rw [(Event.place_of_mem_stream hmem).1] at hphase
    rw [Event.nested_eq_of_mem_stream m.below [] hmem] at hnested
    exact ⟨hphase, hnested, hstatement⟩
  · rintro ⟨hphase, hnested, hstatement⟩
    obtain ⟨e, he, hkind, rfl⟩ := Event.exists_enter (Phase.among a b) 0 hp
    refine ⟨e, hl.stream_subset e he, hkind, ⟨?_, ?_, hstatement⟩, rfl⟩
    · rw [(Event.place_of_mem_stream he).1]
      exact hphase
    · rw [Event.nested_eq_of_mem_stream m.below [] he]
      exact hnested

theorem Located.returns_gather (h : Laid 0 0 t) (hm : m ∈ t.places) (hl : Located sel m a b s) :
    (Returns.ofEvents s.events.toList).stack = [] ∧
      (Returns.ofEvents s.events.toList).roots = FlowNode.gather (fun p => s.Chosen p) [] t := by
  obtain ⟨before, after, hevents, hbefore, -, hafter⟩ := hl.events
  obtain ⟨i, hi⟩ := Returns.foldl_unselected (fun e he => (hbefore e he).1.ne_selected) {}
  obtain ⟨ls, is, hbrackets⟩ := Returns.foldl_brackets (fun p => Phase.among a b p.node.id)
    (fun p => (p.upper m.below).any fun k => k.kind.isScope) m.below
    (fun p hp => decide_eq_true_iff.trans (hl.chosen_iff hp)) (Returns.receiving {} i)
  obtain ⟨j, hj⟩ := Returns.foldl_unselected (fun e he => (hafter e he).1.ne_selected)
    ((((Returns.receiving {} i).attach
    (FlowNode.gather (fun p => s.Chosen p) m.below m.children)).noting ls).expecting is)
  rw [← Event.filter_stream_zero, ← Returns.foldl_filter] at hbrackets
  have hgather : FlowNode.gather (fun p => s.Chosen p) [] t =
    FlowNode.gather (fun p => s.Chosen p) m.below m.children :=
    FlowNode.gather_of_inner (nodup_placesBelow [] h) hm fun p _ hout =>
      decide_eq_false fun hchosen => hout (hl.mem_inner_of_chosen hchosen)
  rw [Returns.ofEvents, hevents, List.foldl_append, List.foldl_append, hi, hbrackets, hj, hgather]
  exact ⟨rfl, rfl⟩

/-- The stack has rebuilt the tree of the chosen statements of `t`. -/
structure Rebuilt (s : Trace) (t : SyntaxTree) (r : Returns) : Prop where
  stack : r.stack = []
  roots : r.roots = FlowNode.gather (fun p => s.Chosen p) [] t
  places : r.roots.roots.map (·.place) = outermost (fun p => s.Chosen p) t.places
  /-- The parts of a statement are the nearest chosen ones below it, and its flow comes from
  theirs. -/
  parts : r.roots.Everywhere fun g parts =>
    parts.roots.map (·.place) = outermost (fun p => s.Chosen p) g.place.inner ∧
      g.flow = Flow.ofStatement g.place parts.roots
  incoming : ∀ l, l ∈ r.incoming ↔ ∃ e ∈ s.events.toList, e.Arrives ∧ e.node.label = l
  flow : r.flow = Flow.ofChosen (fun p => s.Chosen p) r.incoming t

theorem ofSelection_gather (sel : Extent) (h : Laid 0 0 t.first) :
    (Returns.ofEvents (ofSelection t sel).events.toList).stack = [] ∧
      (Returns.ofEvents (ofSelection t sel).events.toList).roots =
        FlowNode.gather (fun p => (ofSelection t sel).Chosen p) [] t.first := by
  by_cases henclosed : Enclosed sel t.first
  · obtain ⟨m, start, hf⟩ := exists_finds_of_enclosed h henclosed
    obtain ⟨a, b, hl⟩ := hf.settled.located h hf.mem hf.encloses
    exact hl.returns_gather h hf.mem
  · rw [ofSelection_of_not_enclosed henclosed, FlowNode.gather_eq_nil]
    · exact ⟨rfl, rfl⟩
    · intro p _
      apply decide_eq_false
      rintro ⟨e, he, -⟩
      cases he

/-- For every selection, the stack is empty at the end and what it leaves is the tree of the
selected statements. -/
theorem returns_rebuilt (s : Sketch) (sel : Extent) :
    Rebuilt (ofSelection s.layout sel) s.layout
      (Returns.ofEvents (ofSelection s.layout sel).events.toList) := by
  have h : Laid 0 0 s.layout := laid_layout s
  have hnodup := nodup_placesBelow [] h
  obtain ⟨hstack, hroots⟩ := ofSelection_gather (t := s.layout) sel h
  refine ⟨hstack, hroots, ?_, ?_, fun l => ?_, ?_⟩
  · rw [hroots]
    exact FlowNode.places_gather hnodup
  · rw [hroots]
    exact FlowNode.everywhere_gather hnodup
  · exact (Returns.mem_foldl_step Returns.incoming_step _ {} l).trans
      (or_iff_right List.not_mem_nil)
  · apply Returns.flow_eq_ofChosen hroots
    intro l
    refine (Returns.mem_foldl_step Returns.labels_step _ {} l).trans
      ((or_iff_right List.not_mem_nil).trans ?_)
    simp only [chosenLabels, List.mem_map, List.mem_filter, Bool.and_eq_true, decide_eq_true_eq,
      beq_iff_eq]
    constructor
    · rintro ⟨e, he, ⟨hkind, hcounts, hlabeled⟩, rfl⟩
      exact ⟨e.place, ⟨place_mem_of_mem_events (t := s.layout) h e he, ⟨e, he, hkind, hcounts, rfl⟩,
        hlabeled⟩, rfl⟩
    · rintro ⟨p, ⟨-, ⟨e, he, hkind, hcounts, rfl⟩, hlabeled⟩, rfl⟩
      exact ⟨e, he, ⟨hkind, hcounts, hlabeled⟩, rfl⟩

end Trace

end Extraction
