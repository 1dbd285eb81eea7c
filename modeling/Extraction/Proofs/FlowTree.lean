import Extraction.Proofs.Exposed

/-!
# The statements of a selection

The events of a traversal rebuild the tree of the selected statements: the flow of a selection is a
recursion over the selected forest.  Events in functions and types inside the method, and events
that are not selected, leave it alone.
-/

namespace Extraction

theorem Kind.isScope_eq_false {k : Kind} (h : k.isStatement = true) : k.isScope = false := by
  cases k <;> first | rfl | cases h

theorem Kind.isLoop_iff {k : Kind} : k.isLoop = true ↔ k = .loop ∨ k = .doWhile := by
  cases k <;> simp [isLoop]

namespace FlowNode

/-- The outermost statements of a forest that are not inside a function or type of it, each with its
flow. -/
def parts (path : List Node) : SyntaxTree → List FlowNode
  | .nil => []
  | .cons n children rest =>
    let p : Place := ⟨n, children, path⟩
    (if n.kind.isStatement then [⟨p, Flow.ofStatement p (parts (n :: path) children)⟩]
      else if n.kind.isScope then [] else parts (n :: path) children) ++
    parts path rest

end FlowNode

namespace Event

theorem stream_append (phase : Nat → Phase) (depth : Int) (path : List Node) (f g : SyntaxTree) :
    stream phase depth path (f ++ g) = stream phase depth path f ++ stream phase depth path g := by
  induction f with
  | nil => rfl
  | cons n children rest _ ihr => simp only [Forest.cons_append, stream, ihr, List.append_assoc]

theorem foldl_stream_cons {σ : Type} (step : σ → Event → σ) (phase : Nat → Phase)
    (path : List Node) (n : Node) (children rest : SyntaxTree) (s : σ) :
    (stream phase 0 path (.cons n children rest)).foldl step s =
      (stream phase 0 path rest).foldl step
        ((leaving phase false ⟨n, children, path⟩).foldl step
          ((stream phase (0 + Place.nesting ⟨n, children, path⟩) (n :: path) children).foldl step
            ((entering (phase n.id) false ⟨n, children, path⟩).foldl step s))) := by
  simp [stream, Place.below, List.foldl_append]

theorem foldl_eq_self {σ : Type} {step : σ → Event → σ} {es : List Event} (s : σ)
    (h : ∀ e ∈ es, ∀ s, step s e = s) : es.foldl step s = s := by
  induction es generalizing s with
  | nil => rfl
  | cons e es ih =>
    rw [List.foldl_cons, h e List.mem_cons_self]
    exact ih s fun e he => h e (List.mem_cons_of_mem _ he)

/-- The event is one of a selected statement, outside the functions and types in the method. -/
def Counts (e : Event) : Prop :=
  e.phase = .selected ∧ e.nested = false ∧ e.node.kind.isStatement = true

instance (e : Event) : Decidable e.Counts :=
  inferInstanceAs (Decidable (_ ∧ _))

/-- A jump to a label is met outside the selection, in the function that is taken to enclose it. -/
def Arrives (e : Event) : Prop :=
  e.nested = false ∧ e.kind = .enter ∧ e.phase ≠ .selected ∧ e.node.kind = .gotoStmt

instance (e : Event) : Decidable e.Arrives :=
  inferInstanceAs (Decidable (_ ∧ _))

theorem nested_of_mem_entering {phase : Phase} {nested : Bool} {p : Place} {e : Event}
    (he : e ∈ entering phase nested p) : e.nested = nested := by
  rcases mem_entering.mp he with rfl | ⟨a, -, rfl⟩ | ⟨-, rfl⟩ <;> rfl

theorem nested_of_mem_leaving {phase : Nat → Phase} {nested : Bool} {p : Place} {e : Event}
    (he : e ∈ leaving phase nested p) : e.nested = nested := by
  rcases mem_leaving.mp he with ⟨c, -, b, -, rfl⟩ | ⟨-, rfl⟩ | rfl <;> rfl

theorem nesting_nonneg (p : Place) : 0 ≤ p.nesting := by
  unfold Place.nesting
  split <;> omega

theorem nested_of_mem_stream {phase : Nat → Phase} {depth : Int} {path : List Node} {f : SyntaxTree}
    {e : Event} (hdepth : 0 < depth) (he : e ∈ stream phase depth path f) : e.nested = true := by
  induction f generalizing depth path with
  | nil => cases he
  | cons n children rest ihc ihr =>
    simp only [stream, List.mem_append] at he
    rcases he with ((he | he) | he) | he
    · rw [nested_of_mem_entering he, decide_eq_true hdepth]
    · have := nesting_nonneg ⟨n, children, path⟩
      exact ihc (by omega) he
    · rw [nested_of_mem_leaving he, decide_eq_true hdepth]
    · exact ihr hdepth he

theorem place_of_mem_stream {phase : Nat → Phase} {depth : Int} {path : List Node} {f : SyntaxTree}
    {e : Event} (he : e ∈ stream phase depth path f) :
    e.phase = phase e.place.node.id ∧ e.place ∈ SyntaxTree.placesBelow path f := by
  induction f generalizing depth path with
  | nil => cases he
  | cons n children rest ihc ihr =>
    simp only [stream, List.mem_append] at he
    simp only [SyntaxTree.placesBelow, List.mem_cons, List.mem_append]
    rcases he with ((he | he) | he) | he
    · obtain ⟨hphase, hplace⟩ := Trace.place_of_mem_entering he
      rw [hphase, hplace]
      exact ⟨rfl, Or.inl rfl⟩
    · obtain ⟨hphase, hplace⟩ := ihc he
      exact ⟨hphase, Or.inr (Or.inl hplace)⟩
    · obtain ⟨hphase, hplace⟩ := Trace.place_of_mem_leaving he
      refine ⟨hphase, ?_⟩
      rcases hplace with hplace | hchild
      · exact Or.inl hplace
      · exact Or.inr (Or.inl (SyntaxTree.rootPlaces_subset _ _ _ hchild).1)
    · obtain ⟨hphase, hplace⟩ := ihr he
      exact ⟨hphase, Or.inr (Or.inr hplace)⟩

end Event

namespace Returns

def attach (s : Returns) (done : Forest FlowNode) : Returns :=
  match s.stack with
  | [] => { s with roots := s.roots ++ done }
  | (p, parts) :: outer => { s with stack := (p, parts ++ done) :: outer }

def noting (s : Returns) (labels : List String) : Returns :=
  { s with labels := labels.foldl (fun known l => known.insert l) s.labels }

def opening (s : Returns) (p : Place) : Returns :=
  { s with
    labels := if p.node.kind = .labeled then s.labels.insert p.node.label else s.labels
    stack := (p, .nil) :: s.stack }

def passing (s : Returns) (p : Place) : Returns :=
  if p.node.kind = .gotoStmt then { s with incoming := s.incoming.insert p.node.label } else s

def receiving (s : Returns) (incoming : List String) : Returns :=
  { s with incoming }

theorem step_eq (s : Returns) (e : Event) :
    step s e =
      if e.Counts then
        if e.kind = .enter then s.opening e.place else if e.kind = .leave then s.close else s
      else if e.Arrives then s.receiving (s.incoming.insert e.node.label) else s := by
  unfold step
  by_cases hcounts : e.Counts
  · obtain ⟨hphase, hnested, hstatement⟩ := id hcounts
    simp only [if_pos hcounts, hphase, hnested, hstatement, Bool.not_true, Bool.or_self,
      Bool.false_eq_true, if_false, if_true]
    cases e.kind <;> rfl
  · rw [if_neg hcounts]
    split
    next hignored =>
      rw [if_neg]
      rintro ⟨hnested, -, -, hgoto⟩
      rw [hnested, hgoto] at hignored
      cases hignored
    next hkept =>
      simp only [Bool.or_eq_true, Bool.not_eq_true', not_or, Bool.not_eq_true,
        Bool.not_eq_false] at hkept
      have hphase : e.phase ≠ .selected := fun hphase => hcounts ⟨hphase, hkept.1, hkept.2⟩
      cases hk : e.kind with
      | enter =>
        by_cases hgoto : e.node.kind = .gotoStmt
        · have harrives : e.Arrives := ⟨hkept.1, hk, hphase, hgoto⟩
          simp [hphase, hgoto, harrives, receiving]
        · simp [hphase, hgoto, Event.Arrives]
      | leave => simp [hphase, Event.Arrives, hk]
      | _ => simp [Event.Arrives, hk]

theorem incoming_close (s : Returns) : s.close.incoming = s.incoming := by
  unfold close
  split
  · rfl
  · split <;> rfl

theorem labels_close (s : Returns) : s.close.labels = s.labels := by
  unfold close
  split
  · rfl
  · split <;> rfl

theorem incoming_step (s : Returns) (e : Event) :
    (s.step e).incoming = if e.Arrives then s.incoming.insert e.node.label else s.incoming := by
  rw [step_eq]
  by_cases hcounts : e.Counts
  · have hnot : ¬ e.Arrives := fun harrives => harrives.2.2.1 hcounts.1
    rw [if_pos hcounts, if_neg hnot]
    cases e.kind with
    | leave => exact incoming_close s
    | _ => rfl
  · rw [if_neg hcounts]
    split <;> rfl

theorem labels_step (s : Returns) (e : Event) :
    (s.step e).labels =
      if e.kind = .enter ∧ e.Counts ∧ e.node.kind = .labeled then s.labels.insert e.node.label
      else s.labels := by
  rw [step_eq]
  by_cases hcounts : e.Counts
  · rw [if_pos hcounts]
    cases hk : e.kind with
    | enter => simp [hcounts, opening, Event.node]
    | leave => simp [labels_close]
    | _ => simp
  · have hnot : ¬ (e.kind = .enter ∧ e.Counts ∧ e.node.kind = .labeled) := fun h => hcounts h.2.1
    rw [if_neg hcounts, if_neg hnot]
    split <;> rfl

theorem step_nested {e : Event} (h : e.nested = true) (s : Returns) : step s e = s := by
  simp [step, h]

theorem step_other {e : Event} (henter : e.kind ≠ .enter) (hleave : e.kind ≠ .leave) (s : Returns) :
    step s e = s := by
  unfold step
  split
  · rfl
  · cases hk : e.kind with
    | enter => exact absurd hk henter
    | leave => exact absurd hk hleave
    | _ => rfl

theorem foldl_entering (s : Returns) (phase : Phase) (p : Place) :
    (Event.entering phase false p).foldl step s =
      if p.node.kind.isStatement then if phase = .selected then s.opening p
      else s.passing p else s := by
  rw [Event.entering, List.cons_append, List.foldl_cons, Event.foldl_eq_self]
  · cases hs : p.node.kind.isStatement with
    | false => simp [step, Event.node, hs]
    | true =>
      by_cases hphase : phase = .selected
      · simp only [step, Event.node, hs, hphase, Bool.not_true, Bool.or_self, Bool.false_eq_true,
          if_true, if_false]
        rfl
      · simp only [step, Event.node, hs, hphase, Bool.not_true, Bool.or_self, Bool.false_eq_true,
          if_true, if_false]
        rfl
  · intro e he
    rcases List.mem_append.mp he with he | he
    · obtain ⟨a, _, rfl⟩ := List.mem_map.mp he
      exact step_other (by simp) (by simp)
    · split at he
      · rw [List.mem_singleton.mp he]
        exact step_other (by simp) (by simp)
      · cases he

theorem foldl_leaving (s : Returns) (phase : Nat → Phase) (p : Place) :
    (Event.leaving phase false p).foldl step s =
      if p.node.kind.isStatement ∧ phase p.node.id = .selected then s.close else s := by
  obtain ⟨es, hes, hkinds⟩ := Event.exists_leaving_eq phase false p
  have hquiet : es.foldl step s = s :=
    Event.foldl_eq_self s fun e he => step_other (hkinds e he).1 (hkinds e he).2
  rw [hes, List.foldl_append, hquiet]
  simp only [List.foldl_cons, List.foldl_nil, step, Event.node, Bool.false_or]
  by_cases hs : p.node.kind.isStatement <;> by_cases hphase : phase p.node.id = .selected <;>
    simp [hs, hphase]

theorem foldl_stream_nested (s : Returns) (phase : Nat → Phase) {depth : Int} (path : List Node)
    (f : SyntaxTree) (hdepth : 0 < depth) : (Event.stream phase depth path f).foldl step s = s :=
  Event.foldl_eq_self s fun _ he => step_nested (Event.nested_of_mem_stream hdepth he)

def labelsOf (path : List Node) (f : SyntaxTree) : List String :=
  (SyntaxTree.exposed path f).filterMap fun p => if p.node.kind = .labeled
    then some p.node.label else none

@[simp] theorem attach_nil (s : Returns) : s.attach .nil = s := by
  obtain ⟨stack, roots, labels, incoming⟩ := s
  cases stack with
  | nil => simp [attach]
  | cons top outer => simp [attach]

theorem attach_attach (s : Returns) (f g : Forest FlowNode) :
    (s.attach f).attach g = s.attach (f ++ g) := by
  obtain ⟨stack, roots, labels, incoming⟩ := s
  cases stack with
  | nil => simp [attach, Forest.append_assoc]
  | cons top outer => simp [attach, Forest.append_assoc]

theorem noting_attach (s : Returns) (labels : List String) (f : Forest FlowNode) :
    (s.noting labels).attach f = (s.attach f).noting labels := by
  obtain ⟨stack, roots, known, incoming⟩ := s
  cases stack <;> rfl

theorem mem_foldl_insert (ls known : List String) (l : String) :
    l ∈ ls.foldl (fun known l => known.insert l) known ↔ l ∈ ls ∨ l ∈ known := by
  induction ls generalizing known with
  | nil => simp
  | cons l' ls ih =>
    rw [List.foldl_cons, ih]
    simp [or_assoc, or_left_comm]

theorem mem_labels_noting (s : Returns) (ls : List String) (l : String) :
    l ∈ (s.noting ls).labels ↔ l ∈ ls ∨ l ∈ s.labels :=
  mem_foldl_insert ls s.labels l

theorem noting_noting (s : Returns) (ls ms : List String) :
    (s.noting ls).noting ms = s.noting (ls ++ ms) := by
  simp [noting]

theorem opening_close (s : Returns) (p : Place) (f : Forest FlowNode) (labels : List String) :
    (((s.opening p).attach f).noting labels).close =
      (s.attach (.cons ⟨p, Flow.ofStatement p f.roots⟩ f .nil)).noting
        ((if p.node.kind = .labeled then [p.node.label] else []) ++ labels) := by
  obtain ⟨stack, roots, known, incoming⟩ := s
  by_cases hl : p.node.kind = .labeled
  · cases stack <;> simp [opening, attach, noting, close, hl]
  · cases stack <;> simp [opening, attach, noting, close, hl]

theorem labelsOf_cons (path : List Node) (n : Node) (children rest : SyntaxTree) :
    labelsOf path (.cons n children rest) =
      (if n.kind = .labeled then [n.label] else []) ++
        (if n.kind.isScope then [] else labelsOf (n :: path) children) ++ labelsOf path rest := by
  rw [labelsOf, SyntaxTree.exposed, List.filterMap_cons, List.filterMap_append]
  cases n.kind.isScope <;> by_cases hl : n.kind = .labeled <;> simp [labelsOf, hl]

theorem foldl_stream_selected {phase : Nat → Phase} (path : List Node) {f : SyntaxTree}
    (hphase : ∀ n ∈ f.toList, phase n.id = .selected) :
    ∃ done : Forest FlowNode, done.roots = FlowNode.parts path f ∧
      ∀ s : Returns, (Event.stream phase 0 path f).foldl step s =
      (s.attach done).noting (labelsOf path f) := by
  induction f generalizing path with
  | nil => exact ⟨.nil, rfl, fun s => by rw [attach_nil]; rfl⟩
  | cons n children rest ihc ihr =>
    have hn : phase n.id = .selected := hphase n List.mem_cons_self
    obtain ⟨below, hbelow, hchildren⟩ :=
      ihc (n :: path) fun m hm => hphase m (by simp [Forest.toList, hm])
    obtain ⟨later, hlater, hrest⟩ := ihr path fun m hm => hphase m (by simp [Forest.toList, hm])
    cases hstatement : n.kind.isStatement with
    | true =>
      have hscope := Kind.isScope_eq_false hstatement
      refine ⟨.cons ⟨⟨n, children, path⟩, Flow.ofStatement ⟨n, children, path⟩ below.roots⟩ below
        later, ?_, fun s => ?_⟩
      · simp [FlowNode.parts, Forest.roots, hstatement, hbelow, hlater]
      · rw [Event.foldl_stream_cons, foldl_entering, foldl_leaving]
        simp only [Place.nesting, hstatement, hscope, hn, if_true, Int.add_zero, and_self,
          Bool.false_eq_true, if_false]
        rw [hchildren, opening_close, hrest, noting_attach, noting_noting, attach_attach,
          labelsOf_cons, hscope]
        rfl
    | false =>
      have hlabel : n.kind ≠ .labeled := by
        intro hk
        rw [hk] at hstatement
        cases hstatement
      cases hscope : n.kind.isScope with
      | true =>
        refine ⟨later, ?_, fun s => ?_⟩
        · simp [FlowNode.parts, hstatement, hscope, hlater]
        · rw [Event.foldl_stream_cons, foldl_entering, foldl_leaving]
          simp only [Place.nesting, hstatement, hscope, if_true, Bool.false_eq_true,
            if_false, false_and]
          rw [foldl_stream_nested s phase (n :: path) children (by decide : (0 : Int) < 0 + 1),
            hrest, labelsOf_cons, if_neg hlabel, hscope]
          rfl
      | false =>
        refine ⟨below ++ later, ?_, fun s => ?_⟩
        · simp [FlowNode.parts, hstatement, hscope, hbelow, hlater]
        · rw [Event.foldl_stream_cons, foldl_entering, foldl_leaving]
          simp only [Place.nesting, hstatement, hscope, Int.add_zero, Bool.false_eq_true,
            if_false, false_and]
          rw [hchildren, hrest, noting_attach, noting_noting, attach_attach, labelsOf_cons,
            if_neg hlabel, hscope]
          rfl

@[simp] theorem receiving_receiving (s : Returns) (i j : List String) :
    (s.receiving i).receiving j = s.receiving j :=
  rfl

theorem receiving_attach (s : Returns) (i : List String) (f : Forest FlowNode) :
    (s.receiving i).attach f = (s.attach f).receiving i := by
  obtain ⟨stack, roots, known, incoming⟩ := s
  cases stack <;> rfl

theorem receiving_noting (s : Returns) (i ls : List String) :
    (s.receiving i).noting ls = (s.noting ls).receiving i :=
  rfl

theorem step_unselected {e : Event} (h : e.phase ≠ .selected) (s : Returns) :
    ∃ incoming, step s e = s.receiving incoming := by
  rw [step_eq, if_neg fun hcounts => h hcounts.1]
  split
  · exact ⟨_, rfl⟩
  · exact ⟨s.incoming, rfl⟩

theorem foldl_unselected {es : List Event} (h : ∀ e ∈ es, e.phase ≠ .selected) (s : Returns) :
    ∃ incoming, es.foldl step s = s.receiving incoming := by
  induction es generalizing s with
  | nil => exact ⟨s.incoming, rfl⟩
  | cons e es ih =>
    obtain ⟨i, hi⟩ := step_unselected (h e List.mem_cons_self) s
    obtain ⟨j, hj⟩ := ih (fun e he => h e (List.mem_cons_of_mem _ he)) (s.receiving i)
    exact ⟨j, by rw [List.foldl_cons, hi, hj, receiving_receiving]⟩

theorem foldl_stream_unselected {phase : Nat → Phase} {f : SyntaxTree}
    (h : ∀ n ∈ f.toList, phase n.id ≠ .selected) (depth : Int) (path : List Node) (s : Returns) :
    ∃ incoming, (Event.stream phase depth path f).foldl step s = s.receiving incoming := by
  refine foldl_unselected (fun e he => ?_) s
  obtain ⟨hphase, hplace⟩ := Event.place_of_mem_stream he
  rw [hphase]
  exact h _ (SyntaxTree.node_mem_of_mem_placesBelow hplace)

/-- Whatever came before, the events of the forest add the given statements and labels.  Outside the
selection they may add labels that are jumped to. -/
def Contributes (phase : Nat → Phase) (path : List Node) (f : SyntaxTree) (done : Forest FlowNode)
    (labels : List String) : Prop :=
  ∀ s : Returns, ∃ incoming, (Event.stream phase 0 path f).foldl step s =
    ((s.attach done).noting labels).receiving incoming

section Contributes

variable {phase : Nat → Phase} {path : List Node} {f g : SyntaxTree} {done : Forest FlowNode}
  {labels : List String}

theorem Contributes.behind (h : Contributes phase path f done labels)
    (hg : ∀ n ∈ g.toList, phase n.id ≠ .selected) :
    Contributes phase path (g ++ f) done labels := by
  intro s
  obtain ⟨i, hi⟩ := foldl_stream_unselected hg 0 path s
  obtain ⟨j, hj⟩ := h (s.receiving i)
  refine ⟨j, ?_⟩
  rw [Event.stream_append, List.foldl_append, hi, hj, receiving_attach, receiving_noting,
    receiving_receiving]

theorem Contributes.ahead (h : Contributes phase path f done labels)
    (hg : ∀ n ∈ g.toList, phase n.id ≠ .selected) :
    Contributes phase path (f ++ g) done labels := by
  intro s
  obtain ⟨i, hi⟩ := h s
  obtain ⟨j, hj⟩ := foldl_stream_unselected hg 0 path (((s.attach done).noting labels).receiving i)
  refine ⟨j, ?_⟩
  rw [Event.stream_append, List.foldl_append, hi, hj, receiving_receiving]

theorem Contributes.below {n : Node} {children : SyntaxTree}
    (h : Contributes phase (n :: path) children done labels) (hscope : n.kind.isScope = false)
    (hn : phase n.id ≠ .selected) :
    Contributes phase path (.cons n children .nil) done labels := by
  intro s
  obtain ⟨i, hi⟩ := foldl_unselected (fun e he => (Trace.place_of_mem_entering he).1 ▸ hn) s
  obtain ⟨j, hj⟩ := h (s.receiving i)
  refine ⟨j, ?_⟩
  rw [Event.foldl_stream_cons, hi, Place.nesting]
  simp only [hscope, Bool.false_eq_true, if_false, Int.add_zero]
  rw [hj, foldl_leaving, if_neg (fun hsel => hn hsel.2), receiving_attach, receiving_noting]
  rfl

end Contributes

/-- If the selected forest stands between two forests that are not selected, it alone adds
statements and labels. -/
theorem foldl_stream_chosen {phase : Nat → Phase} (path : List Node)
    {before chosen after : SyntaxTree} (hchosen : ∀ n ∈ chosen.toList, phase n.id = .selected)
    (hbefore : ∀ n ∈ before.toList, phase n.id ≠ .selected)
    (hafter : ∀ n ∈ after.toList, phase n.id ≠ .selected) :
    ∃ done : Forest FlowNode, done.roots = FlowNode.parts path chosen ∧
      Contributes phase path (before ++ chosen ++ after) done (labelsOf path chosen) := by
  obtain ⟨done, hdone, hfold⟩ := foldl_stream_selected path hchosen
  have halone : Contributes phase path chosen done (labelsOf path chosen) := fun s => ⟨_, hfold s⟩
  exact ⟨done, hdone, (halone.behind hbefore).ahead hafter⟩

open SyntaxTree in
theorem foldl_stream_around {phase : Nat → Phase} {path : List Node} {f : SyntaxTree}
    {offset : Int} {id : Nat} {q : Place} {before chosen after : SyntaxTree} (h : Laid offset id f)
    (hq : q ∈ exposed path f) (hscope : q.node.kind.isScope = false)
    (hparts : q.children = before ++ chosen ++ after)
      (hphase : ∀ n ∈ f.toList, phase n.id = .selected ↔
      q.node.id + 1 + before.size ≤ n.id ∧ n.id < q.node.id + 1 + before.size + chosen.size) :
    ∃ done : Forest FlowNode, done.roots = FlowNode.parts q.below chosen ∧
      Contributes phase path f done (labelsOf q.below chosen) := by
  induction f generalizing path offset id with
  | nil => cases hq
  | cons n children rest ihc ihr =>
    obtain ⟨-, hid, -, hc, hr⟩ := h
    have hphasec : ∀ m ∈ children.toList, _ := fun m hm => hphase m (by simp [Forest.toList, hm])
    have hphaser : ∀ m ∈ rest.toList, _ := fun m hm => hphase m (by simp [Forest.toList, hm])
    have hroot := hphase n List.mem_cons_self
    have hqsize := congrArg Forest.size hparts
    simp only [Forest.size_append] at hqsize
    -- what the children add is all, if the place is in the first tree
    have hfirst : id ≤ q.node.id → q.node.id + q.children.size < id + 1 + children.size →
        n.kind.isScope = false →
        ∀ {done}, Contributes phase (n :: path) children done (labelsOf q.below chosen) →
          Contributes phase path (.cons n children rest) done (labelsOf q.below chosen) := by
      intro hle hlt hnscope done hchildren
      refine (hchildren.below hnscope fun hsel => ?_).ahead (g := rest) fun m hm hsel => ?_
      · have := hroot.mp hsel
        omega
      · have := (hphaser m hm).mp hsel
        have := (laid_bounds hr hm).2.2.2.1
        omega
    simp only [exposed, List.mem_cons, List.mem_append] at hq
    rcases hq with rfl | hq | hq
    · subst hparts
      simp only at hqsize hphasec hroot hfirst
      have hchosen : ∀ m ∈ chosen.toList, phase m.id = .selected := by
        intro m hm
        have := laid_bounds (laid_append (laid_append hc).1).2 hm
        exact (hphasec m (by simp [hm])).mpr (by omega)
      have hbefore : ∀ m ∈ before.toList, phase m.id ≠ .selected := by
        intro m hm hsel
        have := laid_bounds (laid_append (laid_append hc).1).1 hm
        have := ((hphasec m (by simp [hm])).mp hsel).1
        omega
      have hafter : ∀ m ∈ after.toList, phase m.id ≠ .selected := by
        intro m hm hsel
        have := laid_bounds (laid_append hc).2 hm
        have := ((hphasec m (by simp [hm])).mp hsel).2
        simp only [Forest.size_append] at *
        omega
      obtain ⟨done, hdone, hchildren⟩ := foldl_stream_chosen (n :: path) hchosen hbefore hafter
      exact ⟨done, hdone, hfirst (by omega) (by omega) hscope hchildren⟩
    · cases hnscope : n.kind.isScope with
      | true => simp [hnscope] at hq
      | false =>
        rw [hnscope] at hq
        obtain ⟨done, hdone, hchildren⟩ := ihc hc hq hphasec
        have hin := exposed_subset _ _ q hq
        have hbounds := laid_bounds hc (node_mem_of_mem_placesBelow hin)
        exact ⟨done, hdone, hfirst (by omega) (inner_size hc hin) hnscope hchildren⟩
    · obtain ⟨done, hdone, hrest⟩ := ihr hr hq hphaser
      refine ⟨done, hdone, hrest.behind (g := .cons n children .nil) fun m hm hsel => ?_⟩
      have hbeyond := (laid_bounds hr
        (node_mem_of_mem_placesBelow (exposed_subset _ _ q hq))).2.2.2.1
      simp only [Forest.toList, List.append_nil, List.mem_cons] at hm
      rcases hm with rfl | hm
      · have := hroot.mp hsel
        omega
      · have := (hphasec m hm).mp hsel
        have := laid_bounds hc hm
        omega

end Returns

end Extraction
