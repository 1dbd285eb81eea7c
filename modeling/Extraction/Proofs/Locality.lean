import Extraction.Proofs.Classification
import Extraction.Proofs.LeavingJumps
import Extraction.Proofs.Retitling
import Extraction.Proofs.Totality

/-!
# Locality of verdicts

The verdict on a selection does not depend on the labels and types outside the innermost function
around it, but for the labels of jumps in the functions further out: such a jump is taken to enter
the selection if a selected label bears its name.
-/

namespace Extraction

namespace Retitling

variable (r : Retitling)

def preceding (a : PrecedingAccess) : PrecedingAccess :=
  { a with place := r.place a.place }

def locals (s : Locals) : Locals :=
  { s with preceding := s.preceding.map r.preceding, loops := s.loops.map r.node }

theorem enclosingLoops_place (p : Place) :
    Locals.enclosingLoops (r.place p) = (Locals.enclosingLoops p).map r.node := by
  rw [Locals.enclosingLoops, place, List.takeWhile_map, List.filter_map]
  rfl

theorem repeats_place (loop : Place) (a : PrecedingAccess) :
    Locals.repeats (r.place loop) (r.preceding a) = Locals.repeats loop a := by
  simp only [Locals.repeats, preceding, child?_place, Option.any_map, isWithin_place]
  rfl

theorem note_locals (s : Locals) (b : Binding) : (r.locals s).note b = r.locals (s.note b) := by
  unfold Locals.note
  change (if b ∈ s.vars then _ else _) = _
  split <;> rfl

theorem replay_locals (acc : Locals × List Binding) (a : PrecedingAccess) :
    Locals.replay (acc.map r.locals id) (r.preceding a) =
      (Locals.replay acc a).map r.locals id := by
  obtain ⟨s, killed⟩ := acc
  have hnote : (r.locals s).note (r.preceding a).binding = r.locals (s.note a.binding) :=
    r.note_locals s a.binding
  have hmode : (r.preceding a).mode = a.mode := rfl
  simp only [Locals.replay, Prod.map, hnote, hmode]
  cases a.mode with
  | write => rfl
  | read =>
    change (if a.binding ∈ killed then _ else _) = _
    by_cases hkilled : a.binding ∈ killed
    · simp only [hkilled, if_true]
    · simp only [hkilled, if_false]
      rfl

theorem reenter_locals (s : Locals) (loop : Place) :
    (r.locals s).reenter (r.place loop) = r.locals (s.reenter loop) := by
  have hrepeats : Locals.repeats (r.place loop) ∘ r.preceding = Locals.repeats loop :=
    funext (r.repeats_place loop)
  have hfilter : (r.locals s).preceding.filter (Locals.repeats (r.place loop)) =
      (s.preceding.filter (Locals.repeats loop)).map r.preceding := by
    rw [locals, List.filter_map, hrepeats]
  have hfold : ∀ (as : List PrecedingAccess) (acc : Locals × List Binding),
      (as.map r.preceding).foldl Locals.replay (acc.map r.locals id) =
        (as.foldl Locals.replay acc).map r.locals id := by
    intro as acc
    rw [List.foldl_map]
    exact List.foldl_hom (Prod.map r.locals id) r.replay_locals
  rw [Locals.reenter, Locals.reenter, hfilter]
  exact congrArg Prod.fst (hfold _ (s, s.followingWrites))

theorem count_locals (s : Locals) (phase : Phase) (a : Access) (p : Place) :
    (r.locals s).count phase a (r.place p) = r.locals (s.count phase a p) := by
  unfold Locals.count
  cases phase with
  | undefined => rfl
  | before => simp [locals, preceding]
  | selected =>
    simp only [note_locals]
    cases a.mode <;> rfl
  | after =>
    simp only [note_locals]
    cases a.mode with
    | write => rfl
    | read =>
      simp only
      rw [apply_ite r.locals]
      rfl

theorem step_locals (s : Locals) (e : Event) :
    Locals.step (r.locals s) (r.event e) = r.locals (Locals.step s e) := by
  have hkind : (r.event e).kind = e.kind := rfl
  unfold Locals.step
  rw [hkind]
  cases e.kind with
  | enter =>
    rw [apply_ite r.locals]
    refine if_congr Iff.rfl ?_ rfl
    simp only [locals, event, enclosingLoops_place]
  | leave =>
    have hloops : (r.locals s).loops = s.loops.map r.node := rfl
    rw [hloops]
    cases s.loops with
    | nil => rfl
    | cons loop outer =>
      simp only [List.map_cons]
      rw [apply_ite r.locals]
      refine if_congr Iff.rfl ?_ rfl
      rw [event, reenter_locals]
      rfl
  | name access => exact r.count_locals s e.phase access e.place
  | _ => rfl

theorem locals_ofEvents (es : List Event) :
    Locals.ofEvents (es.map r.event) = r.locals (Locals.ofEvents es) := by
  rw [Locals.ofEvents, Locals.ofEvents, List.foldl_map]
  change es.foldl (fun s e => Locals.step s (r.event e)) (r.locals {}) = _
  exact List.foldl_hom r.locals r.step_locals

def flowNode (g : FlowNode) : FlowNode :=
  ⟨r.place g.place, g.flow⟩

def Fixes (p : Place) : Prop :=
  r.label p.node.id = p.node.label ∧ Flow.labelOf (r.place p) = Flow.labelOf p

variable {p : Place} (parts : List FlowNode)

theorem inRole?_flowNode (role : Role) :
    FlowNode.inRole? role (parts.map r.flowNode) =
      (FlowNode.inRole? role parts).map r.flowNode := by
  rw [FlowNode.inRole?, List.find?_map]
  rfl

theorem flows_flowNode : (parts.map r.flowNode).map (·.flow) = parts.map (·.flow) := by
  rw [List.map_map]
  rfl

theorem filter_flowNode (keep : Node → Bool) (hkeep : ∀ n, keep (r.node n) = keep n) :
    (parts.map r.flowNode).filter
      (fun g => keep g.node) = (parts.filter fun g => keep g.node).map r.flowNode := by
  rw [List.filter_map]
  exact congrArg (List.map r.flowNode) (List.filter_congr fun g _ => hkeep g.node)

theorem ofConditional_flowNode :
    Flow.ofConditional (parts.map r.flowNode) = Flow.ofConditional parts := by
  unfold Flow.ofConditional
  rw [inRole?_flowNode, inRole?_flowNode]
  cases FlowNode.inRole? .thenBranch parts <;> cases FlowNode.inRole? .elseBranch parts <;> rfl

theorem ofLoop_flowNode (h : Flow.labelOf (r.place p) = Flow.labelOf p) :
    Flow.ofLoop (r.place p) (parts.map r.flowNode) = Flow.ofLoop p parts := by
  have htargets : Flow.loopTargets (r.place p) = Flow.loopTargets p := by
    rw [Flow.loopTargets, Flow.loopTargets, h]
  have hruns : Flow.runsBody (r.place p) = Flow.runsBody p := by
    rw [Flow.runsBody, child?_place, Option.isNone_map]
    rfl
  have hbody : ((FlowNode.inRole? .body (parts.map r.flowNode)).map (·.flow)).getD {} =
      ((FlowNode.inRole? .body parts).map (·.flow)).getD {} := by
    rw [inRole?_flowNode, Option.map_map]
    rfl
  simp only [Flow.ofLoop, htargets, hruns, hbody]

theorem ofSwitch_flowNode (h : Flow.labelOf (r.place p) = Flow.labelOf p) :
    Flow.ofSwitch (r.place p) (parts.map r.flowNode) = Flow.ofSwitch p parts := by
  have htargets : Flow.switchTargets (r.place p) = Flow.switchTargets p := by
    rw [Flow.switchTargets, Flow.switchTargets, h]
  have hcases := r.filter_flowNode parts (fun n => decide (n.kind = .caseClause)) fun n => rfl
  simp only [Flow.ofSwitch, htargets, hcases, flows_flowNode, List.any_map]
  rfl

theorem ofTry_flowNode : Flow.ofTry (parts.map r.flowNode) = Flow.ofTry parts := by
  have hfinals := r.filter_flowNode parts (fun n => n.kind == .finallyClause) fun n => rfl
  have hothers := r.filter_flowNode parts
    (fun n => !(n.kind == .finallyClause) && (n.role == .body || n.kind == .catchClause)) fun n =>
      rfl
  simp only [Flow.ofTry, hfinals, hothers, flows_flowNode, List.getLast?_map]
  cases (parts.filter fun g => g.node.kind == .finallyClause).getLast? <;> rfl

/-- The flow of a statement depends on no label but its own and the one it bears. -/
theorem ofStatement_flowNode (h : r.Fixes p) :
    Flow.ofStatement (r.place p) (parts.map r.flowNode) = Flow.ofStatement p parts := by
  have hkind : (r.place p).node.kind = p.node.kind := rfl
  have hlabel : (r.place p).node.label = p.node.label := h.1
  unfold Flow.ofStatement
  simp only [hkind, hlabel, flows_flowNode, inRole?_flowNode, ofConditional_flowNode,
    r.ofLoop_flowNode parts h.2, r.ofSwitch_flowNode parts h.2, ofTry_flowNode, Option.map_map]
  rfl

def returns (s : Returns) (incoming : List String) : Returns :=
  { s with
    stack := s.stack.map fun x => (r.place x.1, x.2.map r.flowNode)
    roots := s.roots.map r.flowNode
    incoming }

theorem map_append_flowNode (f g : Forest FlowNode) :
    (f ++ g).map r.flowNode = f.map r.flowNode ++ g.map r.flowNode := by
  induction f with
  | nil => rfl
  | cons n children rest _ ihr =>
    rw [Forest.cons_append, Forest.map, Forest.map, Forest.cons_append, ihr]

theorem close_returns {s : Returns} (h : ∀ x ∈ s.stack, r.Fixes x.1) (incoming : List String) :
    (r.returns s incoming).close = r.returns s.close incoming := by
  obtain ⟨stack, roots, labels, known⟩ := s
  cases stack with
  | nil => rfl
  | cons x outer =>
    obtain ⟨p, parts⟩ := x
    have hflow := r.ofStatement_flowNode parts.roots (h _ List.mem_cons_self)
    rw [← SyntaxTree.roots_map] at hflow
    cases outer with
    | nil => simp [returns, Returns.close, hflow, map_append_flowNode, Forest.map, flowNode]
    | cons y rest => simp [returns, Returns.close, hflow, map_append_flowNode, Forest.map, flowNode]

end Retitling

namespace Returns

variable {r : Retitling} {s s' : Returns} {e : Event}

theorem stack_close {P : Place → Prop} (h : ∀ x ∈ s.stack, P x.1) : ∀ x ∈ s.close.stack, P x.1 := by
  obtain ⟨stack, roots, labels, known⟩ := s
  cases stack with
  | nil => exact h
  | cons x outer =>
    cases outer with
    | nil => exact List.forall_mem_nil _
    | cons y rest =>
      have hrest := (List.forall_mem_cons.mp h).2
      exact List.forall_mem_cons.mpr (List.forall_mem_cons.mp hrest)

/-- The statements that have been entered keep their labels, and the states differ in the expected
labels only. -/
structure Mirrors (r : Retitling) (s s' : Returns) : Prop where
  stack : ∀ x ∈ s.stack, r.Fixes x.1
  eq : s' = r.returns s s'.incoming

theorem Mirrors.step (h : Mirrors r s s') (he : e.phase = .selected → r.Fixes e.place) :
    Mirrors r (s.step e) (s'.step (r.event e)) := by
  obtain ⟨hstack, heq⟩ := h
  have hkind : (r.event e).kind = e.kind := rfl
  have hphase : (r.event e).phase = e.phase := rfl
  have hnode : (r.event e).node.kind = e.node.kind := rfl
  have hnested : (r.event e).nested = e.nested := rfl
  unfold Returns.step
  rw [hkind, hphase, hnode, hnested]
  split
  · exact ⟨hstack, heq⟩
  · cases e.kind with
    | enter =>
      simp only
      split
      next hsel =>
        have hfixes := he hsel
        have hlabel : (r.event e).node.label = e.node.label := hfixes.1
        refine ⟨List.forall_mem_cons.mpr ⟨hfixes, hstack⟩, ?_⟩
        rw [hlabel, heq]
        rfl
      next =>
        split
        · exact ⟨hstack, by rw [heq]; rfl⟩
        · exact ⟨hstack, heq⟩
    | leave =>
      simp only
      split
      · refine ⟨stack_close hstack, ?_⟩
        rw [heq, r.close_returns hstack]
        rfl
      · exact ⟨hstack, heq⟩
    | _ => exact ⟨hstack, heq⟩

theorem filter_insert (keep : String → Bool) (ls : List String) (l : String) :
    (ls.insert l).filter keep = if keep l then (ls.filter keep).insert l else ls.filter keep := by
  by_cases hl : l ∈ ls <;> cases hkeep : keep l <;> simp [List.insert, hl, hkeep]

/-- The expected labels among `known` stay the same if a jump outside the selection goes to another
label only where neither label is known. -/
theorem filter_incoming_step {known : List String} (he : e.Arrives →
      r.label e.node.id = e.node.label ∨ e.node.label ∉ known ∧ r.label e.node.id ∉ known)
    (h : s'.incoming.filter (· ∈ known) = s.incoming.filter (· ∈ known)) :
    (s'.step (r.event e)).incoming.filter (· ∈ known) = (s.step e).incoming.filter (· ∈ known) := by
  have hstep : (s'.step (r.event e)).incoming =
      if e.Arrives then s'.incoming.insert (r.label e.node.id)
      else s'.incoming := incoming_step s' (r.event e)
  rw [hstep, incoming_step]
  by_cases harrives : e.Arrives
  · rw [if_pos harrives, if_pos harrives, filter_insert, filter_insert, h]
    rcases he harrives with heq | ⟨hold, hnew⟩
    · rw [heq]
    · rw [if_neg (by simpa using hnew), if_neg (by simpa using hold)]
  · rw [if_neg harrives, if_neg harrives, h]

theorem Mirrors.flow_eq (h : Mirrors r s s') : s'.flow.mode = s.flow.mode ∧
    (s'.incoming.filter (· ∈ s.labels) = s.incoming.filter (· ∈ s.labels) → s'.flow = s.flow) := by
  have hroots : s'.roots.roots.map (·.flow) = s.roots.roots.map (·.flow) := by
    rw [h.eq]
    simp only [Retitling.returns, SyntaxTree.roots_map, List.map_map]
    rfl
  have hlabels : s'.labels = s.labels := by
    rw [h.eq]
    rfl
  constructor
  · rw [Returns.flow, Returns.flow, hroots, hlabels]
  · intro hincoming
    rw [Returns.flow, Returns.flow, hroots, hlabels, hincoming]

end Returns

theorem Raises.step_event {r : Retitling} {e : Event}
    (h : e.phase = .selected → r.node e.node = e.node) (s : Raises) :
    s.step (r.event e) = s.step e := by
  by_cases hsel : e.phase = .selected
  · have hnode : (r.event e).node = e.node := h hsel
    have hparent : (r.event e).place.parent?.map (·.id) = e.place.parent?.map (·.id) :=
      r.parentId_place e.place
    have hkind : (r.event e).kind = e.kind := rfl
    have hphase : (r.event e).phase = e.phase := rfl
    have hnested : (r.event e).nested = e.nested := rfl
    simp only [Raises.step, hnode, hparent, hkind, hphase, hnested]
  · have hphase : (r.event e).phase ≠ .selected := hsel
    simp [Raises.step, hsel, hphase]

theorem Event.foldl_steady {σ : Type} {step : σ → Event → σ} {inside : Nat → Bool} {es : List Event}
    (h : ∀ e ∈ es, e.kind = .call → inside e.node.id = false → ∀ s, step s e = s) (s : σ) :
    es.foldl step s = (es.filter (steady inside)).foldl step s := by
  induction es generalizing s with
  | nil => rfl
  | cons e es ih =>
    have hrest := ih fun e he => h e (List.mem_cons_of_mem _ he)
    cases hk : steady inside e with
    | true => rw [List.filter_cons_of_pos hk, List.foldl_cons, List.foldl_cons, hrest]
    | false =>
      obtain ⟨hcall, hout⟩ : e.kind = .call ∧ inside e.node.id = false := by simpa [steady] using hk
      rw [List.filter_cons_of_neg (by simp [hk]), List.foldl_cons,
        h e List.mem_cons_self hcall hout, hrest]

namespace Retitling

variable (r : Retitling) (s : Trace) (events : Array Event) (sel : Extent)

theorem validated_trace (boundaries : Boundaries) :
    (r.trace s events).validated sel boundaries = s.validated sel boundaries := by
  have hreturns : (r.trace s events).returnDiagnostics = s.returnDiagnostics := by
    unfold Trace.returnDiagnostics
    have htop : (r.trace s events).topLevel = s.topLevel.map r.node := rfl
    rw [htop]
    rcases s.topLevel with _ | ⟨n, _ | ⟨k, rest⟩⟩ <;> rfl
  have hlast : (r.trace s events).last.map (·.id) = s.last.map (·.id) := by
    simp only [trace, Option.map_map]
    rfl
  have hmethod : (r.trace s events).method = s.method.map r.node := rfl
  have hfirst : (r.trace s events).first = s.first.map r.node := rfl
  unfold Trace.validated
  rw [hreturns, hlast, hmethod, hfirst]
  cases s.method <;> cases s.first <;> rfl

theorem isExpression_trace : (r.trace s events).isExpression = s.isExpression := by
  unfold Trace.isExpression
  have htop : (r.trace s events).topLevel = s.topLevel.map r.node := rfl
  rw [htop]
  rcases s.topLevel with _ | ⟨n, _ | ⟨k, rest⟩⟩ <;> rfl

theorem ids_trace : (r.trace s events).method.map (·.id) = s.method.map (·.id) ∧
    (r.trace s events).topLevel.map (·.id) = s.topLevel.map (·.id) := by
  simp only [trace, Option.map_map, List.map_map]
  exact ⟨rfl, rfl⟩

theorem verdict_trace_of_none {ds : List Diagnostic}
    (hds : (ds.any fun d => d.kind = .noEnclosingMethod) = true) :
    (r.trace s events).verdict sel ds = s.verdict sel ds := by
  obtain ⟨hmethod, hselected⟩ := r.ids_trace s events
  rw [Trace.verdict, Trace.verdict, if_pos hds, if_pos hds, hmethod, hselected]

variable {s events} in
/-- A verdict depends on the labels and types through the flow only, if the variables and what is
raised do not. -/
theorem verdict_trace (hlocals : Locals.ofEvents events.toList =
    r.locals (Locals.ofEvents s.events.toList))
    (hraises : Raises.ofEvents events.toList = Raises.ofEvents s.events.toList)
    (hmode : (Returns.ofEvents events.toList).flow.mode =
    (Returns.ofEvents s.events.toList).flow.mode) (ds : List Diagnostic) :
    ((r.trace s events).verdict sel ds = { s.verdict sel ds with
        diagnostics := ((r.trace s events).verdict sel ds).diagnostics
        flow := ⟨(s.verdict sel ds).flow.mode,
          ((r.trace s events).verdict sel ds).flow.openBranches⟩ }) ∧
      ((Returns.ofEvents events.toList).flow = (Returns.ofEvents s.events.toList).flow →
        (r.trace s events).verdict sel ds = s.verdict sel ds) := by
  obtain ⟨hmethod, hselected⟩ := r.ids_trace s events
  have hvoid : ((r.trace s events).method.any fun m => m.void) = s.method.any fun m => m.void := by
    simp only [trace, Option.any_map]
    rfl
  have hevents : (r.trace s events).events = events := rfl
  simp only [Trace.verdict, hmethod, hvoid, hselected, isExpression_trace, hevents,
    hlocals, hraises]
  split
  · exact ⟨rfl, fun _ => rfl⟩
  · generalize (Returns.ofEvents events.toList).flow = flow' at hmode ⊢
    generalize (Returns.ofEvents s.events.toList).flow = flow at hmode ⊢
    obtain ⟨mode, open'⟩ := flow'
    obtain rfl : mode = flow.mode := hmode
    refine ⟨rfl, fun hflow => ?_⟩
    rw [hflow]
    rfl

end Retitling

namespace Trace

open SyntaxTree

variable {sel : Extent} {t : SyntaxTree} {a b : Nat} {m : Place} {s : Trace} {r : Retitling}

theorem Located.fixes (hl : Located sel m a b s)
    (hr : ∀ n ∈ m.node :: m.children.toList, r.node n = n) {e : Event} (he : e ∈ s.events.toList)
    (hsel : e.phase = .selected) :
    e.node ∈ m.children.toList ∧ r.Fixes e.place := by
  have hlate : ¬ e.phase.Early := fun h => h.ne_selected hsel
  have hin : e.place ∈ m.inner := (Event.place_of_mem_stream (hl.late_mem_stream he hlate)).2
  have hnode : e.node ∈ m.children.toList := node_mem_of_mem_placesBelow hin
  have hparent : e.place.parent?.map r.node = e.place.parent? := by
    rcases parent_mem hin with hroot | ⟨q, hq, hbelow, -⟩
    · rw [Place.parent?, hroot]
      exact congrArg some (hr m.node List.mem_cons_self)
    · rw [Place.parent?, hbelow]
      exact congrArg some (hr q.node (List.mem_cons_of_mem _ (node_mem_of_mem_placesBelow hq)))
  refine ⟨hnode, congrArg (fun n : Node => n.label) (hr _ (List.mem_cons_of_mem _ hnode)), ?_⟩
  rw [Flow.labelOf, r.parent?_place, hparent]
  rfl

end Trace

namespace Event.Mirrors

variable {r : Retitling} {inside : Nat → Bool} {es es' : List Event}

theorem locals_eq (h : Mirrors r inside es es') :
    Locals.ofEvents es' = r.locals (Locals.ofEvents es) := by
  have hskip : ∀ es : List Event, ∀ e ∈ es, e.kind = .call → inside e.node.id = false →
      ∀ s, Locals.step s e = s := by
    intro es e _ hk _ s
    rw [Locals.step, hk]
  have hlocals := r.locals_ofEvents (es.filter (Event.steady inside))
  rw [Locals.ofEvents, Locals.ofEvents, ← h.steady, ← foldl_steady (hskip es'),
    ← foldl_steady (hskip es)] at hlocals
  exact hlocals

theorem returns_mirrors (h : Mirrors r inside es es')
    (hfixes : ∀ e ∈ es, e.phase = .selected → r.Fixes e.place) :
    Returns.Mirrors r (Returns.ofEvents es) (Returns.ofEvents es') ∧
      ∀ known : List String, (∀ e ∈ es, e.Arrives →
        r.label e.node.id = e.node.label ∨ e.node.label ∉ known ∧ r.label e.node.id ∉ known) →
          (Returns.ofEvents es').incoming.filter (· ∈ known) = (Returns.ofEvents es).incoming.filter
          (· ∈ known) := by
  have hskip : ∀ es : List Event, ∀ e ∈ es, e.kind = .call → inside e.node.id = false →
      ∀ s, Returns.step s e = s := by
    intro es e _ hk _ s
    exact Returns.step_other (by simp [hk]) (by simp [hk]) s
  have hmem : ∀ e ∈ es.filter (Event.steady inside), e ∈ es := fun e he => (List.mem_filter.mp he).1
  rw [Returns.ofEvents, Returns.ofEvents, foldl_steady (hskip es'), foldl_steady (hskip es),
    h.steady, List.foldl_map]
  refine ⟨?_, fun known hgoto => ?_⟩
  · exact List.foldl_rel ⟨List.forall_mem_nil _, rfl⟩ fun e he s s' hs =>
      hs.step (hfixes e (hmem e he))
  · let Same (s' s : Returns) : Prop :=
      s'.incoming.filter (· ∈ known) = s.incoming.filter (· ∈ known)
    refine List.foldl_rel (r := Same) rfl fun e he s' s hs => ?_
    exact Returns.filter_incoming_step (hgoto e (hmem e he)) hs

theorem raises_eq (h : Mirrors r inside es es')
    (hin : ∀ e ∈ es, e.phase = .selected → inside e.node.id = true ∧ r.node e.node = e.node) :
    Raises.ofEvents es' = Raises.ofEvents es := by
  have hskip : ∀ e ∈ es, e.kind = .call → inside e.node.id = false → ∀ s, Raises.step s e = s := by
    intro e he _ hout s
    have hphase : e.phase ≠ .selected := fun hsel => Bool.eq_false_iff.mp hout (hin e he hsel).1
    simp [Raises.step, hphase]
  have hskip' : ∀ e' ∈ es', e'.kind = .call → inside e'.node.id = false →
      ∀ s, Raises.step s e' = s := by
    intro e' he' hk hout s
    obtain ⟨e, he, -, hphase, hplace⟩ := h.raised e' he' hk
    have hid : e'.node.id = e.node.id := by rw [Event.node, ← hplace]; rfl
    have hphase' : e'.phase ≠ .selected := by
      intro hsel
      rw [hid, (hin e he (hphase.trans hsel)).1] at hout
      cases hout
    simp [Raises.step, hphase']
  rw [Raises.ofEvents, Raises.ofEvents, foldl_steady hskip', foldl_steady hskip, h.steady,
    List.foldl_map]
  refine List.foldl_rel (r := Eq) rfl fun e he s s' hs => ?_
  rw [hs]
  exact Raises.step_event (fun hsel => (hin e (List.mem_filter.mp he).1 hsel).2) s'

end Event.Mirrors

def Node.bare (n : Node) : Node :=
  { n with label := "", types := [] }

namespace SyntaxTree

/-- The innermost function whose body strictly encloses the selection. -/
def Innermost (t : SyntaxTree) (sel : Extent) (m : Place) : Prop :=
  m ∈ t.places ∧ Trace.enclosesSelection sel m = true ∧
    ∀ p ∈ t.places, Trace.enclosesSelection sel p = true → p = m ∨ m ∈ p.inner

instance (t : SyntaxTree) (sel : Extent) (m : Place) : Decidable (t.Innermost sel m) :=
  inferInstanceAs (Decidable (_ ∧ _ ∧ _))

/-- The trees differ in labels and types only, and not in those of the innermost function around the
selection. -/
structure AgreesWithin (t t' : SyntaxTree) (sel : Extent) : Prop where
  shape : t.map Node.bare = t'.map Node.bare
  core : ∀ m, t.Innermost sel m → ∀ n ∈ m.node :: m.children.toList, n ∈ t'.toList

/-- A jump that has another label in the other tree goes to no label of the method in either of
them. -/
def Spares (t t' : SyntaxTree) (m : Place) : Prop :=
  ∀ n ∈ t.toList, ∀ n' ∈ t'.toList, n.id = n'.id → n.kind = .gotoStmt → n.label ≠ n'.label →
    ∀ l ∈ m.children.toList, l.kind = .labeled → l.label ≠ n.label ∧ l.label ≠ n'.label

instance (t t' : SyntaxTree) (m : Place) : Decidable (t.Spares t' m) :=
  inferInstanceAs (Decidable (∀ n ∈ t.toList, _))

variable {t t' : SyntaxTree} {offset : Int} {id : Nat}

theorem node_unique (h : Laid offset id t) {n k : Node} (hn : n ∈ t.toList) (hk : k ∈ t.toList)
    (hid : n.id = k.id) :
    n = k := by
  obtain ⟨p, hp, rfl⟩ := exists_place_of_mem [] hn
  obtain ⟨q, hq, rfl⟩ := exists_place_of_mem [] hk
  rw [place_unique h hp hq hid]

theorem subtree_subset {m : Place} (hm : m ∈ t.places) :
    ∀ n ∈ m.node :: m.children.toList, n ∈ t.toList := by
  intro n hn
  rcases List.mem_cons.mp hn with rfl | hn
  · exact node_mem_of_mem_placesBelow hm
  · obtain ⟨p, hp, rfl⟩ := exists_place_of_mem m.below hn
    exact node_mem_of_mem_placesBelow (inner_subset hm p hp)

def titles (t : SyntaxTree) : Retitling where
  label id := ((t.toList.find? fun n => n.id == id).map (·.label)).getD ""
  types id := ((t.toList.find? fun n => n.id == id).map (·.types)).getD []

theorem node_titles (h : Laid offset id t) {n k : Node} (hk : k ∈ t.toList)
    (hbare : n.bare = k.bare) :
    t.titles.node n = k := by
  have hfind : (t.toList.find? fun n => n.id == k.id) = some k := by
    cases hfound : t.toList.find? fun n => n.id == k.id with
    | none => exact absurd (beq_self_eq_true _) (List.find?_eq_none.mp hfound k hk)
    | some l =>
      have hl := List.find?_some hfound
      rw [node_unique h (List.mem_of_find?_eq_some hfound) hk (beq_iff_eq.mp hl)]
  have hlabel : t.titles.label k.id = k.label := by simp [titles, hfind]
  have htypes : t.titles.types k.id = k.types := by simp [titles, hfind]
  calc t.titles.node n = t.titles.node n.bare := rfl
    _ = t.titles.node k := by rw [hbare]; rfl
    _ = k := by rw [Retitling.node, hlabel, htypes]

theorem map_titles (h : Laid offset id t') (hshape : t.map Node.bare = t'.map Node.bare) :
    t.map t'.titles.node = t' := by
  suffices hsub : ∀ f g : SyntaxTree, f.map Node.bare = g.map Node.bare →
      (∀ n ∈ g.toList, n ∈ t'.toList) →
      f.map t'.titles.node = g from hsub t t' hshape fun _ hn => hn
  intro f
  induction f with
  | nil =>
    intro g hfg _
    cases g with
    | nil => rfl
    | cons k children rest => cases hfg
  | cons n children rest ihc ihr =>
    intro g hfg hmem
    cases g with
    | nil => cases hfg
    | cons k children' rest' =>
      obtain ⟨hroot, hchildren, hrest⟩ := Forest.cons.inj hfg
      simp only [Forest.toList, List.mem_cons, List.mem_append] at hmem
      rw [Forest.map, node_titles h (hmem k (Or.inl rfl)) hroot,
        ihc children' hchildren fun m hm => hmem m (Or.inr (Or.inl hm)),
        ihr rest' hrest fun m hm => hmem m (Or.inr (Or.inr hm))]

end SyntaxTree

namespace Trace

open SyntaxTree

variable {sel : Extent} {t : SyntaxTree} {a b : Nat} {m : Place} {s : Trace} {r : Retitling}

theorem Located.flow_eq (h : Laid 0 0 t) (hm : m ∈ t.places) (hl : Located sel m a b s)
    (hground : Grounded sel [] t s) {inside : Nat → Bool} {events : Array Event}
    (hevents : Event.Mirrors r inside s.events.toList events.toList)
    (hfix : ∀ n ∈ m.node :: m.children.toList, r.node n = n) :
    (Returns.ofEvents events.toList).flow.mode = (Returns.ofEvents s.events.toList).flow.mode ∧
      (t.Spares (t.map r.node) m →
        (Returns.ofEvents events.toList).flow = (Returns.ofEvents s.events.toList).flow) := by
  obtain ⟨hmirrors, hincoming⟩ := hevents.returns_mirrors fun e he hsel => (hl.fixes hfix he hsel).2
  refine ⟨hmirrors.flow_eq.1,
    fun hspares => hmirrors.flow_eq.2 (hincoming _ fun e he harrives => ?_)⟩
  obtain ⟨-, -, -, hgoto⟩ := harrives
  refine or_iff_not_imp_left.mpr fun hne => ?_
  have hnode : e.node ∈ t.toList := node_mem_of_mem_placesBelow (hground.events e he)
  have hnode' : r.node e.node ∈ (t.map r.node).toList := by
    rw [Forest.toList_map]
    exact List.mem_map_of_mem hnode
  have hlabels := hspares e.node hnode (r.node e.node) hnode' rfl hgoto (Ne.symm hne)
  have hdeclared : ∀ label ∈ (Returns.ofEvents s.events.toList).labels,
      ∃ l ∈ m.children.toList, l.kind = .labeled ∧ l.label = label := by
    intro label hlabel
    obtain ⟨p, hp, -, hkind, hname⟩ :=
      Returns.mem_labelsIn.mp (((hl.returns_selected h hm).2 label).mp hlabel)
    exact ⟨p.node, node_mem_of_mem_placesBelow (exposed_subset _ _ p hp), hkind, hname⟩
  constructor
  · intro hold
    obtain ⟨l, hin, hkind, hname⟩ := hdeclared _ hold
    exact (hlabels l hin hkind).1 hname
  · intro hnew
    obtain ⟨l, hin, hkind, hname⟩ := hdeclared _ hnew
    exact (hlabels l hin hkind).2 hname

theorem analyze_map {boundaries : Boundaries} {events : Array Event} {ds : List Diagnostic}
    (heq : ofSelection (t.map r.node) sel = r.trace (ofSelection t sel) events)
    (hfault : (ofSelection t sel).fault = none)
    (hds : (ofSelection t sel).validated sel boundaries = .ok ds) :
    analyze (t.map r.node) sel boundaries =
      .ok ((r.trace (ofSelection t sel) events).verdict sel ds) := by
  rw [← heq]
  apply analyze_of_validated
  · rw [heq]
    exact hfault
  · rw [heq, r.validated_trace, hds]

end Trace

open SyntaxTree Trace

/-- If two trees differ in labels and types outside the innermost function around the selection
only, the verdicts differ in the open branches and the diagnostics only, and not at all if the
labels of the function are spared. -/
theorem verdict_local (s s' : Sketch) (sel : Extent) (boundaries : Boundaries)
    (hagrees : s.layout.AgreesWithin s'.layout sel) :
    ∃ w w', analyze s.layout sel boundaries = .ok w ∧ analyze s'.layout sel boundaries = .ok w' ∧
      w' = { w with diagnostics := w'.diagnostics, flow := ⟨w.flow.mode, w'.flow.openBranches⟩ } ∧
      ((∀ m, s.layout.Innermost sel m → s.layout.Spares s'.layout m) → w' = w) := by
  have h : Laid 0 0 s.layout := laid_layout s
  have h' : Laid 0 0 s'.layout := laid_layout s'
  have hranges : ∀ n ∈ s.layout.toList, n.start ≤ n.stop := by
    intro n hn
    obtain ⟨p, hp, rfl⟩ := exists_place_of_mem [] hn
    exact start_le_stop h hp
  have hground : Grounded sel [] s.layout (ofSelection s.layout sel) :=
    grounded_walk hranges grounded_initial
  obtain ⟨ds, hds⟩ := hground.exists_validated hranges boundaries
  have hw : analyze s.layout sel boundaries = .ok ((ofSelection s.layout sel).verdict sel ds) :=
    analyze_of_validated hground.fault hds
  have hmap := map_titles h' hagrees.shape
  generalize hr : s'.layout.titles = r at hmap
  by_cases hboth : Enclosed sel s.layout ∧ ∃ n ∈ s.layout.toList, sel.Covers n.start n.stop
  · obtain ⟨m, a, b, hm, hchain, hl⟩ := exists_located (t := s.layout) h hboth.1 hboth.2
    have hinnermost : s.layout.Innermost sel m := ⟨hm, hl.encloses, hchain⟩
    have hfix : ∀ n ∈ m.node :: m.children.toList, r.node n = n := by
      intro n hn
      rw [← hr]
      exact node_titles h' (hagrees.core m hinnermost n hn) rfl
    let inside (id : Nat) : Bool := (m.node :: m.children.toList).any fun n => n.id == id
    have hinside : ∀ n ∈ m.children.toList, inside n.id = true := fun n hn =>
      List.any_eq_true.mpr ⟨n, List.mem_cons_of_mem _ hn, beq_self_eq_true _⟩
    have hsteady : ∀ n ∈ s.layout.toList, inside n.id = true → r.node n = n := by
      intro n hn hin
      obtain ⟨k, hk, hid⟩ := List.any_eq_true.mp hin
      rw [node_unique h hn (subtree_subset hm k hk) (beq_iff_eq.mp hid).symm]
      exact hfix k hk
    obtain ⟨events, heq, hevents⟩ := mirrors_ofSelection (t := s.layout) inside sel h hsteady
    have hraises := hevents.raises_eq fun e he hsel => by
      obtain ⟨hnode, -⟩ := hl.fixes hfix he hsel
      exact ⟨hinside _ hnode, hfix _ (List.mem_cons_of_mem _ hnode)⟩
    obtain ⟨hmode, hflow⟩ := hl.flow_eq h hm hground hevents hfix
    obtain ⟨hpart, hwhole⟩ := r.verdict_trace sel hevents.locals_eq hraises hmode ds
    rw [← hmap]
    exact ⟨_, _, hw, analyze_map heq hground.fault hds, hpart,
      fun hspares => hwhole (hflow (hspares m hinnermost))⟩
  · obtain ⟨events, heq, -⟩ := mirrors_ofSelection (t := s.layout) (r := r) (fun _ => false) sel h
      fun _ _ hin => absurd hin Bool.false_ne_true
    obtain ⟨-, hnone⟩ := ofSelection_first_eq_none (t := s.layout) h hboth
    obtain ⟨d, hd, hvalidated⟩ := validated_of_first_eq_none sel boundaries hnone
    have hany : (ds.any fun d => d.kind = .noEnclosingMethod) = true := by
      rw [← Except.ok.inj (hvalidated.symm.trans hds)]
      simp [hd]
    have hsame := r.verdict_trace_of_none (ofSelection s.layout sel) events sel hany
    rw [← hmap]
    refine ⟨_, _, hw, analyze_map heq hground.fault hds, ?_, fun _ => hsame⟩
    rw [hsame]

/-- A method with a jump to a label, a call and a function that declares the label `X`. -/
def outerJump (label : String) (types : List ClassType) : Sketch :=
  .file [some (.method "m" true [] [some (.jump .gotoStmt label),
    some (.eval (some (.call "f" types []))),
    some (.eval (some (.lambda true
      [some (.labeled "X" (some (.eval (some (.operation [])))))])))])]

/-- The verdict on the labeled statement is the same for jumps to two other labels. -/
theorem outerJump_spared :
    (outerJump "Y" []).layout.AgreesWithin (outerJump "Z" [.root "A" false]).layout ⟨12, 6⟩ ∧
      ∃ w, analyze (outerJump "Y" []).layout ⟨12, 6⟩ .everywhere = .ok w ∧
        analyze (outerJump "Z" [.root "A" false]).layout ⟨12, 6⟩ .everywhere = .ok w := by
  have hcore : ∀ m ∈ (outerJump "Y" []).layout.places,
      (outerJump "Y" []).layout.Innermost ⟨12, 6⟩ m →
      ∀ n ∈ m.node :: m.children.toList, n ∈ (outerJump "Z" [.root "A" false]).layout.toList := by
    decide +kernel
  have hspares : ∀ m ∈ (outerJump "Y" []).layout.places,
      (outerJump "Y" []).layout.Innermost ⟨12, 6⟩ m →
      (outerJump "Y" []).layout.Spares (outerJump "Z" [.root "A" false]).layout m := by
    decide +kernel
  have hagrees :
      (outerJump "Y" []).layout.AgreesWithin (outerJump "Z" [.root "A" false]).layout ⟨12, 6⟩ :=
    ⟨by decide +kernel, fun m hm => hcore m hm.1 hm⟩
  obtain ⟨w, w', hw, hw', -, hsame⟩ := verdict_local _ _ ⟨12, 6⟩ .everywhere hagrees
  rw [hsame fun m hm => hspares m hm.1 hm] at hw'
  exact ⟨hagrees, w, hw, hw'⟩

/-- A jump outside the function to a label of the same name changes the verdict. -/
theorem outerJump_intrudes :
    (outerJump "Y" []).layout.AgreesWithin (outerJump "X" []).layout ⟨12, 6⟩ ∧
      (∃ w, analyze (outerJump "Y" []).layout ⟨12, 6⟩ .everywhere = .ok w ∧ w.Legal) ∧
        ∃ w, analyze (outerJump "X" []).layout ⟨12, 6⟩ .everywhere = .ok w ∧ ¬ w.Legal := by
  have hcore : ∀ m ∈ (outerJump "Y" []).layout.places,
      (outerJump "Y" []).layout.Innermost ⟨12, 6⟩ m →
      ∀ n ∈ m.node :: m.children.toList, n ∈ (outerJump "X" []).layout.toList := by decide +kernel
  let w : Verdict := { diagnostics := [], method := some 7, selected := [9] }
  let w' : Verdict :=
    { diagnostics :=
        [⟨.unresolvedBranch, "The selection contains a jump whose target is outside it (goto X)",
          none, ⟨12, 6⟩⟩]
      method := some 7
      selected := [9]
      flow := ⟨.noReturn, [⟨.gotoBranch, "X"⟩]⟩ }
  refine ⟨⟨by decide +kernel, fun m hm => hcore m hm.1 hm⟩, ⟨w, by decide +kernel, rfl⟩,
    w', by decide +kernel, ?_⟩
  exact List.cons_ne_nil _ _

end Extraction
