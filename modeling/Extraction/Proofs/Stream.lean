import Extraction.Analysis.Trace
import Extraction.Proofs.Layout

/-!
# The event stream of a scanned forest

Within the enclosing method the traversal never stops or skips.  It is then the plain recursion
`Trace.scan`, and the events it records are a recursion over the forest, `Event.stream`, once it is
known in which phase each node is entered.
-/

namespace Extraction

namespace Place

/-- The variable that a name or declarator stands for. -/
def tracked? (p : Place) : Option Binding :=
  match p.node.binding with
  | some b => if b.isVariable then some b else none
  | none => none

def modes (p : Place) : List AccessMode :=
  match p.parent? with
  | some q =>
    if q.kind = .assign ∧ p.node.role = .target then if q.compound then [.read] else []
    else if q.kind = .incDec then [.read, .write]
    else [.read]
  | none => [.read]

def touches (p : Place) : List Access :=
  match p.node.kind with
  | .name => p.tracked?.toList.flatMap fun b => p.modes.map fun mode => ⟨b, mode⟩
  | _ => []

def stores (p : Place) : List Place :=
  match p.node.kind with
  | .assign =>
    (SyntaxTree.rootPlaces p.below p.children).filter fun c => c.node.role = .target ∧
      c.node.kind = .name
  | .declarator => if p.node.initialized then [p] else []
  | _ => []

def raises (p : Place) : Bool :=
  match p.node.kind with
  | .call | .throwStmt => !p.node.types.isEmpty
  | _ => false

/-- How much deeper the children of the place are nested. -/
def nesting (p : Place) : Int :=
  if p.node.kind.isScope then 1 else 0

end Place

namespace Event

def entering (phase : Phase) (nested : Bool) (p : Place) : List Event :=
  ⟨.enter, phase, nested, p⟩ ::
    (p.touches.map fun a => ⟨.name a, phase, nested, p⟩) ++
    if p.node.kind = .catchClause then [⟨.catches, phase, nested, p⟩] else []

def storing (phase : Nat → Phase) (nested : Bool) (p : Place) : List Event :=
  p.tracked?.toList.map fun b => ⟨.name ⟨b, .write⟩, phase p.node.id, nested, p⟩

/-- What is recorded when a place is left, given the phase of every node. -/
def leaving (phase : Nat → Phase) (nested : Bool) (p : Place) : List Event :=
  p.stores.flatMap (storing phase nested) ++
    (if p.raises then [⟨.call, phase p.node.id, nested, p⟩] else []) ++
    [⟨.leave, phase p.node.id, nested, p⟩]

/-- The events of a forest, given the phase of every node. -/
def stream (phase : Nat → Phase) (depth : Int) (path : List Node) : SyntaxTree → List Event
  | .nil => []
  | .cons n children rest =>
    let p : Place := ⟨n, children, path⟩
    entering (phase n.id) (decide (0 < depth)) p ++ stream phase
      (depth + p.nesting) p.below children ++
      leaving phase (decide (0 < depth)) p ++ stream phase depth path rest

variable {nested : Bool} {p : Place} {e : Event}

theorem mem_entering {x : Phase} : e ∈ entering x nested p ↔
    e = ⟨.enter, x, nested, p⟩ ∨ (∃ a ∈ p.touches, e = ⟨.name a, x, nested, p⟩) ∨
      p.node.kind = .catchClause ∧ e = ⟨.catches, x, nested, p⟩ := by
  by_cases hk : p.node.kind = .catchClause <;> simp [entering, hk, eq_comm]

theorem mem_leaving {phase : Nat → Phase} : e ∈ leaving phase nested p ↔
    (∃ c ∈ p.stores, ∃ b, c.tracked? = some b ∧
      e = ⟨.name ⟨b, .write⟩, phase c.node.id, nested, c⟩) ∨
      p.raises = true ∧ e = ⟨.call, phase p.node.id, nested, p⟩ ∨
          e = ⟨.leave, phase p.node.id, nested, p⟩ := by
  by_cases hr : p.raises = true <;> simp [leaving, storing, hr, eq_comm]

/-- A place is left last, after what it stores and raises. -/
theorem exists_leaving_eq (phase : Nat → Phase) (nested : Bool) (p : Place) :
    ∃ es, leaving phase nested p = es ++ [⟨.leave, phase p.node.id, nested, p⟩] ∧
      ∀ e ∈ es, e.kind ≠ .enter ∧ e.kind ≠ .leave := by
  refine ⟨_, rfl, fun e he => ?_⟩
  rcases List.mem_append.mp he with he | he
  · obtain ⟨c, -, he⟩ := List.mem_flatMap.mp he
    obtain ⟨b, -, rfl⟩ := List.mem_map.mp he
    simp
  · split at he
    · simp [List.mem_singleton.mp he]
    · cases he

def IsBracket (e : Event) : Prop :=
  e.kind = .enter ∨ e.kind = .leave

instance (e : Event) : Decidable e.IsBracket :=
  inferInstanceAs (Decidable (_ ∨ _))

theorem filter_entering (x : Phase) (nested : Bool) (p : Place) :
    ((entering x nested p).filter fun e => e.IsBracket) = [⟨.enter, x, nested, p⟩] := by
  rw [entering, List.cons_append, List.filter_cons_of_pos (by simp [IsBracket]),
    List.filter_eq_nil_iff.mpr]
  intro e he hbracket
  rcases List.mem_append.mp he with he | he
  · obtain ⟨a, -, rfl⟩ := List.mem_map.mp he
    simp [IsBracket] at hbracket
  · split at he
    · rw [List.mem_singleton.mp he] at hbracket
      simp [IsBracket] at hbracket
    · cases he

theorem filter_leaving (phase : Nat → Phase) (nested : Bool) (p : Place) :
    ((leaving phase nested p).filter fun e => e.IsBracket) =
      [⟨.leave, phase p.node.id, nested, p⟩] := by
  obtain ⟨es, hes, hkinds⟩ := exists_leaving_eq phase nested p
  have hnone : (es.filter fun e => e.IsBracket) = [] := by
    apply List.filter_eq_nil_iff.mpr
    intro e he hbracket
    obtain ⟨henter, hleave⟩ := hkinds e he
    simp [IsBracket, henter, hleave] at hbracket
  rw [hes, List.filter_append, hnone, List.nil_append,
    List.filter_cons_of_pos (by simp [IsBracket]), List.filter_nil]

end Event

namespace Trace

def record (s : Trace) (es : List Event) : Trace :=
  { s with events := s.events ++ es.toArray }

@[simp] theorem record_nil (s : Trace) : s.record [] = s := by
  simp [record]

@[simp] theorem record_record (s : Trace) (es fs : List Event) :
    (s.record es).record fs = s.record (es ++ fs) := by
  simp [record, Array.append_assoc]

@[simp] theorem record_phase (s : Trace) (es : List Event) : (s.record es).phase = s.phase :=
  rfl

@[simp] theorem record_depth (s : Trace) (es : List Event) : (s.record es).depth = s.depth :=
  rfl

@[simp] theorem record_phaseOf (s : Trace) (es : List Event) : (s.record es).phaseOf = s.phaseOf :=
  rfl

theorem emit_eq_record (s : Trace) (kind : EventKind) (phase : Phase) (p : Place) :
    s.emit kind phase p = s.record [⟨kind, phase, decide (0 < s.depth), p⟩] := by
  simp [emit, record]

theorem access_eq_record (s : Trace) (mode : AccessMode) (phase : Phase) (p : Place) :
    s.access mode phase p =
      s.record (p.tracked?.toList.map fun b =>
      ⟨.name ⟨b, mode⟩, phase, decide (0 < s.depth), p⟩) := by
  cases hb : p.node.binding with
  | none => simp [access, Place.tracked?, hb]
  | some b =>
    by_cases hv : b.isVariable
    · simp [access, Place.tracked?, hb, hv, emit_eq_record]
    · simp [access, Place.tracked?, hb, hv]

theorem enterName_eq_record (s : Trace) (p : Place) :
    s.enterName p = s.record
      ((p.tracked?.toList.flatMap fun b => p.modes.map fun mode => (⟨b, mode⟩ : Access)).map
      fun a => ⟨.name a, s.phase, decide (0 < s.depth), p⟩) := by
  unfold enterName Place.modes
  cases hq : p.parent? with
  | none => cases hv : p.tracked? <;> simp [access_eq_record, hv]
  | some q =>
    simp only
    split
    · split
      · cases hv : p.tracked? <;> simp [access_eq_record, hv]
      · cases hv : p.tracked? <;> simp
    · split
      · cases hv : p.tracked? with
        | none => simp [access_eq_record, hv]
        | some v =>
          simp only [access_eq_record, hv, Option.toList_some, List.map_cons, List.map_nil,
            record_depth, record_record, List.cons_append, List.nil_append, List.flatMap_cons,
            List.flatMap_nil, List.append_nil]
          rfl
      · cases hv : p.tracked? <;> simp [access_eq_record, hv]

theorem enterClassified_eq (s : Trace) (p : Place) :
    s.enterClassified p =
      { s with phases := (p.node.id, s.phase) :: s.phases, depth := s.depth + p.nesting }.record
        (Event.entering s.phase (decide (0 < s.depth)) p) := by
  cases hk : p.node.kind with
  | name =>
    simp [enterClassified, Event.entering, Place.touches, Place.nesting, hk, Kind.isScope,
      emit_eq_record, enterName_eq_record]
    rfl
  | catchClause =>
    simp [enterClassified, Event.entering, Place.touches, Place.nesting, hk, Kind.isScope,
      emit_eq_record]
    rfl
  | _ =>
    simp [enterClassified, Event.entering, Place.touches, Place.nesting, hk, Kind.isScope,
      emit_eq_record, record]

theorem foldl_stores (s : Trace) (cs : List Place) :
    cs.foldl (fun s c =>
        if c.node.role = .target ∧ c.node.kind = .name then s.access .write (s.phaseOf c.node.id) c
        else s) s =
      s.record ((cs.filter fun c => c.node.role = .target ∧ c.node.kind = .name).flatMap
        (Event.storing s.phaseOf (decide (0 < s.depth)))) := by
  induction cs generalizing s with
  | nil => simp
  | cons c cs ih =>
    rw [List.foldl_cons]
    by_cases hc : c.node.role = .target ∧ c.node.kind = .name
    · rw [if_pos hc, ih, access_eq_record, record_record,
        List.filter_cons_of_pos (by simpa using hc)]
      rfl
    · rw [if_neg hc, ih, List.filter_cons_of_neg (by simpa using hc)]

theorem leaveEffects_eq (s : Trace) (p : Place) :
    s.leaveEffects p =
      s.record (p.stores.flatMap (Event.storing s.phaseOf (decide (0 < s.depth))) ++
        if p.raises then [⟨.call, s.phaseOf p.node.id, decide (0 < s.depth), p⟩] else []) := by
  cases hk : p.node.kind with
  | assign => simp [leaveEffects, Place.stores, Place.raises, hk, foldl_stores]
  | declarator =>
    cases hi : p.node.initialized <;>
      simp [leaveEffects, Place.stores, Place.raises, hk, hi, access_eq_record, Event.storing]
  | call | throwStmt =>
    cases ht : p.node.types <;>
      simp [leaveEffects, Place.stores, Place.raises, hk, ht, emit_eq_record]
  | _ => simp [leaveEffects, Place.stores, Place.raises, hk]

def left (s : Trace) (p : Place) : Trace :=
  { s.record (Event.leaving s.phaseOf (decide (0 < s.depth - p.nesting)) p) with
    depth := s.depth - p.nesting
    reach := if s.phaseOf p.node.id = .selected ∧ s.reach < p.node.stop then p.node.stop
      else s.reach }

theorem leave_eq_left (s : Trace) (p : Place) (m : Node) (hm : s.method = some m)
    (hid : m.id ≠ p.node.id) :
    s.leave p = s.left p := by
  have hstep : s.leave p =
      let s' := (s.leaveEffects p)
      let s' := if p.node.kind.isScope then { s' with depth := s'.depth - 1 } else s'
      let s' := s'.emit .leave (s.phaseOf p.node.id) p
      if s.phaseOf p.node.id = .selected ∧ s'.reach < p.node.stop then
        { s' with reach := p.node.stop }
      else s' := by
    simp [leave, hm, hid]
  rw [hstep, leaveEffects_eq]
  by_cases hs : p.node.kind.isScope
  · -- a scope neither stores nor raises, so only the event of leaving it is recorded
    have hstores : p.stores = [] := by
      cases hk : p.node.kind <;> simp_all [Place.stores, Kind.isScope]
    have hraises : p.raises = false := by
      cases hk : p.node.kind <;> simp_all [Place.raises, Kind.isScope]
    simp only [hs, hstores, hraises, if_true, left, Place.nesting, Event.leaving,
      emit_eq_record, record]
    by_cases hr : s.phaseOf p.node.id = .selected ∧ s.reach < p.node.stop <;> simp [hr]
  · simp only [hs, left, Place.nesting, Event.leaving, emit_eq_record, record]
    by_cases hr : s.phaseOf p.node.id = .selected ∧ s.reach < p.node.stop <;> simp [hr]

/-- The state after a place is classified.  Only a reversed range is a fault. -/
def classified (sel : Extent) (s : Trace) (p : Place) : Trace :=
  match classify sel s p with
  | .ok s => s
  | .error _ => s

theorem report_eq (s : Trace) (kind : DiagnosticKind) (message : String) (n : Node)
    (h : n.start ≤ n.stop) :
    ∃ d : Diagnostic, d.kind = kind ∧
      s.report kind message n = .ok { s with diagnostics := s.diagnostics ++ [d] } := by
  have hextent : n.extent = .ok ⟨n.start, word (n.stop - n.start)⟩ := by
    simp only [Node.extent, Extent.between, if_neg (Int.not_lt.mpr h)]
  refine ⟨⟨kind, message, some n.id, ⟨n.start, word (n.stop - n.start)⟩⟩, rfl, ?_⟩
  simp only [report, hextent]
  rfl

inductive Classifies (sel : Extent) (p : Place) (s : Trace) : Trace → Prop where
  | outside (hphase : s.phase ≠ .selected)
      (hcover : s.phase = .before →
      ¬ (p.node.start < p.node.stop ∧ sel.Covers p.node.start p.node.stop)) :
      Classifies sel p s s
  | begins (hphase : s.phase = .before) (hcover : sel.Covers p.node.start p.node.stop) :
      Classifies sel p s
        { s with
          phase := .selected, first := some p.node, parentOfFirst := p.parent?.map (·.id),
          last := some p.node, topLevel := s.topLevel ++ [p.node] }
  | within (hphase : s.phase = .selected) (hstart : p.node.start < sel.past)
      (hstop : p.node.stop ≤ sel.past) (htop : isTopLevel sel p = false) : Classifies sel p s s
  | joins (hphase : s.phase = .selected) (hstart : p.node.start < sel.past)
      (hstop : p.node.stop ≤ sel.past) (htop : isTopLevel sel p = true)
      (hparent : p.parent?.map (·.id) = s.parentOfFirst ∨ s.has .mixedParents = true) :
      Classifies sel p s { s with last := some p.node, topLevel := s.topLevel ++ [p.node] }
  | strays (hphase : s.phase = .selected) (hstart : p.node.start < sel.past)
      (hstop : p.node.stop ≤ sel.past)
      (htop : isTopLevel sel p = true) (hparent : p.parent?.map (·.id) ≠ s.parentOfFirst)
      (d : Diagnostic) (hd : d.kind = .mixedParents) :
      Classifies sel p s
        { s with
          last := some p.node, topLevel := s.topLevel ++ [p.node],
          diagnostics := s.diagnostics ++ [d] }
  | ends (hphase : s.phase = .selected) (hstart : sel.past ≤ p.node.start) :
      Classifies sel p s { s with phase := .after }
  | cut (hphase : s.phase = .selected) (hcut : sel.EndsInside p.node.start p.node.stop)
      (d : Diagnostic) (hd : d.kind = .endsMidStatement) :
      Classifies sel p s { s with phase := .after, diagnostics := s.diagnostics ++ [d] }

theorem exists_classifies (sel : Extent) (s : Trace) (p : Place) (h : p.node.start ≤ p.node.stop) :
    ∃ s', classify sel s p = .ok s' ∧ Classifies sel p s s' := by
  unfold classify
  simp only
  split
  next hphase =>
    split
    next hcover => exact ⟨_, rfl, .begins hphase hcover.2⟩
    next hcover => exact ⟨_, rfl, .outside (by rw [hphase]; decide) fun _ => hcover⟩
  next hphase =>
    split
    next hstart => exact ⟨_, rfl, .ends hphase hstart⟩
    next hstart =>
      have hstart' : p.node.start < sel.past := Int.not_le.mp hstart
      split
      next hcut =>
        obtain ⟨d, hd, hreport⟩ := report_eq s .endsMidStatement
          s!"The selection ends in the middle of a {sort p.node.kind}" p.node h
        rw [hreport]
        exact ⟨_, rfl, .cut hphase hcut d hd⟩
      next hcut =>
        have hstop : p.node.stop ≤ sel.past := Int.not_lt.mp fun hlt => hcut ⟨hstart', hlt⟩
        split
        next htop =>
          split
          next hparent => exact ⟨_, rfl, .joins hphase hstart' hstop htop hparent⟩
          next hparent =>
            obtain ⟨d, hd, hreport⟩ :=
              report_eq { s with last := some p.node, topLevel := s.topLevel ++ [p.node] }
              .mixedParents "The selected statements do not belong to the same block" p.node h
            exact ⟨_, hreport, .strays hphase hstart' hstop htop
              (fun he => hparent (Or.inl he)) d hd⟩
        next htop => exact ⟨_, rfl, .within hphase hstart' hstop (Bool.eq_false_iff.mpr htop)⟩
  next hphase =>
    exact ⟨_, rfl, .outside (by rw [hphase]; decide) fun he => by rw [hphase] at he; cases he⟩
  next hphase =>
    exact ⟨_, rfl, .outside (by rw [hphase]; decide) fun he => by rw [hphase] at he; cases he⟩

theorem classify_eq_ok (sel : Extent) (s : Trace) (p : Place) (h : p.node.start ≤ p.node.stop) :
    classify sel s p = .ok (classified sel s p) := by
  obtain ⟨s', hs', _⟩ := exists_classifies sel s p h
  rw [classified, hs']

theorem classifies_classified (sel : Extent) (s : Trace) (p : Place)
    (h : p.node.start ≤ p.node.stop) :
    Classifies sel p s (classified sel s p) := by
  obtain ⟨s', hs', hc⟩ := exists_classifies sel s p h
  rwa [classified, hs']

def entered (sel : Extent) (s : Trace) (p : Place) : Trace :=
  (classified sel s p).enterClassified p

/-- The traversal of a forest in which nothing is skipped and nothing stops it. -/
def scan (sel : Extent) (path : List Node) : SyntaxTree → Trace → Trace
  | .nil, s => s
  | .cons n children rest, s =>
    scan sel path rest (left (scan sel (n :: path) children (entered sel s ⟨n, children, path⟩))
      ⟨n, children, path⟩)

theorem Classifies.frame {sel : Extent} {p : Place} {s s' : Trace} (h : Classifies sel p s s') :
    s'.method = s.method ∧ s'.complete = s.complete ∧ s'.fault = s.fault ∧ s'.depth = s.depth ∧
      s'.events = s.events ∧ s'.phases = s.phases ∧ s'.reach = s.reach := by
  cases h <;> exact ⟨rfl, rfl, rfl, rfl, rfl, rfl, rfl⟩

theorem entered_eq (sel : Extent) (s : Trace) (p : Place) :
    entered sel s p =
      { classified sel s p with
        phases := (p.node.id, (classified sel s p).phase) :: (classified sel s p).phases
        depth := (classified sel s p).depth + p.nesting }.record
          (Event.entering (classified sel s p).phase (decide (0 < (classified sel s p).depth)) p) :=
  enterClassified_eq _ p

theorem scan_induction {sel : Extent} {P : Trace → Prop} {path : List Node} {f : SyntaxTree}
    {s : Trace} (henter : ∀ s, ∀ p ∈ SyntaxTree.placesBelow path f, P s → P (entered sel s p))
    (hleave : ∀ s, ∀ p ∈ SyntaxTree.placesBelow path f, P s → P (left s p)) (h : P s) :
    P (scan sel path f s) := by
  induction f generalizing path s with
  | nil => exact h
  | cons n children rest ihc ihr =>
    simp only [SyntaxTree.placesBelow, List.mem_cons, List.mem_append] at henter hleave
    have hentered := henter s ⟨n, children, path⟩ (Or.inl rfl) h
    have hchildren : P (scan sel (n :: path) children (entered sel s ⟨n, children, path⟩)) :=
      ihc (fun s p hp => henter s p (Or.inr (Or.inl hp)))
        (fun s p hp => hleave s p (Or.inr (Or.inl hp))) hentered
    exact ihr (fun s p hp => henter s p (Or.inr (Or.inr hp)))
      (fun s p hp => hleave s p (Or.inr (Or.inr hp))) (hleave _ _ (Or.inl rfl) hchildren)

section Laid

open SyntaxTree

variable {sel : Extent} {path : List Node} {f : SyntaxTree} {offset : Int} {id : Nat}

theorem start_le_stop (h : Laid offset id f) {p : Place} (hp : p ∈ placesBelow path f) :
    p.node.start ≤ p.node.stop := by
  have hb := laid_bounds h (node_mem_of_mem_placesBelow hp)
  omega

variable (sel path) in
theorem scan_frame (h : Laid offset id f) (s : Trace) :
    (scan sel path f s).method = s.method ∧ (scan sel path f s).complete = s.complete ∧
      (scan sel path f s).fault = s.fault := by
  apply scan_induction (P := fun s' => s'.method = s.method ∧ s'.complete = s.complete ∧
    s'.fault = s.fault)
  · rintro s' p hp ⟨hm, hc, hf⟩
    obtain ⟨hm', hc', hf', _⟩ := (classifies_classified sel s' p (start_le_stop h hp)).frame
    rw [entered_eq]
    exact ⟨hm'.trans hm, hc'.trans hc, hf'.trans hf⟩
  · rintro s' p _ hs
    exact hs
  · exact ⟨rfl, rfl, rfl⟩

theorem scan_depth (h : Laid offset id f) (s : Trace) : (scan sel path f s).depth = s.depth := by
  induction f generalizing path offset id s with
  | nil => rfl
  | cons n children rest ihc ihr =>
    have hc := h.2.2.2.1
    have hr := h.2.2.2.2
    have hframe := (classifies_classified sel s ⟨n, children, path⟩
      (start_le_stop h List.mem_cons_self)).frame
    rw [scan, ihr hr]
    simp only [left]
    rw [ihc hc, entered_eq]
    simp only [record_depth, hframe.2.2.2.1]
    omega

variable (sel path) in
/-- Inside a method that does not end and holds no nearer one, the traversal is a scan. -/
theorem walk_eq_scan (h : Laid offset id f) (s : Trace) (m : Node) (hm : s.method = some m)
    (hcomplete : s.complete = false) (hid : ∀ p ∈ placesBelow path f, m.id ≠ p.node.id)
    (hnone : ∀ p ∈ placesBelow path f, enclosesSelection sel p = false) :
    walk (enter sel) leave path f s = ⟨scan sel path f s, none⟩ := by
  induction f generalizing path offset id s with
  | nil => rfl
  | cons n children rest ihc ihr =>
    have hstart := start_le_stop h (root_mem_placesBelow path n children rest)
    have hc := h.2.2.2.1
    have hr := h.2.2.2.2
    simp only [placesBelow, List.mem_cons, List.mem_append] at hid hnone
    have henter : enter sel s ⟨n, children, path⟩ =
        (.descend, entered sel s ⟨n, children, path⟩) := by
      simp [enter, hcomplete, hnone _ (Or.inl rfl), hm, classify_eq_ok sel s _ hstart, entered]
    have hframe := (classifies_classified sel s ⟨n, children, path⟩ hstart).frame
    have hentered : (entered sel s ⟨n, children, path⟩).method = some m ∧
        (entered sel s ⟨n, children, path⟩).complete = false := by
      rw [entered_eq]
      exact ⟨hframe.1.trans hm, hframe.2.1.trans hcomplete⟩
    have hbelow := ihc (n :: path) hc _ hentered.1 hentered.2
      (fun p hp => hid p (Or.inr (Or.inl hp))) (fun p hp => hnone p (Or.inr (Or.inl hp)))
    have hscan := scan_frame sel (n :: path) hc (entered sel s ⟨n, children, path⟩)
    rw [walk]
    simp only [henter, hbelow]
    rw [leave_eq_left _ _ m (hscan.1.trans hentered.1) (hid _ (Or.inl rfl))]
    exact ihr path hr _ (hscan.1.trans hentered.1) (hscan.2.1.trans hentered.2)
      (fun p hp => hid p (Or.inr (Or.inr hp))) (fun p hp => hnone p (Or.inr (Or.inr hp)))

end Laid

end Trace

end Extraction
