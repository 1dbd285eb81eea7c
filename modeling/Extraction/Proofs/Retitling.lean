import Extraction.Proofs.Enclosing

/-!
# Trees with other labels and types

The traversal looks neither at labels nor at types, but for one thing: leaving a call or throw is an
event only if it raises something.  The trace of a tree with other labels and types is therefore the
same trace with the same changes, apart from those events.
-/

namespace Extraction

/-- New labels and types, by the number of the node. -/
structure Retitling where
  label : Nat → String
  types : Nat → List ClassType

namespace Retitling

variable (r : Retitling) (p : Place)

def node (n : Node) : Node :=
  { n with label := r.label n.id, types := r.types n.id }

def place (p : Place) : Place :=
  ⟨r.node p.node, p.children.map r.node, p.ancestors.map r.node⟩

def event (e : Event) : Event :=
  { e with place := r.place e.place }

@[simp] theorem parent?_place : (r.place p).parent? = p.parent?.map r.node :=
  List.head?_map

@[simp] theorem child?_place (role : Role) :
    (r.place p).child? role = (p.child? role).map r.node := by
  simp only [Place.child?, place, SyntaxTree.roots_map, List.find?_map]
  rfl

theorem isWithin_place (id : Nat) : (r.place p).isWithin id = p.isWithin id := by
  simp only [Place.isWithin, place, List.any_map]
  rfl

theorem encloses_place (sel : Extent) :
    Trace.enclosesSelection sel (r.place p) = Trace.enclosesSelection sel p := by
  simp only [Trace.enclosesSelection, child?_place, Option.any_map]
  rfl

theorem isTopLevel_place (sel : Extent) :
    Trace.isTopLevel sel (r.place p) = Trace.isTopLevel sel p := by
  simp only [Trace.isTopLevel, parent?_place, Option.all_map]
  rfl

theorem parentId_place : (r.place p).parent?.map (·.id) = p.parent?.map (·.id) := by
  rw [parent?_place, Option.map_map]
  rfl

theorem modes_place : (r.place p).modes = p.modes := by
  unfold Place.modes
  rw [parent?_place]
  cases p.parent? <;> rfl

theorem touches_place : (r.place p).touches = p.touches := by
  unfold Place.touches
  rw [modes_place]
  rfl

theorem rootPlaces_place (path : List Node) (f : SyntaxTree) :
    SyntaxTree.rootPlaces (path.map r.node) (f.map r.node) =
      (SyntaxTree.rootPlaces path f).map r.place := by
  induction f with
  | nil => rfl
  | cons n children rest _ ihr =>
    simp only [Forest.map, SyntaxTree.rootPlaces, List.map_cons, ihr]
    rfl

theorem stores_place : (r.place p).stores = p.stores.map r.place := by
  have hkind : (r.place p).node.kind = p.node.kind := rfl
  have hinitialized : (r.place p).node.initialized = p.node.initialized := rfl
  have hchildren : SyntaxTree.rootPlaces (r.place p).below (r.place p).children =
      (SyntaxTree.rootPlaces p.below p.children).map r.place :=
        rootPlaces_place r p.below p.children
  unfold Place.stores
  rw [hkind, hinitialized, hchildren]
  cases p.node.kind with
  | assign =>
    simp only [List.filter_map]
    rfl
  | declarator => cases p.node.initialized <;> rfl
  | _ => rfl

theorem entering_place (phase : Phase) (nested : Bool) :
    Event.entering phase nested (r.place p) = (Event.entering phase nested p).map r.event := by
  simp only [Event.entering, touches_place, List.map_append, List.map_cons, List.map_map]
  congr 1
  change (if p.node.kind = .catchClause then _ else _) = _
  split <;> rfl

theorem storing_place (phase : Nat → Phase) (nested : Bool) :
    Event.storing phase nested (r.place p) = (Event.storing phase nested p).map r.event := by
  simp only [Event.storing, List.map_map]
  rfl

theorem raises_place (h : r.node p.node = p.node) : (r.place p).raises = p.raises := by
  unfold Place.raises
  rw [show (r.place p).node = p.node from h]

end Retitling

namespace Event

open Retitling

variable {r : Retitling} {inside : Nat → Bool}

/-- Whether the event does not depend on the types of a node outside. -/
def steady (inside : Nat → Bool) (e : Event) : Bool :=
  !(e.kind == .call) || inside e.node.id

/-- The events of a trace and those of the trace with other labels and types.  They differ in what
is raised outside. -/
structure Mirrors (r : Retitling) (inside : Nat → Bool) (es es' : List Event) : Prop where
  steady : es'.filter (steady inside) = (es.filter (steady inside)).map r.event
  /-- What is raised in one is left in the other. -/
  raised : ∀ e' ∈ es', e'.kind = .call → ∃ e ∈ es, e.kind = .leave ∧ e.phase = e'.phase ∧
    r.place e.place = e'.place

theorem Mirrors.append {es es' fs fs' : List Event} (h : Mirrors r inside es es')
    (h' : Mirrors r inside fs fs') :
    Mirrors r inside (es ++ fs) (es' ++ fs') where
  steady := by rw [List.filter_append, h.steady, h'.steady, List.filter_append, List.map_append]
  raised e' he hk := by
    rcases List.mem_append.mp he with he | he
    · obtain ⟨e, he, heq⟩ := h.raised e' he hk
      exact ⟨e, List.mem_append_left _ he, heq⟩
    · obtain ⟨e, he, heq⟩ := h'.raised e' he hk
      exact ⟨e, List.mem_append_right _ he, heq⟩

theorem mirrors_entering (p : Place) (phase : Phase) (nested : Bool) :
    Mirrors r inside (entering phase nested p) (entering phase nested (r.place p)) where
  steady := by
    rw [entering_place, List.filter_map]
    rfl
  raised e' he hk := by
    rcases mem_entering.mp he with rfl | ⟨a, -, rfl⟩ | ⟨-, rfl⟩ <;> cases hk

theorem filter_call (p : Place) (phase : Phase) (nested : Bool) :
    (if p.raises then [(⟨.call, phase, nested, p⟩ : Event)] else []).filter (steady inside) =
      if p.raises && inside p.node.id then [⟨.call, phase, nested, p⟩] else [] := by
  cases p.raises <;> cases hin : inside p.node.id <;> simp [steady, Event.node, hin]

theorem mirrors_leaving {p : Place} (phase : Nat → Phase) (nested : Bool)
    (hp : inside p.node.id = true → r.node p.node = p.node) :
    Mirrors r inside (leaving phase nested p) (leaving phase nested (r.place p)) where
  steady := by
    have hstores : (r.place p).stores.flatMap (storing phase nested) =
        (p.stores.flatMap (storing phase nested)).map r.event := by
      rw [stores_place, List.flatMap_map, List.map_flatMap]
      simp only [storing_place]
    have hraises : ((r.place p).raises && inside (r.place p).node.id) =
        (p.raises && inside p.node.id) := by
      change ((r.place p).raises && inside p.node.id) = _
      cases hin : inside p.node.id with
      | true => rw [raises_place r p (hp hin)]
      | false => rw [Bool.and_false, Bool.and_false]
    simp only [leaving, List.filter_append, List.map_append, filter_call, hraises]
    rw [hstores, List.filter_map]
    split <;> rfl
  raised e' he hk := by
    rcases mem_leaving.mp he with ⟨c, -, b, -, rfl⟩ | ⟨-, rfl⟩ | rfl
    · cases hk
    · exact ⟨⟨.leave, phase p.node.id, nested, p⟩, mem_leaving.mpr (Or.inr (Or.inr rfl)),
        rfl, rfl, rfl⟩
    · cases hk

end Event

namespace Retitling

variable (r : Retitling)

def trace (s : Trace) (events : Array Event) : Trace :=
  { s with
    method := s.method.map r.node, first := s.first.map r.node, last := s.last.map r.node,
    topLevel := s.topLevel.map r.node, events }

variable (s : Trace) (events : Array Event) (p : Place)

theorem report_trace (kind : DiagnosticKind) (message : String) (n : Node) :
    (r.trace s events).report kind message
      (r.node n) = (s.report kind message n).map fun s => r.trace s events := by
  have hextent : (r.node n).extent = n.extent := rfl
  unfold Trace.report
  rw [hextent]
  cases n.extent <;> rfl

theorem classify_trace (sel : Extent) :
    Trace.classify sel (r.trace s events) (r.place p) = (Trace.classify sel s p).map fun s =>
      r.trace s events := by
  have htake : { r.trace s events with
      last := some (r.node p.node), topLevel := (r.trace s events).topLevel ++ [r.node p.node] } =
        r.trace { s with last := some p.node, topLevel := s.topLevel ++ [p.node] } events := by
    simp [trace]
  unfold Trace.classify
  have hphase : (r.trace s events).phase = s.phase := rfl
  have hnode : (r.place p).node = r.node p.node := rfl
  have hkind : (r.node p.node).kind = p.node.kind := rfl
  simp only [hphase, hnode, hkind, isTopLevel_place, parentId_place, report_trace]
  split
  next =>
    rw [apply_ite (Except.map fun s => r.trace s events)]
    refine if_congr Iff.rfl ?_ rfl
    simp [trace, Except.map]
  next =>
    rw [apply_ite (Except.map fun s => r.trace s events)]
    refine if_congr Iff.rfl rfl ?_
    rw [apply_ite (Except.map fun s => r.trace s events)]
    refine if_congr Iff.rfl ?_ ?_
    · cases s.report .endsMidStatement
        s!"The selection ends in the middle of a {Trace.sort p.node.kind}" p.node <;> rfl
    · rw [apply_ite (Except.map fun s => r.trace s events)]
      refine if_congr Iff.rfl ?_ rfl
      rw [apply_ite (Except.map fun s => r.trace s events)]
      exact if_congr Iff.rfl (congrArg Except.ok htake)
        ((congrArg (fun s : Trace => s.report _ _ _) htake).trans (r.report_trace _ _ _ _ _))
  next => rfl
  next => rfl

end Retitling

namespace Trace

open SyntaxTree

variable {r : Retitling} {inside : Nat → Bool} {sel : Extent} {s s' : Trace} {p : Place}

def Mirrors (r : Retitling) (inside : Nat → Bool) (s s' : Trace) : Prop :=
  ∃ events : Array Event, s' = r.trace s events ∧
    Event.Mirrors r inside s.events.toList events.toList

theorem Mirrors.record (h : Mirrors r inside s s') {es es' : List Event}
    (hes : Event.Mirrors r inside es es') :
    Mirrors r inside (s.record es) (s'.record es') := by
  obtain ⟨events, rfl, hevents⟩ := h
  refine ⟨events ++ es'.toArray, rfl, ?_⟩
  simpa [Trace.record] using hevents.append hes

variable (sel) in
theorem Mirrors.enter (h : Mirrors r inside s s') (hp : p.node.start ≤ p.node.stop) :
    (Trace.enter sel s' (r.place p)).1 = (Trace.enter sel s p).1 ∧
      Mirrors r inside (Trace.enter sel s p).2 (Trace.enter sel s' (r.place p)).2 := by
  obtain ⟨events, rfl, hevents⟩ := h
  have hcomplete : (r.trace s events).complete = s.complete := rfl
  have hmethod : (r.trace s events).method.isNone = s.method.isNone := Option.isNone_map
  have hkind : (r.place p).node.kind = p.node.kind := rfl
  unfold Trace.enter
  rw [hcomplete, hmethod, r.encloses_place, hkind, r.classify_trace, classify_eq_ok sel s p hp]
  split
  · exact ⟨rfl, events, rfl, hevents⟩
  · split
    · exact ⟨rfl, events, rfl, hevents⟩
    · split
      · split <;> exact ⟨rfl, events, rfl, hevents⟩
      · refine ⟨rfl, ?_⟩
        have hc := (classifies_classified sel s p hp).frame
        simp only [Except.map, enterClassified_eq]
        refine Mirrors.record ⟨events, rfl, ?_⟩ (Event.mirrors_entering p _ _)
        rwa [hc.2.2.2.2.1]

theorem Mirrors.leave (h : Mirrors r inside s s')
    (hp : inside p.node.id = true → r.node p.node = p.node) :
    Mirrors r inside (Trace.leave s p) (Trace.leave s' (r.place p)) := by
  obtain ⟨events, rfl, hevents⟩ := h
  cases hm : s.method with
  | none =>
    have hm' : (r.trace s events).method = none := by simp [Retitling.trace, hm]
    simp only [Trace.leave, hm, hm']
    exact ⟨events, rfl, hevents⟩
  | some m =>
    have hm' : (r.trace s events).method = some (r.node m) := by simp [Retitling.trace, hm]
    by_cases hid : m.id = p.node.id
    · have hid' : (r.node m).id = (r.place p).node.id := hid
      simp only [Trace.leave, hm, hm', hid, hid', Option.any_some, beq_self_eq_true, if_true]
      exact ⟨events, rfl, hevents⟩
    · rw [leave_eq_left s p m hm hid, leave_eq_left _ (r.place p) (r.node m) hm' hid]
      have hleaving := Event.mirrors_leaving s.phaseOf (decide (0 < s.depth - p.nesting)) hp
      refine ⟨events ++ (Event.leaving s.phaseOf (decide (0 < s.depth - p.nesting))
        (r.place p)).toArray, rfl, ?_⟩
      simpa [left, Trace.record] using hevents.append hleaving

variable {path : List Node} {f : SyntaxTree} {offset : Int} {id : Nat}

variable (path) in
/-- The traversals of a forest and of the forest with other labels and types go the same way. -/
theorem mirrors_walk (hlaid : Laid offset id f)
    (hf : ∀ n ∈ f.toList, inside n.id = true → r.node n = n) (h : Mirrors r inside s s') :
    (walk (enter sel) leave (path.map r.node) (f.map r.node) s').stopped =
      (walk (enter sel) leave path f s).stopped ∧
      Mirrors r inside (walk (enter sel) leave path f s).state
        (walk (enter sel) leave (path.map r.node) (f.map r.node) s').state := by
  induction f generalizing path offset id s s' with
  | nil => exact ⟨rfl, h⟩
  | cons n children rest ihc ihr =>
    have hle := start_le_stop hlaid (root_mem_placesBelow path n children rest)
    obtain ⟨-, -, -, hc, hr⟩ := hlaid
    simp only [Forest.toList, List.mem_cons, List.mem_append] at hf
    have hrest := fun s s' (hs : Mirrors r inside s s') =>
      ihr path hr (fun k hk => hf k (Or.inr (Or.inr hk))) hs
    obtain ⟨hstep, hentered⟩ := Mirrors.enter sel (p := ⟨n, children, path⟩) h hle
    have hplace : r.place ⟨n, children, path⟩ = ⟨r.node n, children.map r.node, path.map r.node⟩ :=
      rfl
    rw [Forest.map, walk, walk, ← hplace]
    rcases henter : enter sel s ⟨n, children, path⟩ with ⟨step, s₁⟩
    rcases henter' : enter sel s' (r.place ⟨n, children, path⟩) with ⟨step', s₁'⟩
    rw [henter, henter'] at hstep hentered
    obtain rfl : step' = step := hstep
    cases step' with
    | abort reason => exact ⟨rfl, hentered⟩
    | skip => exact hrest s₁ s₁' hentered
    | descend =>
      obtain ⟨hstopped, hbelow⟩ :=
        ihc (n :: path) hc (fun k hk => hf k (Or.inr (Or.inl hk))) hentered
      rw [List.map_cons] at hstopped hbelow
      simp only
      rw [hstopped]
      cases hstop : (walk (enter sel) leave (n :: path) children s₁).stopped with
      | some reason => exact ⟨hstopped, hbelow⟩
      | none => exact hrest _ _ (hbelow.leave (hf n (Or.inl rfl)))

theorem mirrors_ofSelection {t : SyntaxTree} (inside : Nat → Bool) (sel : Extent)
    (hlaid : Laid 0 0 t.first) (ht : ∀ n ∈ t.first.toList, inside n.id = true → r.node n = n) :
    Mirrors r inside (ofSelection t sel) (ofSelection (t.map r.node) sel) := by
  have hfirst : (t.map r.node).first = t.first.map r.node := by cases t <;> rfl
  rw [ofSelection, ofSelection, hfirst]
  exact (mirrors_walk [] hlaid ht ⟨#[], rfl, rfl, fun e' he => by cases he⟩).2

end Trace

end Extraction
