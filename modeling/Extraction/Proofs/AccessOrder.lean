import Mathlib.Data.List.Nodup
import Extraction.Proofs.Accesses
import Extraction.Proofs.Diagnostics
import Extraction.Proofs.SourceOrder

/-!
# The order of accesses

The traversal of a numbered tree enters a place when it comes to its number and leaves it behind the
last number below it.  Every access is made at one of these times, so two accesses are compared by
where they are made, whatever is selected and wherever the traversal stops.
-/

namespace Extraction

/-- An access at a place, and the time at which the traversal makes it. -/
structure TimedAccess where
  time : Nat
  access : Access
  place : Place

namespace Place

def entryTime (p : Place) : Nat :=
  2 * p.node.id

def exitTime (p : Place) : Nat :=
  2 * (p.node.id + p.children.size) + 1

def entryAccesses (p : Place) : List TimedAccess :=
  p.touches.map fun a => ⟨p.entryTime, a, p⟩

def exitAccesses (p : Place) : List TimedAccess :=
  p.stores.flatMap fun c => c.tracked?.toList.map fun b => ⟨p.exitTime, ⟨b, .write⟩, c⟩

variable {p : Place} {x : TimedAccess}

theorem mem_entryAccesses : x ∈ p.entryAccesses ↔ x.time = p.entryTime ∧ x.access ∈ p.touches ∧
    x.place = p := by
  constructor
  · intro hx
    obtain ⟨a, ha, rfl⟩ := List.mem_map.mp hx
    exact ⟨rfl, ha, rfl⟩
  · rintro ⟨htime, haccess, rfl⟩
    exact List.mem_map.mpr ⟨x.access, haccess, by rw [← htime]⟩

theorem of_mem_exitAccesses (hx : x ∈ p.exitAccesses) :
    x.time = p.exitTime ∧ x.access.mode = .write ∧ x.place ∈ p.stores := by
  obtain ⟨c, hc, hx⟩ := List.mem_flatMap.mp hx
  obtain ⟨b, -, rfl⟩ := List.mem_map.mp hx
  exact ⟨rfl, rfl, hc⟩

theorem read_of_mem_touches {m : Node} {a : Access} (ha : a ∈ p.touches)
    (hparent : p.parent? = some m) (hkind : m.kind = .assign) : a.mode = .read := by
  unfold touches at ha
  split at ha
  next =>
    obtain ⟨b, -, ha⟩ := List.mem_flatMap.mp ha
    obtain ⟨mode, hmode, rfl⟩ := List.mem_map.mp ha
    simp only [modes, hparent, hkind, true_and] at hmode
    split at hmode
    next =>
      split at hmode
      next => exact List.mem_singleton.mp hmode
      next => cases hmode
    next => simpa using hmode
  next => cases ha

end Place

namespace SyntaxTree

def accesses (path : List Node) : SyntaxTree → List TimedAccess
  | .nil => []
  | .cons n children rest =>
    let p : Place := ⟨n, children, path⟩
    p.entryAccesses ++ accesses p.below children ++ p.exitAccesses ++ accesses path rest

variable {path : List Node} {f : SyntaxTree} {x : TimedAccess}

theorem exists_of_mem_accesses (hx : x ∈ accesses path f) :
    ∃ p ∈ placesBelow path f, x ∈ p.entryAccesses ∨ x ∈ p.exitAccesses := by
  induction f generalizing path with
  | nil => cases hx
  | cons n children rest ihc ihr =>
    simp only [accesses, List.mem_append] at hx
    rcases hx with ((hx | hx) | hx) | hx
    · exact ⟨_, List.mem_cons_self, Or.inl hx⟩
    · obtain ⟨p, hp, hmade⟩ := ihc hx
      exact ⟨p, List.mem_cons_of_mem _ (List.mem_append_left _ hp), hmade⟩
    · exact ⟨_, List.mem_cons_self, Or.inr hx⟩
    · obtain ⟨p, hp, hmade⟩ := ihr hx
      exact ⟨p, List.mem_cons_of_mem _ (List.mem_append_right _ hp), hmade⟩

theorem time_of_read (hx : x ∈ accesses path f) (hread : x.access.mode = .read) :
    x.time = x.place.entryTime := by
  obtain ⟨p, -, hx | hx⟩ := exists_of_mem_accesses hx
  · obtain ⟨htime, -, hplace⟩ := Place.mem_entryAccesses.mp hx
    rw [htime, hplace]
  · rw [(Place.of_mem_exitAccesses hx).2.1] at hread
    cases hread

theorem id_bounds {id : Nat} {p : Place} (hp : p ∈ placesBelow path (f.numberFrom id)) :
    id ≤ p.node.id ∧ p.node.id < id + f.size := by
  have hid := List.mem_map_of_mem (f := fun n : Node => n.id) (node_mem_of_mem_placesBelow hp)
  rw [ids_numberFrom, List.mem_range'_1] at hid
  exact hid

theorem eq_of_node_eq {id : Nat} {p q : Place} (hp : p ∈ placesBelow path (f.numberFrom id))
    (hq : q ∈ placesBelow path (f.numberFrom id)) (hnode : p.node = q.node) : p = q := by
  have hids : ((placesBelow path (f.numberFrom id)).map fun p => p.node.id) =
      List.range' id f.size := by
    rw [← ids_numberFrom, ← map_node_placesBelow path, List.map_map]
    rfl
  have hnodup : ((placesBelow path (f.numberFrom id)).map fun p => p.node.id).Nodup := by
    rw [hids]
    exact List.nodup_range'
  exact List.inj_on_of_nodup_map hnodup hp hq (congrArg (·.id) hnode)

theorem time_of_target {id : Nat} {m : Place} (hm : m ∈ placesBelow path (f.numberFrom id))
    (hkind : m.node.kind = .assign) (hx : x ∈ accesses path (f.numberFrom id))
    (hwrite : x.access.mode = .write) (hbelow : x.place.ancestors = m.below)
    (hname : x.place.node.kind ≠ .declarator) : x.time = m.exitTime := by
  obtain ⟨p, hp, hx | hx⟩ := exists_of_mem_accesses hx
  · obtain ⟨-, htouch, rfl⟩ := Place.mem_entryAccesses.mp hx
    have hparent : x.place.parent? = some m.node := by
      rw [Place.parent?, hbelow]
      rfl
    rw [Place.read_of_mem_touches htouch hparent hkind] at hwrite
    cases hwrite
  · obtain ⟨htime, -, hstored⟩ := Place.of_mem_exitAccesses hx
    rcases Place.mem_stores hstored with ⟨hdeclarator, hself⟩ | ⟨hchild, -⟩
    · rw [hself] at hname
      exact absurd hdeclarator hname
    · have habove := (rootPlaces_subset _ _ _ hchild).2
      rw [hbelow] at habove
      rw [htime, eq_of_node_eq hp hm (List.cons.inj habove).1.symm]

theorem time_of_declarator (hx : x ∈ accesses path f) (hkind : x.place.node.kind = .declarator) :
    x.time = x.place.exitTime := by
  obtain ⟨p, -, hx | hx⟩ := exists_of_mem_accesses hx
  · obtain ⟨-, htouch, hplace⟩ := Place.mem_entryAccesses.mp hx
    rw [hplace] at hkind
    simp [Place.touches, hkind] at htouch
  · obtain ⟨htime, -, hstored⟩ := Place.of_mem_exitAccesses hx
    rcases Place.mem_stores hstored with ⟨-, hself⟩ | ⟨-, hname⟩
    · rw [htime, hself]
    · rw [hname] at hkind
      cases hkind

theorem time_bounds (path : List Node) (f : SyntaxTree) (id : Nat) :
    ∀ x ∈ accesses path (f.numberFrom id), 2 * id ≤ x.time ∧ x.time < 2 * (id + f.size) := by
  induction f generalizing id path with
  | nil => simp [numberFrom, accesses]
  | cons n children rest ihc ihr =>
    intro x hx
    have hsize : (Forest.cons n children rest).size = children.size + 1 + rest.size := rfl
    simp only [numberFrom, accesses, List.mem_append] at hx
    rcases hx with ((hx | hx) | hx) | hx
    · have htime : x.time = 2 * id := (Place.mem_entryAccesses.mp hx).1
      omega
    · have := ihc _ (id + 1) x hx
      omega
    · have htime : x.time = 2 * (id + (numberFrom (id + 1) children).size) + 1 :=
        (Place.of_mem_exitAccesses hx).1
      rw [size_numberFrom] at htime
      omega
    · have := ihr path (id + 1 + children.size) x hx
      omega

theorem accesses_ordered (path : List Node) (f : SyntaxTree) (id : Nat) :
    (accesses path (f.numberFrom id)).Pairwise fun x y => x.time ≤ y.time := by
  induction f generalizing id path with
  | nil => exact List.Pairwise.nil
  | cons n children rest ihc ihr =>
    let p : Place := ⟨{ n with id }, numberFrom (id + 1) children, path⟩
    have hentry : ∀ x ∈ p.entryAccesses, x.time = 2 * id :=
      fun x hx => (Place.mem_entryAccesses.mp hx).1
    have hexit : ∀ x ∈ p.exitAccesses, x.time = 2 * (id + children.size) + 1 := by
      intro x hx
      rw [(Place.of_mem_exitAccesses hx).1, Place.exitTime]
      simp only [p, size_numberFrom]
    have hbelow := time_bounds p.below children (id + 1)
    have hbehind := time_bounds path rest (id + 1 + children.size)
    simp only [numberFrom, accesses, List.pairwise_append, List.mem_append]
    refine ⟨⟨⟨?_, ihc _ _, fun x hx y hy => ?_⟩, ?_, fun x hx y hy => ?_⟩, ihr _ _,
      fun x hx y hy => ?_⟩
    · apply List.pairwise_of_forall_mem_list
      intro x hx y hy
      exact Nat.le_of_eq ((hentry x hx).trans (hentry y hy).symm)
    · have := hentry x hx
      have := hbelow y hy
      omega
    · apply List.pairwise_of_forall_mem_list
      intro x hx y hy
      exact Nat.le_of_eq ((hexit x hx).trans (hexit y hy).symm)
    · have := hexit y hy
      rcases hx with hx | hx
      · have := hentry x hx
        omega
      · have := hbelow x hx
        omega
    · have := hbehind y hy
      rcases hx with (hx | hx) | hx
      · have := hentry x hx
        omega
      · have := hbelow x hx
        omega
      · have := hexit x hx
        omega

end SyntaxTree

def Event.access? (e : Event) : Option (Access × Place) :=
  match e.kind with
  | .name a => some (a, e.place)
  | _ => none

theorem Event.access?_entering (phase : Phase) (nested : Bool) (p : Place) :
    (Event.entering phase nested p).filterMap Event.access? = p.entryAccesses.map fun x =>
      (x.access, x.place) := by
  have htouches : (p.touches.map fun a => (⟨.name a, phase, nested, p⟩ : Event)).filterMap
      Event.access? = p.entryAccesses.map fun x => (x.access, x.place) := by
    rw [List.filterMap_map, Place.entryAccesses, List.map_map, ← List.filterMap_eq_map]
    rfl
  unfold Event.entering
  rw [List.filterMap_append, List.filterMap_cons_none rfl, htouches]
  split <;> simp [Event.access?]

theorem Event.access?_leaving (phase : Nat → Phase) (nested : Bool) (p : Place) :
    (Event.leaving phase nested p).filterMap Event.access? = p.exitAccesses.map fun x =>
      (x.access, x.place) := by
  have hstoring (c : Place) : (Event.storing phase nested c).filterMap Event.access? =
      (c.tracked?.toList.map fun b => (⟨p.exitTime, ⟨b, .write⟩, c⟩ : TimedAccess)).map fun x =>
        (x.access, x.place) := by
    cases htracked : c.tracked? <;> simp [Event.storing, htracked, Event.access?]
  unfold Event.leaving Place.exitAccesses
  rw [List.filterMap_append, List.filterMap_append, List.filterMap_flatMap, List.map_flatMap]
  simp only [hstoring]
  split <;> simp [Event.access?]

namespace Trace

def noted (s : Trace) : List (Access × Place) :=
  s.events.toList.filterMap Event.access?

variable {sel : Extent} {s s' s'' : Trace} {p : Place} {xs ys : List TimedAccess}

theorem noted_record (s : Trace) (es : List Event) :
    (s.record es).noted = s.noted ++ es.filterMap Event.access? := by
  simp [noted, record]

theorem events_classify (hc : classify sel s p = .ok s') : s'.events = s.events := by
  rcases classify_cases hc with rfl | ⟨-, rfl⟩ | ⟨-, rfl | ⟨d, -, rfl⟩ | rfl | ⟨d, -, -, rfl⟩⟩ <;>
    rfl

/-- The second trace has noted some of the accesses, in their order, behind those of the first. -/
def Notes (xs : List TimedAccess) (s s' : Trace) : Prop :=
  ∃ made : List TimedAccess, made.Sublist xs ∧ s'.noted = s.noted ++ made.map fun x =>
    (x.access, x.place)

theorem Notes.of_events_eq (h : s'.events = s.events) : Notes xs s s' :=
  ⟨[], List.nil_sublist _, by simp [noted, h]⟩

theorem Notes.trans (h : Notes xs s s') (h' : Notes ys s' s'') : Notes (xs ++ ys) s s'' := by
  obtain ⟨made, hmade, hnoted⟩ := h
  obtain ⟨made', hmade', hnoted'⟩ := h'
  exact ⟨made ++ made', hmade.append hmade', by simp [hnoted, hnoted']⟩

theorem Notes.mono (h : Notes xs s s') (hsub : xs.Sublist ys) : Notes ys s s' := by
  obtain ⟨made, hmade, hnoted⟩ := h
  exact ⟨made, hmade.trans hsub, hnoted⟩

theorem notes_enter (sel : Extent) (s : Trace) (p : Place) :
    Notes p.entryAccesses s (enter sel s p).2 := by
  unfold enter
  split
  next => exact Notes.of_events_eq rfl
  next =>
    split
    next => exact Notes.of_events_eq rfl
    next =>
      split
      next =>
        split
        all_goals exact Notes.of_events_eq rfl
      next =>
        cases hc : classify sel s p with
        | error fault => exact Notes.of_events_eq rfl
        | ok s' =>
          refine ⟨_, List.Sublist.refl _, ?_⟩
          simp only [enterClassified_eq, noted_record, Event.access?_entering]
          rw [noted, noted, events_classify hc]

theorem notes_leave (s : Trace) (p : Place) : Notes p.exitAccesses s (leave s p) := by
  rcases leave_cases s p with heq | heq | heq
  · rw [heq]
    exact Notes.of_events_eq rfl
  · rw [heq]
    exact Notes.of_events_eq rfl
  · rw [heq]
    refine ⟨_, List.Sublist.refl _, ?_⟩
    rw [← Event.access?_leaving s.phaseOf (decide (0 < s.depth - p.nesting)) p, ← noted_record]
    rfl

/-- The traversal notes accesses of the forest in their order, though not all of them where it skips
or stops. -/
theorem notes_walk (sel : Extent) (path : List Node) (f : SyntaxTree) (s : Trace) :
    Notes (SyntaxTree.accesses path f) s (SyntaxTree.walk (enter sel) leave path f s).state := by
  induction f generalizing path s with
  | nil => exact Notes.of_events_eq rfl
  | cons n children rest ihc ihr =>
    have hentered := notes_enter sel s ⟨n, children, path⟩
    rw [SyntaxTree.walk, SyntaxTree.accesses]
    rcases hstep : enter sel s ⟨n, children, path⟩ with ⟨step, s₁⟩
    rw [hstep] at hentered
    simp only [List.append_assoc]
    cases step with
    | abort reason => exact hentered.mono (List.sublist_append_left _ _)
    | skip =>
      apply (hentered.trans (ihr path s₁)).mono
      exact (List.Sublist.refl _).append
        ((List.sublist_append_right _ _).trans (List.sublist_append_right _ _))
    | descend =>
      have hbelow := ihc (n :: path) s₁
      simp only
      split
      next =>
        exact (hentered.trans hbelow).mono
          ((List.Sublist.refl _).append (List.sublist_append_left _ _))
      next =>
        exact hentered.trans (hbelow.trans ((notes_leave _ ⟨n, children, path⟩).trans (ihr path _)))

theorem noted_pairwise {R : Access × Place → Access × Place → Prop} {f : SyntaxTree} (sel : Extent)
    (hfirst : (f.numberFrom 0).first = f.numberFrom 0)
    (hR : ∀ x ∈ SyntaxTree.accesses [] (f.numberFrom 0),
      ∀ y ∈ SyntaxTree.accesses [] (f.numberFrom 0),
      x.time ≤ y.time → R (x.access, x.place) (y.access, y.place)) :
    (ofSelection (f.numberFrom 0) sel).noted.Pairwise R := by
  obtain ⟨made, hmade, hnoted⟩ := notes_walk sel [] (f.numberFrom 0) {}
  have hall : (ofSelection (f.numberFrom 0) sel).noted = made.map fun x => (x.access, x.place) := by
    rw [ofSelection, hfirst, hnoted]
    rfl
  rw [hall, List.pairwise_map]
  have hordered := (SyntaxTree.accesses_ordered [] f 0).imp_of_mem fun hx hy hle => hR _ hx _ hy hle
  exact hordered.sublist hmade

end Trace

namespace Event

def AccessesAt (mode : AccessMode) (places : List Place) (e : Event) : Prop :=
  (e.access?.any fun x => decide (x.1.mode = mode ∧ x.2 ∈ places)) = true

instance (mode : AccessMode) (places : List Place) (e : Event) :
    Decidable (e.AccessesAt mode places) :=
  inferInstanceAs (Decidable (_ = true))

theorem AccessesAt.exists_access {mode : AccessMode} {places : List Place} {e : Event}
    (h : e.AccessesAt mode places) :
    ∃ x, e.access? = some x ∧ x.1.mode = mode ∧ x.2 ∈ places := by
  obtain ⟨x, hx, hat⟩ := (Option.any_eq_true _ _).mp h
  exact ⟨x, hx, of_decide_eq_true hat⟩

/-- Every access of one mode at one of the first places comes before every access of the other mode
at one of the second places. -/
def Precede (mode : AccessMode) (places : List Place) (mode' : AccessMode) (places' : List Place)
    (es : List Event) :
    Prop :=
  es.Pairwise fun e e' => ¬ (e.AccessesAt mode' places' ∧ e'.AccessesAt mode places)

instance (mode : AccessMode) (places : List Place) (mode' : AccessMode) (places' : List Place)
    (es : List Event) :
    Decidable (Precede mode places mode' places' es) :=
  inferInstanceAs (Decidable (List.Pairwise _ _))

theorem precede_of_times {f : SyntaxTree} {mode mode' : AccessMode} {places places' : List Place}
    (sel : Extent) (hfirst : (f.numberFrom 0).first = f.numberFrom 0)
    (h : ∀ x ∈ SyntaxTree.accesses [] (f.numberFrom 0),
      ∀ y ∈ SyntaxTree.accesses [] (f.numberFrom 0),
      x.access.mode = mode → x.place ∈ places → y.access.mode = mode' → y.place ∈ places' →
        x.time < y.time) :
    Precede mode places mode' places' (Trace.ofSelection (f.numberFrom 0) sel).events.toList := by
  have hnoted : (Trace.ofSelection (f.numberFrom 0) sel).noted.Pairwise fun x y =>
      ¬ ((x.1.mode = mode' ∧ x.2 ∈ places') ∧ y.1.mode = mode ∧ y.2 ∈ places) := by
    refine Trace.noted_pairwise sel hfirst fun y hy x hx hle hboth => ?_
    obtain ⟨⟨hmode', hplace'⟩, hmode, hplace⟩ := hboth
    have := h x hx y hy hmode hplace hmode' hplace'
    omega
  rw [Trace.noted, List.pairwise_filterMap] at hnoted
  refine hnoted.imp fun hpair hboth => ?_
  obtain ⟨y, hy, hlate⟩ := hboth.1.exists_access
  obtain ⟨x, hx, hearly⟩ := hboth.2.exists_access
  exact hpair y hy x hx ⟨hlate, hearly⟩

end Event

end Extraction
