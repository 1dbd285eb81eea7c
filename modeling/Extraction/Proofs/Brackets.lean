import Extraction.Proofs.FlowTree
import Extraction.Proofs.Topmost

/-!
# The events of a method are well bracketed

From the moment the enclosing method is found, the events of entering and leaving the nodes in it
are the brackets of its tree: each node is entered once and left once, in the same phase and at the
same nesting, and what lies below it is entered and left in between.  An event is nested if a
function or type inside the method stands around its node.
-/

namespace Extraction

namespace Place

/-- The ancestors of a place below those of `top`, which it has too. -/
def upper (top : List Node) (p : Place) : List Node :=
  p.ancestors.take (p.ancestors.length - top.length)

/-- A function or type inside `m` stands around the place. -/
def NestedIn (m p : Place) : Prop :=
  ∃ q ∈ m.inner, q.node.kind.isScope = true ∧ p ∈ q.inner

instance (m p : Place) : Decidable (m.NestedIn p) :=
  inferInstanceAs (Decidable (∃ q ∈ m.inner, _))

theorem upper_of_ancestors {top : List Node} (above : List Node) {p : Place}
    (h : p.ancestors = above ++ top) :
    p.upper top = above := by
  rw [upper, h, List.length_append, Nat.add_sub_cancel, List.take_left]

end Place

namespace Event

/-- A forest with an event before and an event after each of its trees. -/
def brackets (phase : Place → Phase) (nested : Place → Bool) (path : List Node) :
    SyntaxTree → List Event
  | .nil => []
  | .cons n children rest =>
    let p : Place := ⟨n, children, path⟩
    ⟨.enter, phase p, nested p, p⟩ ::
      (brackets phase nested (n :: path) children ++
        ⟨.leave, phase p, nested p, p⟩ :: brackets phase nested path rest)

open SyntaxTree

variable {phase : Nat → Phase} {path : List Node} {f : SyntaxTree} {offset : Int} {id : Nat}
  {e : Event}

def depthOf (above : List Node) : Int :=
  above.countP fun k => k.kind.isScope

theorem depthOf_cons (n : Node) (children : SyntaxTree) (path above : List Node) :
    depthOf above + Place.nesting ⟨n, children, path⟩ = depthOf (n :: above) := by
  cases hk : n.kind.isScope <;> simp [depthOf, Place.nesting, hk]

theorem depthOf_pos (above : List Node) :
    decide (0 < depthOf above) = above.any fun k => k.kind.isScope := by
  rw [Bool.eq_iff_iff]
  simp [depthOf, List.countP_pos_iff]

variable (phase) in
/-- The stream of a forest, without what is recorded in between, is its brackets. -/
theorem filter_stream (top above : List Node) (f : SyntaxTree) :
    ((stream phase (depthOf above) (above ++ top) f).filter fun e => e.IsBracket) =
      brackets (fun p => phase p.node.id) (fun p => (p.upper top).any fun k => k.kind.isScope)
      (above ++ top) f := by
  induction f generalizing above with
  | nil => rfl
  | cons n children rest ihc ihr =>
    have hupper : Place.upper top ⟨n, children, above ++ top⟩ = above :=
      Place.upper_of_ancestors above rfl
    have hchildren := ihc (n :: above)
    rw [List.cons_append] at hchildren
    simp only [stream, brackets, List.filter_append, filter_entering, filter_leaving, depthOf_cons,
      Place.below, hchildren, ihr, hupper, depthOf_pos, List.append_assoc, List.cons_append,
      List.nil_append]

variable (phase) in
theorem filter_stream_zero (top : List Node) (f : SyntaxTree) :
    ((stream phase 0 top f).filter fun e => e.IsBracket) =
      brackets (fun p => phase p.node.id)
      (fun p => (p.upper top).any fun k => k.kind.isScope) top f :=
  filter_stream phase top [] f

theorem isScope_eq_false_of_mem_stores {p c : Place} (hc : c ∈ p.stores) :
    p.node.kind.isScope = false := by
  cases hk : p.node.kind <;> simp_all [Place.stores, Kind.isScope]

theorem nested_eq_of_mem_stream (top above : List Node)
    (he : e ∈ stream phase (depthOf above) (above ++ top) f) :
    e.nested = (e.place.upper top).any fun k => k.kind.isScope := by
  induction f generalizing above with
  | nil => cases he
  | cons n children rest ihc ihr =>
    have hupper : Place.upper top ⟨n, children, above ++ top⟩ = above :=
      Place.upper_of_ancestors above rfl
    simp only [stream, depthOf_cons, Place.below, List.mem_append] at he
    rcases he with ((he | he) | he) | he
    · rw [nested_of_mem_entering he, (Trace.place_of_mem_entering he).2, hupper, depthOf_pos]
    · exact ihc (n :: above) he
    · rw [nested_of_mem_leaving he, depthOf_pos]
      rcases mem_leaving.mp he with ⟨c, hc, b, -, rfl⟩ | ⟨-, rfl⟩ | rfl
      · have hplain : n.kind.isScope = false := isScope_eq_false_of_mem_stores hc
        rcases Place.mem_stores hc with ⟨-, rfl⟩ | ⟨hchild, -⟩
        · rw [hupper]
        · rw [Place.upper_of_ancestors (n :: above) (SyntaxTree.rootPlaces_subset _ _ _ hchild).2,
            List.any_cons, hplain, Bool.false_or]
      · rw [hupper]
      · rw [hupper]
    · exact ihr above he

theorem place_mem_of_mem_brackets {phase : Place → Phase} {nested : Place → Bool}
    (he : e ∈ brackets phase nested path f) : e.place ∈ placesBelow path f := by
  induction f generalizing path with
  | nil => cases he
  | cons n children rest ihc ihr =>
    simp only [brackets, List.mem_cons, List.mem_append] at he
    simp only [placesBelow, List.mem_cons, List.mem_append]
    rcases he with rfl | he | rfl | he
    · exact Or.inl rfl
    · exact Or.inr (Or.inl (ihc he))
    · exact Or.inl rfl
    · exact Or.inr (Or.inr (ihr he))

theorem brackets_congr {phase : Place → Phase} {nested nested' : Place → Bool}
    (h : ∀ p ∈ placesBelow path f, nested p = nested' p) :
    brackets phase nested path f = brackets phase nested' path f := by
  induction f generalizing path with
  | nil => rfl
  | cons n children rest ihc ihr =>
    simp only [placesBelow, List.forall_mem_cons, List.forall_mem_append] at h
    simp only [brackets, h.1, ihc h.2.1, ihr h.2.2]

theorem filter_brackets_of_notMem {phase : Place → Phase} {nested : Place → Bool} {p : Place}
    (hp : p ∉ placesBelow path f) :
    ((brackets phase nested path f).filter fun e => e.place = p) = [] := by
  apply List.filter_eq_nil_iff.mpr
  intro e he heq
  exact hp (of_decide_eq_true heq ▸ place_mem_of_mem_brackets he)

theorem filter_brackets (phase : Place → Phase) (nested : Place → Bool)
    (hnodup : (placesBelow path f).Nodup) {p : Place} (hp : p ∈ placesBelow path f) :
    ((brackets phase nested path f).filter fun e => e.place = p) =
      [⟨.enter, phase p, nested p, p⟩, ⟨.leave, phase p, nested p, p⟩] := by
  induction f generalizing path with
  | nil => cases hp
  | cons n children rest ihc ihr =>
    rw [placesBelow, List.nodup_cons, List.nodup_append] at hnodup
    obtain ⟨hhere, hchildren, hrest, hapart⟩ := hnodup
    simp only [placesBelow, List.mem_cons, List.mem_append] at hp
    rw [brackets]
    rcases hp with rfl | hp
    · rw [List.filter_cons_of_pos (by simp), List.filter_append, List.filter_cons_of_pos (by simp),
        filter_brackets_of_notMem fun hin => hhere (List.mem_append_left _ hin),
        filter_brackets_of_notMem fun hin => hhere (List.mem_append_right _ hin)]
      rfl
    · have hne : (⟨n, children, path⟩ : Place) ≠ p :=
        fun heq => hhere (heq ▸ List.mem_append.mpr hp)
      rw [List.filter_cons_of_neg (by simpa using hne), List.filter_append,
        List.filter_cons_of_neg (by simpa using hne)]
      rcases hp with hp | hp
      · rw [ihc hchildren hp, filter_brackets_of_notMem fun hin => hapart p hp p hin rfl,
          List.append_nil]
      · rw [ihr hrest hp, filter_brackets_of_notMem fun hin => hapart p hin p hp rfl,
          List.nil_append]

end Event

open SyntaxTree

theorem Place.nestedIn_iff {path : List Node} {f : SyntaxTree} {offset : Int} {id : Nat}
    (h : Laid offset id f) (hpath : ∀ n ∈ path, n.id < id) {m p : Place}
    (hm : m ∈ placesBelow path f) (hp : p ∈ m.inner) :
    m.NestedIn p ↔ (p.upper m.below).any (fun k => k.kind.isScope) = true := by
  obtain ⟨above, habove, hinside⟩ := exists_upper hp
  rw [upper_of_ancestors above habove, List.any_eq_true]
  constructor
  · rintro ⟨q, hq, hscope, hpq⟩
    refine ⟨q.node, ?_, hscope⟩
    obtain ⟨between, hbetween, -⟩ := exists_upper hpq
    obtain ⟨beyond, hbeyond, -⟩ := exists_upper hq
    have hsame : above = between ++ q.node :: beyond := by
      refine List.append_cancel_right (?_ : _ ++ m.below = _ ++ m.below)
      rw [← habove, hbetween, Place.below, hbeyond]
      simp
    simp [hsame]
  · rintro ⟨k, hk, hscope⟩
    have hc := (laid_children h hm).1
    have hbelow : ∀ n ∈ m.below, n.id < m.node.id + 1 :=
      List.forall_mem_cons.mpr
        ⟨Nat.lt_succ_self _, fun n hn => Nat.lt_succ_of_lt (ancestor_lt h hpath hm n hn)⟩
    rcases ancestor_cases hp k (by rw [habove]; exact List.mem_append_left _ hk)
      with hout | ⟨q, hq, rfl, hpq⟩
    · have := hbelow k hout
      have := laid_bounds hc (hinside k hk)
      omega
    · exact ⟨q, hq, hscope, hpq⟩

namespace Trace

structure Bracketed (m : Place) (es : List Event) : Prop where
  /-- The nodes below `m` are entered and left in the order of the tree. -/
  mirrors : ∃ phase : Place → Phase, (es.filter fun e => e.IsBracket ∧ e.place ∈ m.inner) =
    Event.brackets phase (fun p => m.NestedIn p) m.below m.children
  once : ∀ p ∈ m.inner, ∃ phase nested, (es.filter fun e => e.IsBracket ∧ e.place = p) =
    [⟨.enter, phase, nested, p⟩, ⟨.leave, phase, nested, p⟩]
  nested : ∀ e ∈ es, e.place ∈ m.inner → (e.nested = true ↔ m.NestedIn e.place)

variable {sel : Extent} {path : List Node} {f : SyntaxTree} {offset : Int} {id : Nat} {m : Place}

theorem bracketed_stream (phase : Nat → Phase) (h : Laid offset id f)
    (hpath : ∀ n ∈ path, n.id < id) (hm : m ∈ placesBelow path f) {later : List Event}
    (hlater : ∀ e ∈ later, e.place ∉ m.inner) :
    Bracketed m (Event.stream phase 0 m.below m.children ++ later) := by
  have hnested : ∀ p ∈ m.inner, decide (m.NestedIn p) = (p.upper m.below).any fun k =>
      k.kind.isScope := fun p hp => by
    rw [Bool.eq_iff_iff, decide_eq_true_iff, Place.nestedIn_iff h hpath hm hp]
  have hbrackets : ((Event.stream phase 0 m.below m.children ++ later).filter fun e => e.IsBracket ∧
      e.place ∈ m.inner) =
      Event.brackets (fun p => phase p.node.id) (fun p => m.NestedIn p) m.below m.children := by
    have hinside : ∀ e ∈ Event.stream phase 0 m.below m.children,
        decide (e.IsBracket ∧ e.place ∈ m.inner) = decide e.IsBracket := fun e he => by
      simp [show e.place ∈ m.inner from (Event.place_of_mem_stream he).2]
    have houtside : (later.filter fun e => e.IsBracket ∧ e.place ∈ m.inner) = [] := by
      apply List.filter_eq_nil_iff.mpr
      exact fun e he hin => hlater e he (of_decide_eq_true hin).2
    rw [List.filter_append, List.filter_congr hinside, houtside, List.append_nil,
      Event.brackets_congr hnested, Event.filter_stream_zero]
  refine ⟨⟨_, hbrackets⟩, fun p hp => ⟨phase p.node.id, m.NestedIn p, ?_⟩, fun e he hin => ?_⟩
  · have hnodup := nodup_placesBelow m.below (laid_children h hm).1
    have honce := Event.filter_brackets (fun p => phase p.node.id) (fun p => m.NestedIn p) hnodup hp
    rw [← hbrackets, List.filter_filter] at honce
    refine Eq.trans (List.filter_congr ?_) honce
    intro e _
    by_cases heq : e.place = p
    · simp [heq, hp]
    · simp [heq]
  · rcases List.mem_append.mp he with he | he
    · rw [Place.nestedIn_iff h hpath hm hin, Event.nested_eq_of_mem_stream m.below [] he]
    · exact absurd hin (hlater e he)

theorem exists_finds_of_method {t : SyntaxTree} (h : Laid 0 0 t.first) (hm : m ∈ places t.first)
    (hmethod : (ofSelection t sel).method = some m.node) :
    ∃ start, Finds sel [] t.first {} m start := by
  by_cases henclosed : Enclosed sel t.first
  · obtain ⟨m', start, hf⟩ := exists_finds_of_enclosed h henclosed
    obtain ⟨a, b, hlocated⟩ := hf.settled.located h hf.mem hf.encloses
    have hnode : m'.node = m.node := Option.some.inj (hlocated.method.symm.trans hmethod)
    rw [← place_unique h hf.mem hm (by rw [hnode])]
    exact ⟨start, hf⟩
  · rw [ofSelection_of_not_enclosed henclosed] at hmethod
    cases hmethod

/-- Let `m` be the enclosing method.  The traversal came to it and made it the enclosing method;
nothing had been recorded for a node in it before, and what was recorded from then on is well
bracketed within it. -/
theorem events_bracketed (s : Sketch) (sel : Extent) (m : Place) (hm : m ∈ s.layout.places)
    (hmethod : (ofSelection s.layout sel).method = some m.node) :
    ∃ start later, (m, start) ∈ arrivals (enter sel) leave [] s.layout.first {} ∧
      enter sel start m = (.descend, start.restart m.node) ∧
      (ofSelection s.layout sel).events.toList = start.events.toList ++ later ∧
      (∀ e ∈ start.events.toList, e.place ∉ m.inner) ∧ Bracketed m later := by
  have h : Laid 0 0 s.layout := laid_layout s
  obtain ⟨start, hf⟩ := exists_finds_of_method (t := s.layout) h hm hmethod
  obtain ⟨a, b, hsplits, ha⟩ := exists_splits sel (laid_children h hm).1
  obtain ⟨later, hevents, hlater⟩ := hf.settled.events_eq h hm hsplits ha
  obtain ⟨-, -, hquiet, -⟩ := hf.settled
  refine ⟨start, _, hf.arrives, ?_, hevents.trans (List.append_assoc _ _ _), fun e he hin => ?_, ?_⟩
  · simp [enter, hquiet.complete, hf.encloses]
  · have hbefore : e.place.node.start < m.node.start := (hquiet.events e he).2
    have := inner_bounds h hm hin
    omega
  · apply bracketed_stream (Phase.among a b) h (List.forall_mem_nil _) hm
    exact fun e he hin => (hlater e he).2.2 e.place hin rfl

/-- A method with a lambda in it: the statement that holds the lambda, and a return. -/
def callback : Sketch :=
  .file [some (.method "m" true []
    [some (.eval (some (.lambda true [some (.eval (some (.call "f" [] [])))]))), some (.ret none)])]

theorem callback_bracketed :
    ∃ m ∈ callback.layout.places, (ofSelection callback.layout ⟨3, 10⟩).method = some m.node ∧
    (∃ p ∈ m.inner, m.NestedIn p) ∧
    ∃ start later, (m, start) ∈ arrivals (enter ⟨3, 10⟩) leave [] callback.layout.first {} ∧
      (ofSelection callback.layout ⟨3, 10⟩).events.toList = start.events.toList ++ later ∧
      Bracketed m later := by
  have hexists : ∃ m ∈ callback.layout.places, (ofSelection callback.layout ⟨3, 10⟩).method =
      some m.node ∧ ∃ p ∈ m.inner, m.NestedIn p := by decide +kernel
  obtain ⟨m, hm, hmethod, hnested⟩ := hexists
  obtain ⟨start, later, harrives, -, hevents, -, hbracketed⟩ :=
    events_bracketed callback ⟨3, 10⟩ m hm hmethod
  exact ⟨m, hm, hmethod, hnested, start, later, harrives, hevents, hbracketed⟩

end Trace

end Extraction
