import Mathlib.Logic.Relation
import Extraction.Proofs.Selected
import Extraction.Proofs.Variables

/-!
# Accesses of a selection

The variables read and written in a selection are those of the accesses recorded for it, and these
are the accesses of the places of the tree.  A name is read, or written by an increment, when it is
entered; an assignment or a declaration writes when it is left.  So all that is recorded before a
place is entered comes from places that begin before it, and every write among it from a place that
ends before it.
-/

namespace Extraction

def Event.preceding? (e : Event) : Option PrecedingAccess :=
  match e.kind with
  | .name a => if e.phase = .before then some { a with place := e.place } else none
  | _ => none

theorem Event.preceding?_eq_some {e : Event} {a : PrecedingAccess} :
    e.preceding? = some a ↔ e.phase = .before ∧ e.kind = .name a.toAccess ∧ e.place = a.place := by
  obtain ⟨access, place⟩ := a
  unfold preceding?
  split
  next b hb =>
    split
    next hphase => simp [hphase, hb]
    next hphase => simp [hphase]
  next hk => exact ⟨nofun, fun h => absurd h.2.1 (hk _)⟩

def Event.Accesses (e : Event) (x : Phase) (a : Access) : Prop :=
  e.phase = x ∧ e.kind = .name a

namespace Locals

variable {s : Locals} {v : Binding} {e : Event}

theorem note_eq (s : Locals) (b : Binding) : ∃ vars, s.note b = { s with vars := vars } := by
  unfold note
  split
  · exact ⟨s.vars, rfl⟩
  · exact ⟨_, rfl⟩

/-! ### Repeated accesses -/

theorem foldl_replay_eq (as : List PrecedingAccess) (acc : Locals × List Binding) :
    ∃ vars reads, (as.foldl replay acc).1 = { acc.1 with vars := vars, followingReads := reads } ∧
      ∀ v ∈ acc.1.followingReads, v ∈ reads := by
  induction as generalizing acc with
  | nil => exact ⟨acc.1.vars, acc.1.followingReads, rfl, fun _ h => h⟩
  | cons a as ih =>
    obtain ⟨vars, reads, heq, hsub⟩ := ih (replay acc a)
    obtain ⟨vars', hnote⟩ := note_eq acc.1 a.binding
    have hstep : ∃ reads', (replay acc a).1 =
        { acc.1 with vars := vars', followingReads := reads' } ∧
        ∀ v ∈ acc.1.followingReads, v ∈ reads' := by
      unfold replay
      simp only [hnote]
      split
      · exact ⟨acc.1.followingReads, rfl, fun _ h => h⟩
      · split
        · exact ⟨acc.1.followingReads, rfl, fun _ h => h⟩
        · exact ⟨_, rfl, fun _ h => List.mem_insert_of_mem h⟩
    obtain ⟨reads', hstep, hsub'⟩ := hstep
    rw [hstep] at heq hsub
    exact ⟨vars, reads, heq, fun v hv => hsub v (hsub' v hv)⟩

theorem mem_killed_replay {acc : Locals × List Binding} {a : PrecedingAccess} :
    v ∈ (replay acc a).2 ↔ v ∈ acc.2 ∨ a.toAccess = ⟨v, .write⟩ := by
  obtain ⟨⟨binding, mode⟩, place⟩ := a
  cases mode with
  | write => simp [replay, or_comm, eq_comm]
  | read =>
    simp only [replay]
    split <;> simp

theorem mem_killed_foldl_replay {as : List PrecedingAccess} {acc : Locals × List Binding} :
    v ∈ (as.foldl replay acc).2 ↔ v ∈ acc.2 ∨ ∃ a ∈ as, a.toAccess = ⟨v, .write⟩ := by
  induction as generalizing acc with
  | nil => simp
  | cons a as ih => simp [ih, mem_killed_replay, or_assoc]

theorem mem_followingReads_replay {l r : List PrecedingAccess} {a : PrecedingAccess}
    {acc : Locals × List Binding} (ha : a.toAccess = ⟨v, .read⟩) (hkilled : v ∉ acc.2)
    (hl : ∀ x ∈ l, x.toAccess ≠ ⟨v, .write⟩) :
    v ∈ ((l ++ a :: r).foldl replay acc).1.followingReads := by
  rw [List.foldl_append, List.foldl_cons]
  obtain ⟨vars, reads, heq, hsub⟩ := foldl_replay_eq r (replay (l.foldl replay acc) a)
  rw [heq]
  apply hsub
  have hfree : v ∉ (l.foldl replay acc).2 := by
    rw [mem_killed_foldl_replay]
    rintro (h | ⟨x, hx, hw⟩)
    · exact hkilled h
    · exact hl x hx hw
  obtain ⟨⟨binding, mode⟩, place⟩ := a
  cases ha
  simp [replay, hfree]

/-! ### One event -/

/-- All that an event does: an access is counted, and whatever else happens only adds following
reads. -/
theorem step_cases (s : Locals) (e : Event) :
    (∃ a, e.kind = .name a ∧ s.step e = s.count e.phase a e.place) ∨
      (∀ a, e.kind ≠ .name a) ∧ ∃ vars reads loops seen,
        s.step e = { s with vars := vars, followingReads := reads, loops := loops, seen := seen } ∧
          ∀ v ∈ s.followingReads, v ∈ reads := by
  cases hk : e.kind with
  | name a => exact Or.inl ⟨a, rfl, by simp [step, hk]⟩
  | enter =>
    refine Or.inr ⟨by simp, ?_⟩
    simp only [step, hk]
    split
    · exact ⟨s.vars, s.followingReads, _, _, rfl, fun _ h => h⟩
    · exact ⟨s.vars, s.followingReads, s.loops, s.seen, rfl, fun _ h => h⟩
  | leave =>
    refine Or.inr ⟨by simp, ?_⟩
    simp only [step, hk]
    split
    · split
      · obtain ⟨vars, reads, heq, hsub⟩ :=
          foldl_replay_eq (s.preceding.filter (repeats e.place)) (s, s.followingWrites)
        rw [reenter, heq]
        exact ⟨vars, reads, _, s.seen, rfl, hsub⟩
      · exact ⟨s.vars, s.followingReads, s.loops, s.seen, rfl, fun _ h => h⟩
    · exact ⟨s.vars, s.followingReads, s.loops, s.seen, rfl, fun _ h => h⟩
  | call | catches =>
    refine Or.inr ⟨by simp, s.vars, s.followingReads, s.loops, s.seen, ?_, fun _ h => h⟩
    simp [step, hk]

theorem mem_collected_step (v : Binding) (s : Locals) (e : Event) :
    (v ∈ (s.step e).selectedReads ↔ v ∈ s.selectedReads ∨ e.Accesses .selected ⟨v, .read⟩) ∧
      (v ∈ (s.step e).selectedWrites ↔ v ∈ s.selectedWrites ∨ e.Accesses .selected ⟨v, .write⟩) ∧
      (v ∈ (s.step e).followingWrites ↔ v ∈ s.followingWrites ∨ e.Accesses .after ⟨v, .write⟩) := by
  rcases step_cases s e with ⟨⟨b, mode⟩, hk, hstep⟩ | ⟨hk, vars, reads, loops, seen, hstep, -⟩
  · rw [hstep]
    simp only [Event.Accesses, hk]
    cases hphase : e.phase <;> cases mode <;> simp [count, or_comm, eq_comm]
    split <;> simp
  · rw [hstep]
    simp [Event.Accesses, hk]

theorem preceding_step (s : Locals) (e : Event) :
    (s.step e).preceding = s.preceding ++ e.preceding?.toList := by
  rcases step_cases s e with ⟨⟨b, mode⟩, hk, hstep⟩ | ⟨hk, vars, reads, loops, seen, hstep, -⟩
  · rw [hstep]
    obtain ⟨vars, hnote⟩ := note_eq s b
    simp only [Event.preceding?, hk]
    cases hphase : e.phase <;> cases mode <;> simp [count, hnote]
    split <;> rfl
  · rw [hstep, Event.preceding?]
    cases hkind : e.kind with
    | name a => exact absurd hkind (hk a)
    | _ => simp

theorem followingReads_step (h : v ∈ s.followingReads) (e : Event) :
    v ∈ (s.step e).followingReads := by
  rcases step_cases s e with ⟨⟨b, mode⟩, hk, hstep⟩ | ⟨hk, vars, reads, loops, seen, hstep, hsub⟩
  · rw [hstep]
    cases hphase : e.phase <;> cases mode <;> simp [count, h]
    split <;> simp [h]
  · rw [hstep]
    exact hsub v h

/-! ### All events -/

theorem mem_collected_foldl (v : Binding) (es : List Event) (s : Locals) :
    (v ∈ (es.foldl step s).selectedReads ↔ v ∈ s.selectedReads ∨
      ∃ e ∈ es, e.Accesses .selected ⟨v, .read⟩) ∧
      (v ∈ (es.foldl step s).selectedWrites ↔ v ∈ s.selectedWrites ∨
        ∃ e ∈ es, e.Accesses .selected ⟨v, .write⟩) ∧
      (v ∈ (es.foldl step s).followingWrites ↔ v ∈ s.followingWrites ∨
          ∃ e ∈ es, e.Accesses .after ⟨v, .write⟩) := by
  induction es generalizing s with
  | nil => simp
  | cons e es ih =>
    obtain ⟨hreads, hwrites, hfollowing⟩ := ih (s.step e)
    obtain ⟨hreads', hwrites', hfollowing'⟩ := mem_collected_step v s e
    simp only [List.foldl_cons, List.mem_cons, exists_eq_or_imp, hreads, hwrites, hfollowing,
      hreads', hwrites', hfollowing', or_assoc, and_self]

theorem preceding_foldl (es : List Event) (s : Locals) :
    (es.foldl step s).preceding = s.preceding ++ es.filterMap Event.preceding? := by
  induction es generalizing s with
  | nil => simp
  | cons e es ih =>
    rw [List.foldl_cons, ih, preceding_step, List.append_assoc]
    cases h : e.preceding? <;> simp [h]

theorem followingReads_foldl (h : v ∈ s.followingReads) (es : List Event) :
    v ∈ (es.foldl step s).followingReads := by
  induction es generalizing s with
  | nil => exact h
  | cons e es ih => exact ih (followingReads_step h e)

end Locals

namespace Place

/-- Whether the place makes the access: a name when it is entered, an assignment or a declaration
when it is left. -/
def Accesses (p : Place) (a : Access) : Prop :=
  a ∈ p.touches ∨ a.mode = .write ∧ ∃ c ∈ p.stores, c.tracked? = some a.binding

/-- Whether the variable has been written when the place completes. -/
def Writes (v : Binding) (p : Place) : Prop :=
  p.Accesses ⟨v, .write⟩

def Reads (v : Binding) (p : Place) : Prop :=
  p.Accesses ⟨v, .read⟩

instance (p : Place) (a : Access) : Decidable (p.Accesses a) :=
  inferInstanceAs (Decidable (_ ∨ _))

instance (v : Binding) (p : Place) : Decidable (p.Writes v) :=
  inferInstanceAs (Decidable (p.Accesses _))

instance (v : Binding) (p : Place) : Decidable (p.Reads v) :=
  inferInstanceAs (Decidable (p.Accesses _))

end Place

namespace Moment

def Writes (v : Binding) : Moment → Prop
  | done p .normal => p.Writes v
  | _ => False

instance (v : Binding) (m : Moment) : Decidable (m.Writes v) :=
  match m with
  | done p .normal => inferInstanceAs (Decidable (p.Writes v))
  | done _ .returned | done _ .raised | done _ (.jumped _) => .isFalse fun h => h
  | enter _ | run _ _ | ran _ _ | finished _ => .isFalse fun h => h

end Moment

namespace Moves

open SyntaxTree

variable {v : Binding} {lenient : Bool} {path : List Node} {f : SyntaxTree} {k : List Ending}
  {p c : Place}

theorem past_name (hp : p ∈ exposed path f) (hkind : p.node.kind = .name)
    (hleaf : p.children = .nil) (hwrites : ¬ p.Writes v) :
    Relation.ReflTransGen (fun x y => Moves lenient path f x y ∧ ¬ y.1.Writes v)
      (.enter p, k) (.done p .normal, k) := by
  have hempty : p.part p.firstPart = [] := by rw [Place.part, hleaf]; rfl
  have hlast : none ∈ p.nextParts lenient p.firstPart := by simp [Place.nextParts, hkind]
  have hnormal : .normal ∈ p.settles := by simp [Place.settles, hkind]
  refine .head ⟨.start hp (by rw [hkind]; rfl), fun h => h⟩ ?_
  refine .head ⟨.empty hp hempty, fun h => h⟩ ?_
  exact .single ⟨.settle hp (by rw [hkind]; decide) hlast hnormal, hwrites⟩

/-- A condition that fails leads past a conditional without a second branch. -/
theorem past_conditional (hp : p ∈ exposed path f) (hkind : p.node.kind = .ifStmt)
    (hheads : p.part .heads = [c]) (helse : p.part .elsePart = []) (hwrites : ¬ p.Writes v)
    (hcondition : Relation.ReflTransGen (fun x y => Moves lenient path f x y ∧ ¬ y.1.Writes v)
      (.enter c, k) (.done c .normal, k)) :
    Relation.ReflTransGen (fun x y => Moves lenient path f x y ∧ ¬ y.1.Writes v)
      (.enter p, k) (.done p .normal, k) := by
  have htry : p.node.kind ≠ .tryStmt := by rw [hkind]; decide
  have hfirst : p.firstPart = .heads := by rw [Place.firstPart, hkind]
  have hturn : some .elsePart ∈ p.nextParts lenient .heads := by simp [Place.nextParts, hkind]
  have hlast : none ∈ p.nextParts lenient .elsePart := by simp [Place.nextParts, hkind]
  have hnormal : .normal ∈ p.settles := by simp [Place.settles, hkind]
  refine .head ⟨.start hp (by rw [hkind]; rfl), fun h => h⟩ ?_
  rw [hfirst]
  refine .head ⟨.first hp hheads, fun h => h⟩ (hcondition.trans ?_)
  refine .head ⟨.last hp (x := .heads) (l := []) hheads, fun h => h⟩ ?_
  refine .head ⟨.turn hp htry hturn, fun h => h⟩ ?_
  refine .head ⟨.empty hp helse, fun h => h⟩ ?_
  exact .single ⟨.settle hp htry hlast hnormal, hwrites⟩

end Moves

namespace Event

open SyntaxTree Trace

variable {phase : Nat → Phase} {depth : Int} {path : List Node} {f : SyntaxTree}
  {offset : Int} {id : Nat} {p t c : Place} {a : Access} {v : Binding} {e : Event}

theorem access_of_mem_entering {x : Phase} {nested : Bool} (he : e ∈ entering x nested p)
    (hk : e.kind = .name a) :
    a ∈ p.touches := by
  rcases mem_entering.mp he with rfl | ⟨a', ha', rfl⟩ | ⟨-, rfl⟩
  · cases hk
  · cases hk
    exact ha'
  · cases hk

theorem access_of_mem_leaving {nested : Bool} (he : e ∈ leaving phase nested p)
    (hk : e.kind = .name a) :
    a.mode = .write ∧ e.place ∈ p.stores ∧ e.place.tracked? = some a.binding := by
  rcases mem_leaving.mp he with ⟨c, hc, b, hb, rfl⟩ | ⟨-, rfl⟩ | rfl
  · cases hk
    exact ⟨rfl, hc, hb⟩
  · cases hk
  · cases hk

def IsAt (phase : Nat → Phase) (t : Place) (e : Event) : Prop :=
  ∃ nested, e ∈ entering (phase t.node.id) nested t ∨ e ∈ leaving phase nested t

theorem IsAt.access (hat : e.IsAt phase t) (hk : e.kind = .name a) :
    t.Accesses a ∧ e.phase = phase e.place.node.id ∧
      (e.place = t ∨ e.place ∈ rootPlaces t.below t.children ∧ e.place.node.kind = .name) := by
  obtain ⟨nested, he | he⟩ := hat
  · obtain ⟨hphase, hplace⟩ := place_of_mem_entering he
    exact ⟨Or.inl (access_of_mem_entering he hk), hplace ▸ hphase, Or.inl hplace⟩
  · obtain ⟨hmode, hstore, htracked⟩ := access_of_mem_leaving he hk
    exact ⟨Or.inr ⟨hmode, e.place, hstore, htracked⟩, (place_of_mem_leaving he).1,
      (Place.mem_stores hstore).imp_left And.right⟩

theorem exists_isAt (he : e ∈ stream phase depth path f) :
    ∃ t ∈ placesBelow path f, e.IsAt phase t := by
  induction f generalizing path depth with
  | nil => cases he
  | cons n children rest ihc ihr =>
    simp only [stream, List.mem_append] at he
    simp only [placesBelow, List.mem_cons, List.mem_append]
    rcases he with ((he | he) | he) | he
    · exact ⟨⟨n, children, path⟩, Or.inl rfl, _, Or.inl he⟩
    · obtain ⟨t, ht, hat⟩ := ihc he
      exact ⟨t, Or.inr (Or.inl ht), hat⟩
    · exact ⟨⟨n, children, path⟩, Or.inl rfl, _, Or.inr he⟩
    · obtain ⟨t, ht, hat⟩ := ihr he
      exact ⟨t, Or.inr (Or.inr ht), hat⟩

/-- The event is recorded before the place `p` is entered: at a place `t` that is entered before, or
has been left. -/
def IsBefore (phase : Nat → Phase) (p t : Place) (e : Event) : Prop :=
  ∃ nested, t.node.id < p.node.id ∧ e ∈ entering (phase t.node.id) nested t ∨
    t.node.stop ≤ p.node.start ∧ e ∈ leaving phase nested t

theorem IsAt.isBefore (hat : e.IsAt phase t) (hid : t.node.id < p.node.id)
    (hstop : t.node.stop ≤ p.node.start) :
    e.IsBefore phase p t := by
  obtain ⟨nested, he | he⟩ := hat
  · exact ⟨nested, Or.inl ⟨hid, he⟩⟩
  · exact ⟨nested, Or.inr ⟨hstop, he⟩⟩

variable (phase depth) in
theorem stream_eq_around (h : Laid offset id f) (hp : p ∈ placesBelow path f) :
    ∃ depth' l r, stream phase depth path f =
        l ++ (entering (phase p.node.id) (decide (0 < depth')) p ++
          (stream phase (depth' + p.nesting) p.below p.children ++ leaving phase
          (decide (0 < depth')) p)) ++ r ∧
      ∀ e ∈ l, ∃ t ∈ placesBelow path f, e.IsBefore phase p t := by
  induction f generalizing path depth offset id with
  | nil => cases hp
  | cons n children rest ihc ihr =>
    have hbounds := fun {k : Node} (hk : k ∈ children.toList) => laid_bounds h.2.2.2.1 hk
    obtain ⟨hstart, hid, hstop, hc, hr⟩ := h
    simp only [placesBelow, List.mem_cons, List.mem_append] at hp ⊢
    rcases hp with rfl | hp | hp
    · exact ⟨depth, [], stream phase depth path rest, by simp [stream], List.forall_mem_nil _⟩
    · -- below the root, which has been entered and not left
      obtain ⟨depth', l, r, heq, hl⟩ := ihc (depth + Place.nesting ⟨n, children, path⟩) hc hp
      refine ⟨depth', entering (phase n.id) (decide (0 < depth)) ⟨n, children, path⟩ ++ l,
        r ++ leaving phase (decide (0 < depth)) ⟨n, children, path⟩ ++ stream phase depth path rest,
        ?_, fun e he => ?_⟩
      · simp only [stream, Place.below] at heq ⊢
        rw [heq]
        simp only [List.append_assoc]
      · rcases List.mem_append.mp he with he | he
        · have := laid_bounds hc (node_mem_of_mem_placesBelow hp)
          exact ⟨⟨n, children, path⟩, Or.inl rfl, _, Or.inl ⟨by simp only; omega, he⟩⟩
        · obtain ⟨t, ht, hbefore⟩ := hl e he
          exact ⟨t, Or.inr (Or.inl ht), hbefore⟩
    · -- behind the first tree, all of which has been left
      obtain ⟨depth', l, r, heq, hl⟩ := ihr depth hr hp
      have hpr := laid_bounds hr (node_mem_of_mem_placesBelow hp)
      refine ⟨depth', entering (phase n.id) (decide (0 < depth)) ⟨n, children, path⟩ ++
        stream phase (depth + Place.nesting ⟨n, children, path⟩) (n :: path) children ++
          leaving phase (decide (0 < depth)) ⟨n, children, path⟩ ++ l, r, ?_, fun e he => ?_⟩
      · rw [stream, heq]
        simp only [Place.below, List.append_assoc]
      · simp only [List.mem_append] at he
        rcases he with ((he | he) | he) | he
        · exact ⟨⟨n, children, path⟩, Or.inl rfl, _, Or.inl ⟨by simp only; omega, he⟩⟩
        · obtain ⟨t, ht, hat⟩ := exists_isAt he
          have := laid_bounds hc (node_mem_of_mem_placesBelow ht)
          exact ⟨t, Or.inr (Or.inl ht), hat.isBefore (by omega) (by omega)⟩
        · exact ⟨⟨n, children, path⟩, Or.inl rfl, _, Or.inr ⟨hpr.1, he⟩⟩
        · obtain ⟨t, ht, hbefore⟩ := hl e he
          exact ⟨t, Or.inr (Or.inr ht), hbefore⟩

variable (phase depth) in
theorem exists_mem_stream (h : Laid offset id f) (hp : p ∈ placesBelow path f) :
    ∃ nested, (∀ e ∈ entering (phase p.node.id) nested p, e ∈ stream phase depth path f) ∧
      ∀ e ∈ leaving phase nested p, e ∈ stream phase depth path f := by
  obtain ⟨depth', l, r, heq, -⟩ := stream_eq_around phase depth h hp
  refine ⟨decide (0 < depth'), fun e he => ?_, fun e he => ?_⟩ <;> rw [heq] <;> simp [he]

end Event

namespace Selects

open SyntaxTree Trace

variable {t : SyntaxTree} {w : Verdict} {q m : Place} {before chosen after : SyntaxTree}
  {sel : Extent} {a b : Nat} {s : Trace} {ds : List Diagnostic}

theorem mem_chosen_iff (hs : Selects t w q before chosen after) (h : Laid 0 0 t) (hm : m ∈ t.places)
    (hl : Located sel m a b s) (hw : w = s.verdict sel ds) {p : Place} (hp : p ∈ m.inner) :
    Phase.among a b p.node.id = .selected ↔ p ∈ placesBelow q.below chosen := by
  rw [hs.selected_iff h hm hl hw (node_mem_of_mem_placesBelow hp)]
  obtain ⟨offset, hchosen⟩ := hs.laid_chosen h
  constructor
  · rintro ⟨hle, hlt⟩
    obtain ⟨k, hk, hkp⟩ := exists_id hchosen hle hlt
    obtain ⟨p', hp', rfl⟩ := exists_place_of_mem q.below hk
    have hin : p' ∈ t.places := inner_subset hs.place p' (hs.chosen_subset p' hp')
    rw [← place_unique h hin (inner_subset hm p hp) hkp]
    exact hp'
  · intro hp'
    have := laid_bounds hchosen (node_mem_of_mem_placesBelow hp')
    omega

theorem exists_access_iff (hs : Selects t w q before chosen after) (h : Laid 0 0 t)
    (hm : m ∈ t.places) (hl : Located sel m a b s) (hw : w = s.verdict sel ds) (access : Access) :
    (∃ e ∈ s.events.toList, e.Accesses .selected access) ↔
      ∃ p ∈ placesBelow q.below chosen, p.Accesses access := by
  obtain ⟨earlier, later, hevents, hearlier, -, hlater⟩ := hl.events
  have hlaid := (laid_children h hm).1
  have hq := hs.mem_inner h hm hl hw
  have hin : ∀ p ∈ placesBelow q.below chosen, p ∈ m.inner :=
    fun p hp => inner_trans hq (hs.chosen_subset p hp)
  have hselected := fun {p : Place} (hp : p ∈ m.inner) => hs.mem_chosen_iff h hm hl hw hp
  rw [hevents]
  constructor
  · rintro ⟨e, he, hphase, hk⟩
    simp only [List.mem_append] at he
    rcases he with (he | he) | he
    · exact absurd hphase (hearlier e he).1.ne_selected
    · obtain ⟨p, hp, hat⟩ := Event.exists_isAt he
      obtain ⟨haccess, hphase', hplace⟩ := hat.access hk
      rw [hphase] at hphase'
      refine ⟨p, ?_, haccess⟩
      rcases hplace with heq | ⟨hchild, hname⟩
      · exact (hselected hp).mp (heq ▸ hphase'.symm)
      · -- a name is no statement, so the assignment to a selected name is selected
        obtain ⟨r, hr, hcr⟩ := exists_root
          ((hselected (inner_trans hp (child_mem_inner hchild))).mp hphase'.symm)
        have hrmem := (rootPlaces_subset _ _ r hr).1
        rcases hcr with heq | hcr
        · have hstatement := hs.statements r.node
            (map_node_rootPlaces q.below chosen ▸ List.mem_map_of_mem hr)
          rw [← heq, hname] at hstatement
          cases hstatement
        · rcases parent_within hlaid hp (hin r hrmem) hchild hcr with rfl | hpr
          · exact hrmem
          · exact inner_subset hrmem p hpr
    · exact absurd hphase (hlater e he).1.ne_selected
  · rintro ⟨p, hp, haccess⟩
    obtain ⟨nested, hentering, hleaving⟩ :=
      Event.exists_mem_stream (Phase.among a b) 0 hlaid (hin p hp)
    have hstream : ∀ {e : Event}, e ∈ Event.stream (Phase.among a b) 0 m.below m.children →
        e ∈ earlier ++ Event.stream (Phase.among a b) 0 m.below m.children ++ later :=
          fun he => by simp [he]
    rcases haccess with htouch | ⟨hmode, c, hc, htracked⟩
    · exact ⟨_, hstream (hentering _ (Event.mem_entering.mpr (Or.inr (Or.inl ⟨_, htouch, rfl⟩)))),
        (hselected (hin p hp)).mpr hp, rfl⟩
    · obtain ⟨v, mode⟩ := access
      cases hmode
      refine ⟨_, hstream (hleaving _ (Event.mem_leaving.mpr (Or.inl ⟨_, hc, _, htracked, rfl⟩))),
        ?_, rfl⟩
      rcases Place.mem_stores hc with ⟨-, rfl⟩ | ⟨hchild, -⟩
      · exact (hselected (hin c hp)).mpr hp
      · have hcmem := inner_subset hp c (child_mem_inner hchild)
        exact (hselected (hin c hcmem)).mpr hcmem

theorem mem_selected_iff (hs : Selects t w q before chosen after) (h : Laid 0 0 t)
    (hm : m ∈ t.places) (hl : Located sel m a b s) (hw : w = s.verdict sel ds) (v : Binding) :
    (v ∈ (Locals.ofEvents s.events.toList).selectedReads ↔
      ∃ p ∈ placesBelow q.below chosen, p.Reads v) ∧
      (v ∈ (Locals.ofEvents s.events.toList).selectedWrites ↔
          ∃ p ∈ placesBelow q.below chosen, p.Writes v) := by
  obtain ⟨hreads, hwrites, -⟩ := Locals.mem_collected_foldl v s.events.toList {}
  constructor
  · exact hreads.trans ((or_iff_right List.not_mem_nil).trans (hs.exists_access_iff h hm hl hw _))
  · exact hwrites.trans ((or_iff_right List.not_mem_nil).trans (hs.exists_access_iff h hm hl hw _))

end Selects

end Extraction
