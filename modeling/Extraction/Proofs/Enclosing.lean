import Extraction.Proofs.Phases

/-!
# The enclosing method

The functions whose bodies enclose a selection lie one inside the other.  The traversal goes down to
the outermost one through files and types only, and takes the innermost one as the enclosing
method.  What it recorded on the way stands before the selection, and what it still records on the
way up does so too: the trace of the selection is the scan of the enclosing method, set between two
such parts.
-/

namespace Extraction

namespace Kind

/-- Kinds through which the traversal descends to the outermost enclosing function. -/
def Outer (k : Kind) : Prop :=
  k = .file ∨ k = .typeDecl

instance (k : Kind) : Decidable k.Outer :=
  inferInstanceAs (Decidable (_ ∨ _))

end Kind

namespace Phase

def Early (x : Phase) : Prop :=
  x = .undefined ∨ x = .before

theorem Early.ne_selected {x : Phase} (h : x.Early) : x ≠ .selected := by
  rcases h with rfl | rfl <;> decide

end Phase

namespace SyntaxTree

variable {path : List Node} {f : SyntaxTree} {offset : Int} {id : Nat}

theorem roots_subset {α : Type} {f : Forest α} : ∀ n ∈ f.roots, n ∈ f.toList := by
  induction f with
  | nil => simp [Forest.roots]
  | cons n children rest _ ihr =>
    intro m hm
    rcases List.mem_cons.mp hm with rfl | hm
    · exact List.mem_cons_self
    · exact List.mem_cons_of_mem n (List.mem_append_right _ (ihr m hm))

variable (path) in
theorem pairwise_id (h : Laid offset id f) :
    (placesBelow path f).Pairwise fun p q => p.node.id < q.node.id := by
  induction f generalizing path offset id with
  | nil => exact List.Pairwise.nil
  | cons n children rest ihc ihr =>
    have hid : n.id = id := h.2.1
    have hc := h.2.2.2.1
    have hr := h.2.2.2.2
    refine List.pairwise_cons.mpr
      ⟨fun p hp => ?_, List.pairwise_append.mpr ⟨ihc _ hc, ihr path hr, fun p hp q hq => ?_⟩⟩
    · rcases List.mem_append.mp hp with hp | hp
      · have := laid_bounds hc (node_mem_of_mem_placesBelow hp)
        show n.id < p.node.id
        omega
      · have := laid_bounds hr (node_mem_of_mem_placesBelow hp)
        show n.id < p.node.id
        omega
    · have := laid_bounds hc (node_mem_of_mem_placesBelow hp)
      have := laid_bounds hr (node_mem_of_mem_placesBelow hq)
      omega

variable (path) in
theorem nodup_placesBelow (h : Laid offset id f) : (placesBelow path f).Nodup := by
  apply (pairwise_id path h).imp
  rintro p q hlt rfl
  exact Nat.lt_irrefl _ hlt

theorem parent_mem {p : Place} (hp : p ∈ placesBelow path f) :
    p.ancestors = path ∨ ∃ q ∈ placesBelow path f, p.ancestors = q.below ∧ p ∈ q.inner := by
  induction f generalizing path with
  | nil => cases hp
  | cons n children rest ihc ihr =>
    simp only [placesBelow, List.mem_cons, List.mem_append] at hp ⊢
    rcases hp with rfl | hp | hp
    · exact Or.inl rfl
    · refine Or.inr ?_
      rcases ihc hp with htop | ⟨q, hq, hparent⟩
      · exact ⟨⟨n, children, path⟩, Or.inl rfl, htop, hp⟩
      · exact ⟨q, Or.inr (Or.inl hq), hparent⟩
    · rcases ihr hp with htop | ⟨q, hq, hparent⟩
      · exact Or.inl htop
      · exact Or.inr ⟨q, Or.inr (Or.inr hq), hparent⟩

theorem child_ne_inner (h : Laid offset id f) {p c m q : Place} (hp : p ∈ placesBelow path f)
    (hc : c ∈ SyntaxTree.rootPlaces p.below p.children) (hm : m ∈ p.inner) (hq : q ∈ m.inner) :
    c.node.id ≠ q.node.id := by
  intro heq
  obtain ⟨hcin, hca⟩ := SyntaxTree.rootPlaces_subset _ _ _ hc
  have hcq := place_unique h (inner_subset hp c hcin) (inner_subset hp q (inner_subset hm q hq)) heq
  obtain ⟨upper, hma, _⟩ := exists_upper hm
  obtain ⟨upper', hqa, _⟩ := exists_upper hq
  have hlength := congrArg List.length hqa
  rw [← hcq, hca] at hlength
  simp only [Place.below, hma, List.length_append, List.length_cons] at hlength
  omega

end SyntaxTree

namespace Trace

open SyntaxTree

variable {sel : Extent} {path : List Node} {f : SyntaxTree} {offset : Int} {id : Nat}

theorem encloses_bounds (h : Laid offset id f) {p : Place} (hp : p ∈ placesBelow path f)
    (hs : enclosesSelection sel p = true) : p.node.start < sel.offset ∧ sel.past < p.node.stop := by
  simp only [enclosesSelection, Bool.and_eq_true, Option.any_eq_true, decide_eq_true_eq] at hs
  obtain ⟨_, b, hb, henclosed⟩ := hs
  obtain ⟨hc, hstop⟩ := laid_children h hp
  have hbounds := laid_bounds hc (roots_subset b (List.mem_of_find?_eq_some hb))
  obtain ⟨hoffset, hpast⟩ := henclosed
  omega

theorem encloses_chain (h : Laid offset id f) (hsel : sel.offset < sel.past) {p q : Place}
    (hp : p ∈ placesBelow path f) (hq : q ∈ placesBelow path f)
    (hps : enclosesSelection sel p = true) (hqs : enclosesSelection sel q = true)
    (hle : p.node.id ≤ q.node.id) : p = q ∨ q ∈ p.inner := by
  rcases Nat.lt_or_eq_of_le hle with hlt | heq
  · refine Or.inr ((inner_or_beyond h hp hq hlt).resolve_right fun hbeyond => ?_)
    have := encloses_bounds h hp hps
    have := encloses_bounds h hq hqs
    omega
  · exact Or.inl (place_unique h hp hq heq)

/-- Nothing is selected yet, and all that was recorded starts before `bound`. -/
structure Quiet (bound : Int) (s : Trace) : Prop where
  complete : s.complete = false
  fault : s.fault = none
  phase : s.phase.Early
  reach : s.reach = -1
  phases : ∀ i, (s.phaseOf i).Early
  events : ∀ e ∈ s.events.toList, e.phase.Early ∧ e.node.start < bound

theorem quiet_initial : Quiet 0 {} where
  complete := rfl
  fault := rfl
  phase := Or.inl rfl
  reach := rfl
  phases _ := Or.inl rfl
  events _ he := by cases he

theorem Quiet.mono {x y : Int} {s : Trace} (h : Quiet x s) (hxy : x ≤ y) : Quiet y s :=
  { h with events := fun e he => ⟨(h.events e he).1, Int.lt_of_lt_of_le (h.events e he).2 hxy⟩ }

theorem Quiet.restart {x : Int} {s : Trace} (h : Quiet x s) (n : Node) : Quiet x (s.restart n) :=
  { h with phase := Or.inr rfl }

theorem Quiet.classified_eq {x : Int} {s : Trace} {p : Place} (h : Quiet x s)
    (hp : p.node.start ≤ p.node.stop) (hstart : p.node.start < sel.offset) :
    classified sel s p = s := by
  have hnot : s.phase ≠ .selected := by
    rcases h.phase with he | he <;> rw [he] <;> decide
  have hc := classifies_classified sel s p hp
  generalize classified sel s p = s' at hc ⊢
  cases hc with
  | outside => rfl
  | begins _ hcover => exact absurd hcover.1 (Int.not_le.mpr hstart)
  | _ => contradiction

theorem place_of_mem_entering {phase : Phase} {nested : Bool} {p : Place} {e : Event}
    (he : e ∈ Event.entering phase nested p) : e.phase = phase ∧ e.place = p := by
  rcases Event.mem_entering.mp he with rfl | ⟨a, -, rfl⟩ | ⟨-, rfl⟩ <;> exact ⟨rfl, rfl⟩

theorem place_of_mem_leaving {phase : Nat → Phase} {nested : Bool} {p : Place} {e : Event}
    (he : e ∈ Event.leaving phase nested p) :
    e.phase = phase e.place.node.id ∧
      (e.place = p ∨ e.place ∈ SyntaxTree.rootPlaces p.below p.children) := by
  rcases Event.mem_leaving.mp he with ⟨c, hc, b, -, rfl⟩ | ⟨-, rfl⟩ | rfl
  · exact ⟨rfl, (Place.mem_stores hc).imp And.right And.left⟩
  · exact ⟨rfl, Or.inl rfl⟩
  · exact ⟨rfl, Or.inl rfl⟩

theorem kind_of_mem_leaving {phase : Nat → Phase} {nested : Bool} {p : Place} {e : Event}
    (he : e ∈ Event.leaving phase nested p) : e.kind ≠ .enter := by
  rcases Event.mem_leaving.mp he with ⟨c, -, b, -, rfl⟩ | ⟨-, rfl⟩ | rfl <;> simp

theorem Quiet.entered {x y : Int} {s : Trace} {p : Place} (h : Quiet x s)
    (hp : p.node.start ≤ p.node.stop) (hstart : p.node.start < sel.offset) (hxy : x ≤ y)
    (hy : p.node.start < y) : Quiet y (entered sel s p) := by
  rw [entered_eq, h.classified_eq hp hstart]
  refine ⟨h.complete, h.fault, h.phase, h.reach, ?_, ?_⟩
  · intro i
    rw [record_phaseOf, phaseOf, List.lookup_cons]
    split
    · exact h.phase
    · exact h.phases i
  · intro e he
    simp only [record, Array.toList_append, List.mem_append] at he
    rcases he with he | he
    · exact (h.mono hxy).events e he
    · obtain ⟨hphase, hplace⟩ := place_of_mem_entering he
      rw [hphase, Event.node, hplace]
      exact ⟨h.phase, hy⟩

theorem Quiet.left {x : Int} {s : Trace} {p : Place} (h : Quiet x s) (hp : p.node.start < x)
    (hc : ∀ c ∈ p.children.toList, c.start < x) : Quiet x (left s p) := by
  have hreach : (Trace.left s p).reach = s.reach := by
    simp only [Trace.left]
    rw [if_neg]
    rintro ⟨hsel, _⟩
    rcases h.phases p.node.id with he | he <;> rw [hsel] at he <;> cases he
  refine ⟨h.complete, h.fault, h.phase, hreach.trans h.reach, h.phases, ?_⟩
  intro e he
  simp only [Trace.left, record, Array.toList_append, List.mem_append] at he
  rcases he with he | he
  · exact h.events e he
  · obtain ⟨hphase, hplace⟩ := place_of_mem_leaving he
    rw [hphase]
    refine ⟨h.phases _, ?_⟩
    rcases hplace with rfl | hchild
    · exact hp
    · exact hc _ (node_mem_of_mem_placesBelow (rootPlaces_subset _ _ _ hchild).1)

theorem Quiet.scan (h : Laid offset id f) {s : Trace} (hs : Quiet offset s)
    (hstart : ∀ n ∈ f.toList, n.start < sel.offset) :
    Quiet (offset + 2 * f.size) (scan sel path f s) := by
  have hbound : ∀ n ∈ f.toList, n.start < offset + 2 * f.size := by
    intro n hn
    have := laid_bounds h hn
    omega
  apply scan_induction (P := Quiet (offset + 2 * f.size))
  · intro s' p hp hs'
    have hn := node_mem_of_mem_placesBelow hp
    exact hs'.entered (start_le_stop h hp) (hstart _ hn) (Int.le_refl _) (hbound _ hn)
  · intro s' p hp hs'
    refine hs'.left (hbound _ (node_mem_of_mem_placesBelow hp)) fun c hc => ?_
    obtain ⟨q, hq, rfl⟩ := exists_place_of_mem p.below hc
    exact hbound _ (node_mem_of_mem_placesBelow (inner_subset hp q hq))
  · exact hs.mono (by omega)

theorem walk_append {σ : Type} (enter : σ → Place → Step × σ) (leave : σ → Place → σ)
    (path : List Node) (f g : SyntaxTree) (s : σ) :
    walk enter leave path (f ++ g) s =
      match (walk enter leave path f s).stopped with
      | some _ => walk enter leave path f s
      | none => walk enter leave path g (walk enter leave path f s).state := by
  induction f generalizing s with
  | nil => rfl
  | cons n children rest _ ihr =>
    rw [Forest.cons_append, walk, walk]
    rcases henter : enter s ⟨n, children, path⟩ with ⟨step, s'⟩
    cases step with
    | abort reason => rfl
    | skip => exact ihr s'
    | descend =>
      simp only
      cases hstop : (walk enter leave (n :: path) children s').stopped with
      | some reason => simp only [hstop]
      | none => exact ihr _

/-- The places that a traversal comes to, each with the state in which it does. -/
def arrivals {σ : Type} (enter : σ → Place → Step × σ) (leave : σ → Place → σ) (path : List Node) :
    SyntaxTree → σ → List (Place × σ)
  | .nil, _ => []
  | .cons n children rest, s =>
    let place : Place := ⟨n, children, path⟩
    (place, s) ::
      match enter s place with
      | (.abort _, _) => []
      | (.skip, s) => arrivals enter leave path rest s
      | (.descend, s) =>
        arrivals enter leave (n :: path) children s ++
          match (walk enter leave (n :: path) children s).stopped with
          | some _ => []
          | none =>
            arrivals enter leave path rest
              (leave (walk enter leave (n :: path) children s).state place)

theorem mem_arrivals_append {σ : Type} {enter : σ → Place → Step × σ} {leave : σ → Place → σ}
    {f g : SyntaxTree} {s s' : σ} {a : Place × σ} (hwalk : walk enter leave path f s = ⟨s', none⟩)
    (ha : a ∈ arrivals enter leave path g s') : a ∈ arrivals enter leave path (f ++ g) s := by
  induction f generalizing s with
  | nil =>
    cases hwalk
    exact ha
  | cons n children rest _ ihr =>
    rw [Forest.cons_append, arrivals]
    rw [walk] at hwalk
    refine List.mem_cons_of_mem _ ?_
    rcases henter : enter s ⟨n, children, path⟩ with ⟨step, s₁⟩
    rw [henter] at hwalk
    cases step with
    | abort reason => cases hwalk
    | skip => exact ihr hwalk
    | descend =>
      simp only at hwalk ⊢
      cases hstop : (walk enter leave (n :: path) children s₁).stopped with
      | some reason =>
        simp only [hstop] at hwalk
        rw [hwalk] at hstop
        cases hstop
      | none =>
        simp only [hstop] at hwalk
        exact List.mem_append_right _ (ihr hwalk)

theorem walk_complete (sel : Extent) (path : List Node) (f : SyntaxTree) (s : Trace)
    (h : s.complete = true) :
    (walk (enter sel) leave path f s).state = s := by
  cases f with
  | nil => rfl
  | cons n children rest => simp [walk, enter, h]

/-- Above all enclosing functions nothing is recorded: what is not a file or a type is skipped. -/
theorem walk_outer (s : Trace) (hm : s.method = none) (hcomplete : s.complete = false)
    (hpath : ∀ a ∈ path, a.kind.Outer)
    (hno : ∀ p ∈ placesBelow path f, enclosesSelection sel p = true →
    ∃ a ∈ p.ancestors, ¬ a.kind.Outer) :
    walk (enter sel) leave path f s = ⟨s, none⟩ := by
  induction f generalizing path with
  | nil => rfl
  | cons n children rest ihc ihr =>
    simp only [placesBelow, List.mem_cons, List.mem_append] at hno
    have hn : enclosesSelection sel ⟨n, children, path⟩ = false := by
      refine Bool.eq_false_iff.mpr fun hs => ?_
      obtain ⟨a, ha, hout⟩ := hno _ (Or.inl rfl) hs
      exact hout (hpath a ha)
    have hrest := ihr hpath fun p hp => hno p (Or.inr (Or.inr hp))
    have hdescend : n.kind.Outer → walk (enter sel) leave (n :: path) children s = ⟨s, none⟩ :=
      fun hout =>
      ihc (List.forall_mem_cons.mpr ⟨hout, hpath⟩) fun p hp => hno p (Or.inr (Or.inl hp))
    have hleave : leave s ⟨n, children, path⟩ = s := by simp [leave, hm]
    by_cases hfile : n.kind = .file
    · simp [walk, enter, hcomplete, hn, hm, hfile, hdescend (Or.inl hfile), hleave, hrest]
    · by_cases htype : n.kind = .typeDecl
      · by_cases hlies : sel.LiesIn n.start n.stop
        · simp [walk, enter, hcomplete, hn, hm, htype, hlies, hdescend (Or.inr htype),
            hleave, hrest]
        · simp [walk, enter, hcomplete, hn, hm, htype, hlies, hrest]
      · have henter : enter sel s ⟨n, children, path⟩ = (.skip, s) := by
          simp only [enter, hcomplete, hn, hm, Option.isNone_none, if_true,
            Bool.false_eq_true, if_false]
        rw [walk, henter]
        exact hrest

variable (sel path) in
theorem walk_quiet (h : Laid offset id f) {s : Trace} (hs : Quiet offset s)
    (hmethod : ∀ m ∈ s.method, m.id < id) (hpath : s.method = none → ∀ a ∈ path, a.kind.Outer)
    (hnone : ∀ p ∈ placesBelow path f, enclosesSelection sel p = true →
      s.method = none ∧ ∃ a ∈ p.ancestors, ¬ a.kind.Outer)
    (hstart : ∀ n ∈ f.toList, n.start < sel.offset) :
    ∃ s', walk (enter sel) leave path f s = ⟨s', none⟩ ∧ Quiet (offset + 2 * f.size) s' ∧
      s'.method = s.method ∧ (s.method = none → s' = s) := by
  cases hm : s.method with
  | none =>
    exact ⟨s, walk_outer s hm hs.complete (hpath hm) fun p hp hps => (hnone p hp hps).2,
      hs.mono (by omega), hm, fun _ => rfl⟩
  | some m =>
    refine ⟨scan sel path f s, walk_eq_scan sel path h s m hm hs.complete ?_ ?_, hs.scan h hstart,
      (scan_frame sel path h s).1.trans hm, nofun⟩
    · intro p hp
      have := laid_bounds h (node_mem_of_mem_placesBelow hp)
      have := hmethod m hm
      omega
    · refine fun p hp => Bool.eq_false_iff.mpr fun hps => ?_
      rw [(hnone p hp hps).1] at hm
      cases hm

/-- The state once the method is left and `later` is recorded on the way up. -/
def closed (s : Trace) (later : List Event) (depth : Int) : Trace :=
  { s.record later with depth, complete := true }

theorem closed_left {s : Trace} {p : Place} (h : s.phaseOf p.node.id ≠ .selected)
    (later : List Event) (depth : Int) :
    left (s.closed later depth) p =
      s.closed (later ++ Event.leaving s.phaseOf (decide (0 < depth - p.nesting)) p)
      (depth - p.nesting) := by
  have hphaseOf : (s.closed later depth).phaseOf = s.phaseOf := rfl
  rw [left, hphaseOf, if_neg fun hsel => h hsel.1, closed, closed, ← record_record]
  rfl

theorem leave_method {s : Trace} {p : Place} (h : s.method = some p.node) :
    leave s p = s.closed [] s.depth := by
  simp [Trace.leave, h, closed]

/-- The method found so far is a function above, and before one is found nothing is recorded. -/
structure Descending (path : List Node) (s : Trace) : Prop where
  method : ∀ k ∈ s.method, k ∈ path ∧ k.kind.isFunction = true
  idle : s.method = none → s.events.toList = []

theorem descending_initial : Descending [] {} where
  method _ hk := by cases hk
  idle _ := rfl

theorem Descending.events_eq_nil {s : Trace} (h : Descending path s)
    (hpath : ∀ k ∈ path, k.kind.isFunction = false) :
    s.events.toList = [] := by
  cases hm : s.method with
  | none => exact h.idle hm
  | some k =>
    obtain ⟨hk, hfunction⟩ := h.method k hm
    rw [hpath k hk] at hfunction
    cases hfunction

/-- The method at `m` has been traversed after a quiet start, and since then nothing selected was
met, nothing entered and nothing recorded for a node of the method. -/
def Settled (sel : Extent) (m : Place) (start s : Trace) : Prop :=
  ∃ later depth, Quiet m.node.start start ∧ Descending m.ancestors start ∧
    (∀ e ∈ later, e.phase.Early ∧ e.kind ≠ .enter ∧ ∀ q ∈ m.inner, e.node.id ≠ q.node.id) ∧
    s = (scan sel m.below m.children (start.restart m.node)).closed later depth

theorem Settled.complete {m : Place} {start s : Trace} (h : Settled sel m start s) :
    s.complete = true := by
  obtain ⟨later, depth, _, _, _, rfl⟩ := h
  rfl

theorem Settled.leave (h : Laid offset id f) {p m : Place} {start s : Trace}
    (hs : Settled sel m start s) (hp : p ∈ placesBelow path f) (hm : m ∈ p.inner) :
    Settled sel m start (leave s p) := by
  obtain ⟨later, depth, hstart, hdescending, hlater, rfl⟩ := hs
  have hmp := inner_subset hp m hm
  have hchildren := (laid_children h hmp).1
  obtain ⟨a, b, hsplits, ha⟩ := exists_splits sel hchildren
  have hmethod := (scan_frame sel m.below hchildren (start.restart m.node)).1
  have hphases := scan_phaseOf m.below hchildren hsplits (start.restart m.node)
    (Phase.upTo_eq_before_iff.mpr ha).symm
  have hbounds := inner_bounds h hp hm
  rw [leave_eq_left (Trace.closed _ later depth) p m.node hmethod (by omega)]
  -- neither the node nor one of its children lies in the method
  have houtside : ∀ c, c = p ∨ c ∈ SyntaxTree.rootPlaces p.below p.children →
      ∀ q ∈ m.inner, c.node.id ≠ q.node.id := by
    rintro c (rfl | hc) q hq
    · have := inner_bounds h hmp hq
      omega
    · exact child_ne_inner h hp hc hm hq
  have hearly : ∀ c, c = p ∨ c ∈ SyntaxTree.rootPlaces p.below p.children →
      ((scan sel m.below m.children (start.restart m.node)).phaseOf c.node.id).Early := by
    intro c hc
    rw [hphases, if_neg]
    · exact hstart.phases _
    · rintro hmem
      obtain ⟨n, hn, heq⟩ := List.mem_map.mp hmem
      obtain ⟨q, hq, rfl⟩ := exists_place_of_mem m.below hn
      exact houtside c hc q hq heq.symm
  refine ⟨later ++ Event.leaving (scan sel m.below m.children (start.restart m.node)).phaseOf
    (decide (0 < depth - p.nesting)) p, depth - p.nesting, hstart, hdescending, ?_, ?_⟩
  · intro e he
    rcases List.mem_append.mp he with he | he
    · exact hlater e he
    · obtain ⟨hphase, hplace⟩ := place_of_mem_leaving he
      rw [hphase]
      exact ⟨hearly _ hplace, kind_of_mem_leaving he, houtside _ hplace⟩
  · refine closed_left ?_ later depth
    rcases hearly p (Or.inl rfl) with he | he <;> rw [he] <;> decide

theorem Quiet.enter (sel : Extent) (p : Place) {x : Int} (y : Int) {s : Trace} (hs : Quiet x s)
    (hp : p.node.start ≤ p.node.stop) (hstart : p.node.start < sel.offset)
    (hstop : sel.past ≤ p.node.stop) (hxy : x ≤ y) (hy : p.node.start < y)
    (hout : s.method = none → enclosesSelection sel p = true ∨ p.node.kind.Outer) :
    ∃ s', enter sel s p = (.descend, s') ∧ Quiet y s' ∧
      (∀ k ∈ s'.method, k ∈ s.method ∨ k = p.node ∧ p.node.kind.isFunction = true) ∧
      (s'.method = none → s' = s ∧ enclosesSelection sel p = false ∧ p.node.kind.Outer) := by
  by_cases hps : enclosesSelection sel p = true
  · refine ⟨s.restart p.node, by simp [Trace.enter, hs.complete, hps],
      (hs.restart _).mono hxy, ?_, ?_⟩
    · intro k hk
      exact Or.inr ⟨(Option.some.inj hk).symm, (Bool.and_eq_true_iff.mp hps).1⟩
    · intro hnone
      cases hnone
  · cases hm : s.method with
    | none =>
      have hk := (hout hm).resolve_left hps
      refine ⟨s, ?_, hs.mono hxy, by simp [hm], fun _ => ⟨rfl, Bool.eq_false_iff.mpr hps, hk⟩⟩
      rcases hk with hk | hk
      · simp [Trace.enter, hs.complete, hps, hm, hk]
      · have hlies : sel.LiesIn p.node.start p.node.stop := ⟨Int.le_of_lt hstart, hstop⟩
        simp [Trace.enter, hs.complete, hps, hm, hk, hlies]
    | some k =>
      have hmethod : (Trace.entered sel s p).method = some k := by
        rw [entered_eq]
        exact (classifies_classified sel s p hp).frame.1.trans hm
      refine ⟨Trace.entered sel s p, ?_, hs.entered hp hstart hxy hy, ?_, ?_⟩
      · simp [Trace.enter, hs.complete, hps, hm, classify_eq_ok sel s p hp, Trace.entered]
      · rw [hmethod]
        exact fun _ => Or.inl
      · rw [hmethod]
        intro hnone
        cases hnone

theorem closed_complete (s : Trace) (later : List Event) (depth : Int) :
    (s.closed later depth).complete = true :=
  rfl

/-- A function that encloses the selection, with none in it that does, is settled when it is
left. -/
theorem walk_method {n : Node} {children rest : SyntaxTree}
    (h : Laid offset id (.cons n children rest)) {s : Trace} (hs : Quiet offset s)
    (hdescending : Descending path s) (hns : enclosesSelection sel ⟨n, children, path⟩ = true)
    (hnone : ∀ p ∈ placesBelow (n :: path) children, enclosesSelection sel p = false) :
    Settled sel ⟨n, children, path⟩ s
      (walk (enter sel) leave path (.cons n children rest) s).state := by
  have hoffset : n.start = offset := h.1
  have hc := h.2.2.2.1
  have henter : enter sel s ⟨n, children, path⟩ = (.descend, s.restart n) := by
    simp [enter, hs.complete, hns]
  have hscan := walk_eq_scan sel (n :: path) hc (s.restart n) n rfl hs.complete
    (fun p hp => Nat.ne_of_lt (inner_bounds h (root_mem_placesBelow path n children rest) hp).2.2)
    hnone
  have hmethod := (scan_frame sel (n :: path) hc (s.restart n)).1
  rw [walk]
  simp only [henter, hscan]
  rw [leave_method (p := ⟨n, children, path⟩) hmethod,
    walk_complete _ _ _ _ (closed_complete _ _ _)]
  refine ⟨[], _, ?_, hdescending, List.forall_mem_nil _, rfl⟩
  rw [hoffset]
  exact hs

/-- The traversal comes to `m`, which encloses the selection while nothing in it does, and has
settled it at the end. -/
structure Finds (sel : Extent) (path : List Node) (f : SyntaxTree) (s : Trace) (m : Place)
    (start : Trace) : Prop where
  mem : m ∈ placesBelow path f
  arrives : (m, start) ∈ arrivals (enter sel) leave path f s
  encloses : enclosesSelection sel m = true
  innermost : ∀ p ∈ m.inner, enclosesSelection sel p = false
  settled : Settled sel m start (walk (enter sel) leave path f s).state

section Descent

variable {n : Node} {children rest : SyntaxTree} {s s' start : Trace} {m : Place}

theorem Finds.below (h : Laid offset id (.cons n children rest))
    (henter : enter sel s ⟨n, children, path⟩ = (.descend, s'))
    (hf : Finds sel (n :: path) children s' m start) :
    Finds sel path (.cons n children rest) s m start where
  mem := List.mem_cons_of_mem _ (List.mem_append_left _ hf.mem)
  arrives := by
    rw [arrivals, henter]
    exact List.mem_cons_of_mem _ (List.mem_append_left _ hf.arrives)
  encloses := hf.encloses
  innermost := hf.innermost
  settled := by
    rw [walk]
    simp only [henter]
    cases hstopped : (walk (enter sel) leave (n :: path) children s').stopped with
    | some reason => exact hf.settled
    | none =>
      have hleft := hf.settled.leave h (root_mem_placesBelow path n children rest) hf.mem
      rw [walk_complete _ _ _ _ hleft.complete]
      exact hleft

theorem Finds.behind {g : SyntaxTree} (hwalk : walk (enter sel) leave path g s = ⟨s', none⟩)
    (hf : Finds sel path f s' m start) : Finds sel path (g ++ f) s m start where
  mem := by
    rw [placesBelow_append]
    exact List.mem_append_right _ hf.mem
  arrives := mem_arrivals_append hwalk hf.arrives
  encloses := hf.encloses
  innermost := hf.innermost
  settled := by
    rw [walk_append, hwalk]
    exact hf.settled

end Descent

/-- A function that encloses the selection is in reach: a method was found above it, or files and
types alone stand there. -/
def InReach (sel : Extent) (path : List Node) (f : SyntaxTree) (s : Trace) : Prop :=
  ∃ p ∈ placesBelow path f, enclosesSelection sel p = true ∧
    (s.method = none → ∀ a ∈ p.ancestors, a.kind.Outer)

structure Approaching (offset : Int) (id : Nat) (path : List Node) (s : Trace) : Prop where
  quiet : Quiet offset s
  descending : Descending path s
  earlier : ∀ k ∈ s.method, k.id < id
  outer : s.method = none → ∀ a ∈ path, a.kind.Outer

theorem approaching_initial : Approaching 0 0 [] {} where
  quiet := quiet_initial
  descending := descending_initial
  earlier _ hk := by cases hk
  outer _ := List.forall_mem_nil _

section Reach

variable {n : Node} {children rest : SyntaxTree} {s : Trace}

theorem Approaching.enter (h : Laid offset id (.cons n children rest))
    (hs : Approaching offset id path s) {p : Place} (hp : p ∈ placesBelow (n :: path) children)
    (hps : enclosesSelection sel p = true)
    (hout : s.method = none → enclosesSelection sel ⟨n, children, path⟩ = true ∨
    ∀ a ∈ p.ancestors, a.kind.Outer) :
    ∃ s', Trace.enter sel s ⟨n, children, path⟩ = (.descend, s') ∧
      Approaching (offset + 1) (id + 1) (n :: path) s' ∧ InReach sel (n :: path) children s' := by
  have hhere : (⟨n, children, path⟩ : Place) ∈ placesBelow path (.cons n children rest) :=
    List.mem_cons_self
  have hoffset : n.start = offset := h.1
  have hid : n.id = id := h.2.1
  have hin := inner_bounds h hhere hp
  have hbounds := encloses_bounds h.2.2.2.1 hp hps
  simp only at hin
  obtain ⟨s', henter, hquiet, hmethod, hnone⟩ :=
    Quiet.enter sel ⟨n, children, path⟩ (offset + 1) hs.quiet
      (start_le_stop h hhere) (by simp only; omega) (by simp only; omega) (by omega)
      (by simp only; omega) (by
      intro hnone
      refine (hout hnone).imp_right fun hall => ?_
      obtain ⟨upper, hup, _⟩ := exists_upper hp
      exact hall n (by rw [hup]; simp))
  have hnone' : s'.method = none → s.method = none := fun he => (hnone he).1 ▸ he
  refine ⟨s', henter, ⟨hquiet, ⟨fun k hk => ?_, fun he => ?_⟩, fun k hk => ?_, fun he => ?_⟩, p, hp,
    hps, fun he => ?_⟩
  · rcases hmethod k hk with hk | ⟨rfl, hfunction⟩
    · exact ⟨List.mem_cons_of_mem _ (hs.descending.method k hk).1, (hs.descending.method k hk).2⟩
    · exact ⟨List.mem_cons_self, hfunction⟩
  · obtain ⟨rfl, _⟩ := hnone he
    exact hs.descending.idle he
  · rcases hmethod k hk with hk | ⟨rfl, _⟩
    · exact Nat.lt_succ_of_lt (hs.earlier k hk)
    · exact Nat.lt_succ_of_le (Nat.le_of_eq hid)
  · exact List.forall_mem_cons.mpr ⟨(hnone he).2.2, hs.outer (hnone' he)⟩
  · exact (hout (hnone' he)).resolve_left (by rw [(hnone he).2.1]; simp)

theorem Approaching.pass (h : Laid offset id (.cons n children .nil))
    (hs : Approaching offset id path s) (hfree : ¬ InReach sel path (.cons n children .nil) s)
    (hstop : n.stop ≤ sel.offset) :
    ∃ s', walk (Trace.enter sel) leave path (.cons n children .nil) s = ⟨s', none⟩ ∧
      Approaching n.stop (id + 1 + children.size) path s' ∧ s'.method = s.method := by
  have hsize : (Forest.cons n children .nil).size = children.size + 1 := by simp [Forest.size]
  have hoffset : offset + 2 * ((Forest.cons n children .nil).size : Int) = n.stop := by
    rw [hsize, h.2.2.1]
    omega
  have hclear : ∀ q ∈ placesBelow path (.cons n children .nil), enclosesSelection sel q = true →
      s.method = none ∧ ∃ a ∈ q.ancestors, ¬ a.kind.Outer := by
    intro q hq hqs
    refine Classical.byContradiction fun hnot => hfree ⟨q, hq, hqs, fun he a ha => ?_⟩
    exact Classical.byContradiction fun hout => hnot ⟨he, a, ha, hout⟩
  have hbefore : ∀ k ∈ (Forest.cons n children .nil).toList, k.start < sel.offset := by
    intro k hk
    have := laid_bounds h hk
    omega
  obtain ⟨s', hwalk, hquiet, hmethod, hsame⟩ :=
    walk_quiet sel path h hs.quiet hs.earlier hs.outer hclear hbefore
  refine ⟨s', hwalk, ⟨hoffset ▸ hquiet, ⟨hmethod ▸ hs.descending.method, fun he => ?_⟩,
    fun k hk => ?_, fun he => ?_⟩, hmethod⟩
  · rw [hsame (hmethod ▸ he)]
    exact hs.descending.idle (hmethod ▸ he)
  · have := hs.earlier k (hmethod ▸ hk)
    omega
  · exact hs.outer (hmethod ▸ he)

end Reach

theorem exists_finds (h : Laid offset id f) {s : Trace} (hs : Approaching offset id path s)
    (hreach : InReach sel path f s) : ∃ m start, Finds sel path f s m start := by
  induction f generalizing path offset id s with
  | nil =>
    obtain ⟨p, hp, -⟩ := hreach
    cases hp
  | cons n children rest ihc ihr =>
    have hall := h
    obtain ⟨hoffset, hid, hstop, hc, hr⟩ := h
    by_cases hbelow : ∃ p ∈ placesBelow (n :: path) children, enclosesSelection sel p = true ∧
        (s.method = none → enclosesSelection sel ⟨n, children, path⟩ = true ∨
        ∀ a ∈ p.ancestors, a.kind.Outer)
    · obtain ⟨p, hp, hps, hout⟩ := hbelow
      obtain ⟨s', henter, hs', hreach'⟩ := hs.enter hall hp hps hout
      obtain ⟨m, start, hf⟩ := ihc hc hs' hreach'
      exact ⟨m, start, hf.below hall henter⟩
    · by_cases hns : enclosesSelection sel ⟨n, children, path⟩ = true
      · have hnone : ∀ p ∈ placesBelow (n :: path) children, enclosesSelection sel p = false :=
          fun p hp =>
          Bool.eq_false_iff.mpr fun hps => hbelow ⟨p, hp, hps, fun _ => Or.inl hns⟩
        exact ⟨⟨n, children, path⟩, s, List.mem_cons_self, List.mem_cons_self, hns, hnone,
          walk_method hall hs.quiet hs.descending hns hnone⟩
      · have hfree : ¬ InReach sel path (.cons n children .nil) s := by
          rintro ⟨q, hq, hqs, hout⟩
          simp only [placesBelow, List.append_nil, List.mem_cons] at hq
          rcases hq with rfl | hq
          · exact hns hqs
          · exact hbelow ⟨q, hq, hqs, fun he => Or.inr (hout he)⟩
        -- so what is in reach stands behind this tree
        obtain ⟨p, hp, hps, hout⟩ := hreach
        have hpr : p ∈ placesBelow path rest := by
          simp only [placesBelow, List.mem_cons, List.mem_append] at hp
          rcases hp with rfl | hp | hp
          · exact absurd hps hns
          · exact absurd ⟨p, hp, hps, fun he => Or.inr (hout he)⟩ hbelow
          · exact hp
        have hbefore : n.stop ≤ sel.offset := by
          have := laid_bounds hr (node_mem_of_mem_placesBelow hpr)
          have := encloses_bounds hr hpr hps
          omega
        obtain ⟨s', hwalk, hs', hmethod⟩ := hs.pass ⟨hoffset, hid, hstop, hc, trivial⟩ hfree hbefore
        obtain ⟨m, start, hf⟩ := ihr hr hs' ⟨p, hpr, hps, fun he => hout (hmethod ▸ he)⟩
        exact ⟨m, start, hf.behind (g := .cons n children .nil) hwalk⟩

theorem covered_mem_inner (h : Laid offset id f) {m p : Place} (hm : m ∈ placesBelow path f)
    (hms : enclosesSelection sel m = true) (hp : p ∈ placesBelow path f)
    (hcover : sel.Covers p.node.start p.node.stop) : p ∈ m.inner := by
  have hbounds := encloses_bounds h hm hms
  obtain ⟨hstart, hstop⟩ := hcover
  have hlt := laid_lt h hp
  rcases Nat.lt_trichotomy p.node.id m.node.id with hpm | hpm | hpm
  · have := start_lt_of_id_lt h hp hm hpm
    omega
  · rw [place_unique h hp hm hpm] at hstart
    omega
  · refine (inner_or_beyond h hm hp hpm).resolve_right fun hbeyond => ?_
    omega

theorem first_isTopLevel (h : Laid offset id f) {m p : Place} {a b : Nat}
    (hm : m ∈ placesBelow path f) (hms : enclosesSelection sel m = true)
    (hsplits : Splits sel m.children.toList a b) (hp : p ∈ m.inner) (ha : p.node.id = a) :
    isTopLevel sel p = true := by
  have hbounds := encloses_bounds h hm hms
  rcases parent_mem hp with htop | ⟨r, hr, hparent, hpr⟩
  · simp only [isTopLevel, Place.parent?, htop, Place.below, List.head?_cons, Option.all_some,
      Bool.not_eq_true', decide_eq_false_iff_not]
    rintro ⟨hstart, _⟩
    omega
  · simp only [isTopLevel, Place.parent?, hparent, Place.below, List.head?_cons, Option.all_some,
      Bool.not_eq_true', decide_eq_false_iff_not]
    refine hsplits.before _ (node_mem_of_mem_placesBelow hr) ?_
    have := inner_bounds (laid_children h hm).1 hr hpr
    omega

/-- The trace of a selection whose enclosing method is `m` and whose selected nodes have the numbers
from `a` up to `b`. -/
structure Located (sel : Extent) (m : Place) (a b : Nat) (s : Trace) : Prop where
  encloses : enclosesSelection sel m = true
  splits : Splits sel m.children.toList a b
  later : m.node.id < a
  method : s.method = some m.node
  fault : s.fault = none
  gathers : Gathers sel a b m.inner s
  cut : s.has .endsMidStatement = false ↔ ∀ p ∈ m.inner, p.node.id = b → sel.past ≤ p.node.start
  reach : (s.reach = -1 ∨ ∃ n ∈ m.children.toList, Phase.among a b n.id = .selected ∧
    s.reach = n.stop) ∧ ∀ n ∈ m.children.toList, Phase.among a b n.id = .selected → n.stop ≤ s.reach
  events : ∃ before after, s.events.toList =
      before ++ Event.stream (Phase.among a b) 0 m.below m.children ++ after ∧
    (∀ e ∈ before, e.phase.Early ∧ e.node.start < m.node.start) ∧
    ((∀ k ∈ m.ancestors, k.kind.isFunction = false) → before = []) ∧
    ∀ e ∈ after, e.phase.Early ∧ e.kind ≠ .enter ∧ ∀ q ∈ m.inner, e.node.id ≠ q.node.id

theorem Located.isFunction {m : Place} {s : Trace} {a b : Nat} (hl : Located sel m a b s) :
    m.node.kind.isFunction = true :=
  (Bool.and_eq_true_iff.mp hl.encloses).1

theorem Located.isScope {m : Place} {s : Trace} {a b : Nat} (hl : Located sel m a b s) :
    m.node.kind.isScope = true := by
  have hfunction := hl.isFunction
  cases hk : m.node.kind with
  | method | lambda => rfl
  | _ => rw [hk] at hfunction; cases hfunction

theorem Settled.events_eq (h : Laid offset id f) {m : Place} {start s : Trace} {a b : Nat}
    (hs : Settled sel m start s) (hm : m ∈ placesBelow path f)
    (hsplits : Splits sel m.children.toList a b) (ha : m.node.id < a) :
    ∃ later, s.events.toList =
      start.events.toList ++ Event.stream (Phase.among a b) 0 m.below m.children ++ later ∧
      ∀ e ∈ later, e.phase.Early ∧ e.kind ≠ .enter ∧ ∀ q ∈ m.inner, e.node.id ≠ q.node.id := by
  obtain ⟨later, depth, -, -, hlater, rfl⟩ := hs
  refine ⟨later, ?_, hlater⟩
  rw [closed, record]
  simp only [Array.toList_append]
  rw [scan_events m.below (laid_children h hm).1 hsplits _ (Phase.upTo_eq_before_iff.mpr ha).symm]
  rfl

theorem Settled.located (h : Laid offset id f) {m : Place} {start s : Trace}
    (hs : Settled sel m start s) (hm : m ∈ placesBelow path f)
    (hms : enclosesSelection sel m = true) : ∃ a b, Located sel m a b s := by
  have hc := (laid_children h hm).1
  obtain ⟨a, b, hsplits, ha⟩ := exists_splits sel hc
  obtain ⟨later, hevents, hlater⟩ := hs.events_eq h hm hsplits ha
  obtain ⟨_, depth, hquiet, hdescending, -, rfl⟩ := hs
  have hphase : (start.restart m.node).phase = Phase.upTo a b (m.node.id + 1) :=
    (Phase.upTo_eq_before_iff.mpr ha).symm
  have hframe := scan_frame sel m.below hc (start.restart m.node)
  have hstart : Gathers sel a b [] (start.restart m.node) :=
    ⟨rfl, rfl, rfl, fun _ => rfl, nofun, by simp [restart, picked]⟩
  have hgathers := scan_gathers m.below hc hsplits
    (fun p hp hpa => first_isTopLevel h hm hms hsplits hp hpa) hphase hstart
  refine ⟨a, b, hms, hsplits, ha, hframe.1, hframe.2.2.trans hquiet.fault, ?_, ?_, ⟨?_, ?_⟩, ?_⟩
  · exact ⟨hgathers.topLevel, hgathers.first, hgathers.parent, hgathers.before, hgathers.selected,
      hgathers.diagnostics⟩
  · exact scan_cut m.below hc hsplits hphase rfl
  · exact (scan_reach m.below hc hsplits _ hphase).imp_left fun hr => hr.trans hquiet.reach
  · exact stop_le_scan_reach hc hsplits _ hphase
  · exact ⟨start.events.toList, later, hevents, hquiet.events, hdescending.events_eq_nil, hlater⟩

theorem walk_induction {σ : Type} {enter : σ → Place → Step × σ} {leave : σ → Place → σ}
    {P : σ → Prop} {s : σ} (henter : ∀ s, ∀ p ∈ placesBelow path f, P s → P (enter s p).2)
    (hleave : ∀ s, ∀ p ∈ placesBelow path f, P s → P (leave s p)) (h : P s) :
    P (walk enter leave path f s).state := by
  induction f generalizing path s with
  | nil => exact h
  | cons n children rest ihc ihr =>
    simp only [placesBelow, List.mem_cons, List.mem_append] at henter hleave
    have hentered := henter s _ (Or.inl rfl) h
    have hrest := fun s (hs : P s) => ihr (s := s) (fun s p hp => henter s p (Or.inr (Or.inr hp)))
      (fun s p hp => hleave s p (Or.inr (Or.inr hp))) hs
    rw [walk]
    rcases hstep : enter s ⟨n, children, path⟩ with ⟨step, s'⟩
    rw [hstep] at hentered
    cases step with
    | abort reason => exact hentered
    | skip => exact hrest s' hentered
    | descend =>
      have hbelow := ihc (fun s p hp => henter s p (Or.inr (Or.inl hp)))
        (fun s p hp => hleave s p (Or.inr (Or.inl hp))) hentered
      simp only
      cases hstopped : (walk enter leave (n :: path) children s').stopped with
      | some reason => exact hbelow
      | none => exact hrest _ (hleave _ _ (Or.inl rfl) hbelow)

theorem enter_cases (sel : Extent) (s : Trace) {p : Place} (h : p.node.start ≤ p.node.stop) :
    (enter sel s p).2 = s ∨ enclosesSelection sel p = true ∧ (enter sel s p).2 = s.restart p.node ∨
      (enter sel s p).2 = entered sel s p := by
  simp only [enter, classify_eq_ok sel s p h]
  split
  · exact Or.inl rfl
  · split
    next hencloses => exact Or.inr (Or.inl ⟨hencloses, rfl⟩)
    next =>
      split
      · split <;> exact Or.inl rfl
      · exact Or.inr (Or.inr rfl)

theorem leave_cases (s : Trace) (p : Place) :
    leave s p = s ∨ leave s p = { s with complete := true } ∨ leave s p = s.left p := by
  cases hm : s.method with
  | none => exact Or.inl (by simp [leave, hm])
  | some k =>
    by_cases hid : k.id = p.node.id
    · exact Or.inr (Or.inl (by simp [leave, hm, hid]))
    · exact Or.inr (Or.inr (leave_eq_left s p k hm hid))

theorem walk_uncovered (h : Laid offset id f) (hnone : ∀ n ∈ f.toList, ¬ sel.Covers n.start n.stop)
    {s : Trace} (hs : s.fault = none ∧ s.first = none) :
    (walk (enter sel) leave path f s).state.fault = none ∧
      (walk (enter sel) leave path f s).state.first = none := by
  refine walk_induction (P := fun s : Trace => s.fault = none ∧ s.first = none) ?_ ?_ hs
  · rintro s p hp ⟨hfault, hfirst⟩
    have hle := start_le_stop h hp
    rcases enter_cases sel s hle with heq | ⟨-, heq⟩ | heq
    · rw [heq]
      exact ⟨hfault, hfirst⟩
    · rw [heq]
      exact ⟨hfault, rfl⟩
    · have hc := classifies_classified sel s p hle
      rw [heq, entered_eq]
      refine ⟨hc.frame.2.2.1.trans hfault, ?_⟩
      simp only [record]
      generalize classified sel s p = s' at hc ⊢
      cases hc with
      | begins _ hcover => exact absurd hcover (hnone _ (node_mem_of_mem_placesBelow hp))
      | _ => exact hfirst
  · rintro s p - ⟨hfault, hfirst⟩
    rcases leave_cases s p with heq | heq | heq <;> rw [heq] <;> exact ⟨hfault, hfirst⟩

/-- Some function encloses the selection, and files and types alone stand above the outermost
one. -/
def Enclosed (sel : Extent) (t : SyntaxTree) : Prop :=
  ∃ p ∈ t.places, enclosesSelection sel p = true ∧ ∀ a ∈ p.ancestors, a.kind.Outer

instance (sel : Extent) (t : SyntaxTree) : Decidable (Enclosed sel t) :=
  inferInstanceAs (Decidable (∃ p ∈ t.places, _ ∧ ∀ a ∈ p.ancestors, _))

variable {t : SyntaxTree}

theorem ofSelection_of_not_enclosed (hnot : ¬ Enclosed sel t.first) : ofSelection t sel = {} := by
  have hwalk : walk (enter sel) leave [] t.first {} = ⟨{}, none⟩ := by
    refine walk_outer {} rfl rfl (List.forall_mem_nil _) fun p hp hps => ?_
    apply Classical.byContradiction
    intro hall
    exact hnot ⟨p, hp, hps, fun a ha => Classical.byContradiction fun hout => hall ⟨a, ha, hout⟩⟩
  rw [ofSelection, hwalk]

theorem ofSelection_first_eq_none (h : Laid 0 0 t.first)
    (hnot : ¬ (Enclosed sel t.first ∧ ∃ n ∈ t.first.toList, sel.Covers n.start n.stop)) :
    (ofSelection t sel).fault = none ∧ (ofSelection t sel).first = none := by
  by_cases henclosed : Enclosed sel t.first
  · refine walk_uncovered h (fun n hn hcover => hnot ⟨henclosed, n, hn, hcover⟩) ⟨rfl, rfl⟩
  · rw [ofSelection_of_not_enclosed henclosed]
    exact ⟨rfl, rfl⟩

theorem exists_finds_of_enclosed (h : Laid 0 0 t.first) (henclosed : Enclosed sel t.first) :
    ∃ m start, Finds sel [] t.first {} m start := by
  obtain ⟨p, hp, hps, hout⟩ := henclosed
  exact exists_finds h approaching_initial ⟨p, hp, hps, fun _ => hout⟩

theorem exists_innermost (h : Laid 0 0 t.first) (henclosed : Enclosed sel t.first) :
    ∃ m a b, m ∈ places t.first ∧ (∀ p ∈ m.inner, enclosesSelection sel p = false) ∧
      Located sel m a b (ofSelection t sel) := by
  obtain ⟨m, start, hf⟩ := exists_finds_of_enclosed h henclosed
  obtain ⟨a, b, hl⟩ := hf.settled.located h hf.mem hf.encloses
  exact ⟨m, a, b, hf.mem, hf.innermost, hl⟩

/-- If a function encloses the selection and a node is covered, the enclosing functions stand one
above the other, and the traversal finds the innermost of them. -/
theorem exists_located (h : Laid 0 0 t.first) (henclosed : Enclosed sel t.first)
    (hcovered : ∃ n ∈ t.first.toList, sel.Covers n.start n.stop) :
    ∃ m a b, m ∈ places t.first ∧
      (∀ p ∈ places t.first, enclosesSelection sel p = true → p = m ∨ m ∈ p.inner) ∧
      Located sel m a b (ofSelection t sel) := by
  obtain ⟨n, hn, hstart, hstop⟩ := hcovered
  have hsel : sel.offset < sel.past := by
    have := laid_bounds h hn
    omega
  obtain ⟨m, a, b, hm, hinnermost, hl⟩ := exists_innermost h henclosed
  refine ⟨m, a, b, hm, fun p hp hps => ?_, hl⟩
  rcases Nat.le_or_le p.node.id m.node.id with hle | hle
  · exact encloses_chain h hsel hp hm hps hl.encloses hle
  · rcases encloses_chain h hsel hm hp hl.encloses hps hle with rfl | hin
    · exact Or.inl rfl
    · rw [hinnermost p hin] at hps
      cases hps

end Trace

end Extraction
