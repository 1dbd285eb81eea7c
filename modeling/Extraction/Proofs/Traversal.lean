import Mathlib.Data.List.Nodup
import Extraction.Proofs.Totality

/-!
# The calls of a traversal

A traversal that nothing stops enters and leaves the places of a forest in brackets; the places that
it enters are the nodes that a visit lists.  One that is stopped makes the same calls up to the
first that is answered with an abort, at whatever depth that is.
-/

namespace Extraction

namespace Step

def reason? : Step → Option String
  | abort reason => some reason
  | _ => none

/-- The answer of one who never aborts. -/
def persist : Step → Step
  | abort _ => descend
  | step => step

theorem reason?_persist (s : Step) : s.persist.reason? = none := by
  cases s <;> rfl

theorem persist_eq_skip {s : Step} : s.persist = skip ↔ s = skip := by
  cases s <;> simp [persist]

theorem eq_abort {s : Step} {reason : String} (h : s.reason? = some reason) : s = abort reason := by
  cases s with
  | descend | skip => cases h
  | abort r => rw [Option.some.inj h]

theorem eq_descend_iff {s : Step} (h : s.reason? = none) : s = descend ↔ s ≠ skip := by
  cases s with
  | descend | skip => simp
  | abort r => cases h

end Step

/-- A call that a traversal makes, before or after the children of a place. -/
inductive Call where
  | enter (p : Place)
  | leave (p : Place)
deriving DecidableEq

namespace Call

variable {σ : Type} {stops : Call → Option String} {xs ys : List Call} {goesIn : Node → Bool}

def entered? : Call → Option Place
  | enter p => some p
  | leave _ => none

def left? : Call → Option Place
  | enter _ => none
  | leave p => some p

def perform (enter : σ → Place → Step × σ) (leave : σ → Place → σ) (s : σ) : Call → σ
  | .enter p => (enter s p).2
  | .leave p => leave s p

def stopped? (step : Node → Step) : Call → Option String
  | enter p => (step p.node).reason?
  | leave _ => none

/-- The calls up to the first one that stops the traversal. -/
def heed (stops : Call → Option String) : List Call → Walked (List Call)
  | [] => ⟨[], none⟩
  | c :: rest =>
    match stops c with
    | some reason => ⟨[c], some reason⟩
    | none => ⟨c :: (heed stops rest).state, (heed stops rest).stopped⟩

/-- Every place that is gone into is left, and what is entered in between is what a visit lists
below it. -/
inductive Bracketed (goesIn : Node → Bool) : List Call → Prop where
  | done : Bracketed goesIn []
  | passes {p : Place} {later : List Call} (hp : goesIn p.node = false)
      (hlater : Bracketed goesIn later) :
      Bracketed goesIn (.enter p :: later)
  | encloses {p : Place} {inside later : List Call} (hp : goesIn p.node = true)
      (hbelow : (inside.filterMap entered?).map (·.node) = SyntaxTree.visit goesIn p.children)
      (hinside : Bracketed goesIn inside) (hlater : Bracketed goesIn later) :
      Bracketed goesIn (.enter p :: (inside ++ .leave p :: later))

@[simp] theorem entered_enter (p : Place) (xs : List Call) :
    (enter p :: xs).filterMap entered? = p :: xs.filterMap entered? :=
  rfl

@[simp] theorem entered_leave (p : Place) (xs : List Call) :
    (leave p :: xs).filterMap entered? = xs.filterMap entered? :=
  rfl

@[simp] theorem left_enter (p : Place) (xs : List Call) :
    (enter p :: xs).filterMap left? = xs.filterMap left? :=
  rfl

@[simp] theorem left_leave (p : Place) (xs : List Call) :
    (leave p :: xs).filterMap left? = p :: xs.filterMap left? :=
  rfl

theorem mem_entered {p : Place} : p ∈ xs.filterMap entered? ↔ .enter p ∈ xs := by
  rw [List.mem_filterMap]
  constructor
  · rintro ⟨c | c, hc, h⟩
    · rwa [← Option.some.inj h]
    · cases h
  · exact fun h => ⟨.enter p, h, rfl⟩

theorem heed_cons_of_none {c : Call} (h : stops c = none) :
    heed stops (c :: xs) = ⟨c :: (heed stops xs).state, (heed stops xs).stopped⟩ := by
  rw [heed, h]

theorem heed_cons_of_some {c : Call} {reason : String} (h : stops c = some reason) :
    heed stops (c :: xs) = ⟨[c], some reason⟩ := by
  rw [heed, h]

theorem heed_append_of_none (h : (heed stops xs).stopped = none) :
    heed stops (xs ++ ys) = ⟨(heed stops xs).state ++ (heed stops ys).state,
      (heed stops ys).stopped⟩ := by
  induction xs with
  | nil => rfl
  | cons c xs ih =>
    cases hc : stops c with
    | none =>
      rw [heed_cons_of_none hc] at h
      rw [List.cons_append, heed_cons_of_none hc, heed_cons_of_none hc, ih h, List.cons_append]
    | some reason =>
      rw [heed_cons_of_some hc] at h
      cases h

theorem heed_append_of_some {reason : String} (h : (heed stops xs).stopped = some reason) :
    heed stops (xs ++ ys) = heed stops xs := by
  induction xs with
  | nil => cases h
  | cons c xs ih =>
    cases hc : stops c with
    | none =>
      rw [heed_cons_of_none hc] at h
      rw [List.cons_append, heed_cons_of_none hc, heed_cons_of_none hc, ih h]
    | some reason => rw [List.cons_append, heed_cons_of_some hc, heed_cons_of_some hc]

theorem heed_of_quiet (h : ∀ c ∈ xs, stops c = none) : heed stops xs = ⟨xs, none⟩ := by
  induction xs with
  | nil => rfl
  | cons c xs ih =>
    obtain ⟨hc, hxs⟩ := List.forall_mem_cons.mp h
    rw [heed_cons_of_none hc, ih hxs]

theorem heed_of_first {c : Call} {reason : String} (h : ∀ b ∈ xs, stops b = none)
    (hc : stops c = some reason) :
    heed stops (xs ++ c :: ys) = ⟨xs ++ [c], some reason⟩ := by
  have hquiet := heed_of_quiet h
  rw [heed_append_of_none (by rw [hquiet]), hquiet, heed_cons_of_some hc]

theorem exists_first {c : Call} (hc : c ∈ xs) (hstops : stops c ≠ none) :
    ∃ before a after, xs = before ++ a :: after ∧ (∀ b ∈ before, stops b = none) ∧
      stops a ≠ none := by
  have hfind : (xs.find? fun c => (stops c).isSome).isSome := by
    rw [List.find?_isSome]
    exact ⟨c, hc, Option.isSome_iff_ne_none.mpr hstops⟩
  obtain ⟨a, ha⟩ := Option.isSome_iff_exists.mp hfind
  obtain ⟨hsome, before, after, rfl, hbefore⟩ := List.find?_eq_some_iff_append.mp ha
  refine ⟨before, a, after, rfl, fun b hb => ?_, Option.isSome_iff_ne_none.mp hsome⟩
  simpa using hbefore b hb

end Call

namespace SyntaxTree

variable {σ : Type} {path : List Node} {f : SyntaxTree} {goesIn : Node → Bool}

/-- The calls of a traversal that nothing stops and that goes into the nodes that `goesIn`
accepts. -/
def uninterrupted (goesIn : Node → Bool) (path : List Node) : SyntaxTree → List Call
  | .nil => []
  | .cons n children rest =>
    let p : Place := ⟨n, children, path⟩
    .enter p :: ((if goesIn n then uninterrupted goesIn (n :: path) children ++ [.leave p]
      else []) ++ uninterrupted goesIn path rest)

theorem uninterrupted_cons_of_true {n : Node} (h : goesIn n = true) (path : List Node)
    (children rest : SyntaxTree) :
    uninterrupted goesIn path (.cons n children rest) =
      .enter ⟨n, children, path⟩ :: (uninterrupted goesIn (n :: path) children ++
        .leave ⟨n, children, path⟩ :: uninterrupted goesIn path rest) := by
  rw [uninterrupted, if_pos h, List.append_assoc, List.singleton_append]

theorem uninterrupted_cons_of_false {n : Node} (h : goesIn n = false) (path : List Node)
    (children rest : SyntaxTree) :
    uninterrupted goesIn path (.cons n children rest) =
      .enter ⟨n, children, path⟩ :: uninterrupted goesIn path rest := by
  rw [uninterrupted, if_neg (Bool.eq_false_iff.mp h), List.nil_append]

def answered (step : Node → Step) (path : List Node) (f : SyntaxTree) : Walked (List Call) :=
  Call.heed (Call.stopped? step) (uninterrupted (fun n => step n ≠ .skip) path f)

theorem answered_abort {step : Node → Step} {n : Node} {reason : String}
    (h : step n = .abort reason) (path : List Node) (children rest : SyntaxTree) :
    answered step path (.cons n children rest) = ⟨[.enter ⟨n, children, path⟩], some reason⟩ := by
  rw [answered, uninterrupted, Call.heed_cons_of_some]
  simp only [Call.stopped?, h, Step.reason?]

theorem answered_skip {step : Node → Step} {n : Node} (h : step n = .skip) (path : List Node)
    (children rest : SyntaxTree) :
    answered step path (.cons n children rest) =
      ⟨.enter ⟨n, children, path⟩ :: (answered step path rest).state,
      (answered step path rest).stopped⟩ := by
  rw [answered, uninterrupted_cons_of_false (by simp [h]), Call.heed_cons_of_none]
  · rfl
  · simp only [Call.stopped?, h, Step.reason?]

theorem answered_descend_of_some {step : Node → Step} {n : Node} (h : step n = .descend)
    (path : List Node) {children : SyntaxTree} {reason : String}
    (hbelow : (answered step (n :: path) children).stopped = some reason) (rest : SyntaxTree) :
    answered step path (.cons n children rest) =
      ⟨.enter ⟨n, children, path⟩ :: (answered step (n :: path) children).state, some reason⟩ := by
  rw [answered, uninterrupted_cons_of_true (by simp [h]), Call.heed_cons_of_none,
    Call.heed_append_of_some hbelow, ← hbelow]
  · rfl
  · simp only [Call.stopped?, h, Step.reason?]

theorem answered_descend_of_none {step : Node → Step} {n : Node} (h : step n = .descend)
    (path : List Node) {children : SyntaxTree}
    (hbelow : (answered step (n :: path) children).stopped = none) (rest : SyntaxTree) :
    answered step path (.cons n children rest) =
      ⟨.enter ⟨n, children, path⟩ :: ((answered step (n :: path) children).state ++
        .leave ⟨n, children, path⟩ :: (answered step path rest).state),
        (answered step path rest).stopped⟩ := by
  rw [answered, uninterrupted_cons_of_true (by simp [h]), Call.heed_cons_of_none,
    Call.heed_append_of_none hbelow, Call.heed_cons_of_none]
  · rfl
  · rfl
  · simp only [Call.stopped?, h, Step.reason?]

/-- Whatever its calls do, a traversal makes those of the uninterrupted one up to the first that is
answered with an abort. -/
theorem walk_eq_answered {enter : σ → Place → Step × σ} {leave : σ → Place → σ} {step : Node → Step}
    (hstep : ∀ s p, (enter s p).1 = step p.node) (path : List Node) (f : SyntaxTree) (s : σ) :
    walk enter leave path f s =
      ⟨(answered step path f).state.foldl (Call.perform enter leave) s,
      (answered step path f).stopped⟩ := by
  induction f generalizing path s with
  | nil => rfl
  | cons n children rest ihc ihr =>
    have hanswer : enter s ⟨n, children, path⟩ = (step n, (enter s ⟨n, children, path⟩).2) :=
      Prod.ext (hstep s _) rfl
    rw [walk, hanswer]
    cases hn : step n with
    | abort reason => rw [answered_abort hn]; rfl
    | skip => rw [answered_skip hn]; exact ihr _ _
    | descend =>
      simp only [ihc]
      cases hbelow : (answered step (n :: path) children).stopped with
      | some reason => rw [answered_descend_of_some hn path hbelow]; rfl
      | none =>
        rw [answered_descend_of_none hn path hbelow, List.foldl_cons, List.foldl_append,
          List.foldl_cons]
        exact ihr _ _

theorem entered_cons_of_true {n : Node} (h : goesIn n = true) (path : List Node)
    (children rest : SyntaxTree) :
    (uninterrupted goesIn path (.cons n children rest)).filterMap Call.entered? =
      ⟨n, children, path⟩ :: ((uninterrupted goesIn (n :: path) children).filterMap Call.entered? ++
        (uninterrupted goesIn path rest).filterMap Call.entered?) := by
  rw [uninterrupted_cons_of_true h, Call.entered_enter, List.filterMap_append, Call.entered_leave]

theorem entered_cons_of_false {n : Node} (h : goesIn n = false) (path : List Node)
    (children rest : SyntaxTree) :
    (uninterrupted goesIn path (.cons n children rest)).filterMap Call.entered? =
      ⟨n, children, path⟩ :: (uninterrupted goesIn path rest).filterMap Call.entered? := by
  rw [uninterrupted_cons_of_false h, Call.entered_enter]

theorem map_node_entered (goesIn : Node → Bool) (path : List Node) (f : SyntaxTree) :
    ((uninterrupted goesIn path f).filterMap Call.entered?).map (·.node) = visit goesIn f := by
  induction f generalizing path with
  | nil => rfl
  | cons n children rest ihc ihr =>
    rw [visit]
    cases hn : goesIn n with
    | true => rw [entered_cons_of_true hn, List.map_cons, List.map_append, ihc, ihr, if_pos rfl]
    | false =>
      rw [entered_cons_of_false hn, List.map_cons, ihr, if_neg Bool.false_ne_true, List.nil_append]

theorem entered_sublist (goesIn : Node → Bool) (path : List Node) (f : SyntaxTree) :
    ((uninterrupted goesIn path f).filterMap Call.entered?).Sublist (placesBelow path f) := by
  induction f generalizing path with
  | nil => exact .slnil
  | cons n children rest ihc ihr =>
    rw [placesBelow]
    cases hn : goesIn n with
    | true =>
      rw [entered_cons_of_true hn]
      exact ((ihc _).append (ihr _)).cons_cons _
    | false =>
      rw [entered_cons_of_false hn]
      exact ((ihr _).trans (List.sublist_append_right _ _)).cons_cons _

theorem left_perm (goesIn : Node → Bool) (path : List Node) (f : SyntaxTree) :
    ((uninterrupted goesIn path f).filterMap Call.left?).Perm
      (((uninterrupted goesIn path f).filterMap Call.entered?).filter fun p => goesIn p.node) := by
  induction f generalizing path with
  | nil => exact .refl _
  | cons n children rest ihc ihr =>
    cases hn : goesIn n with
    | true =>
      rw [entered_cons_of_true hn, List.filter_cons_of_pos (by exact hn), List.filter_append,
        uninterrupted_cons_of_true hn, Call.left_enter, List.filterMap_append, Call.left_leave]
      exact List.perm_middle.trans (((ihc _).append (ihr _)).cons _)
    | false =>
      rw [entered_cons_of_false hn, List.filter_cons_of_neg (by simp [hn]),
        uninterrupted_cons_of_false hn, Call.left_enter]
      exact ihr _

theorem bracketed_uninterrupted (goesIn : Node → Bool) (path : List Node) (f : SyntaxTree) :
    Call.Bracketed goesIn (uninterrupted goesIn path f) := by
  induction f generalizing path with
  | nil => exact .done
  | cons n children rest ihc ihr =>
    cases hn : goesIn n with
    | true =>
      rw [uninterrupted_cons_of_true hn]
      exact .encloses hn (map_node_entered goesIn _ children) (ihc _) (ihr _)
    | false =>
      rw [uninterrupted_cons_of_false hn]
      exact .passes hn (ihr _)

theorem nodup_parts {n : Node} {children rest : SyntaxTree}
    (h : (path ++ (Forest.cons n children rest).toList).Nodup) :
    (n :: path ++ children.toList).Nodup ∧ (path ++ rest.toList).Nodup ∧
      ∀ m ∈ n :: children.toList, m ∉ path ∧ m ∉ rest.toList := by
  simp only [Forest.toList, List.cons_append, List.nodup_append, List.nodup_cons, List.mem_append,
    List.mem_cons] at h ⊢
  grind

theorem left_before_entered (goesIn : Node → Bool) (hnodup : (path ++ f.toList).Nodup) :
    (uninterrupted goesIn path f).Pairwise fun c d =>
      ∀ p ∈ c.left?, ∀ q ∈ d.entered?, p.node ∉ q.ancestors := by
  induction f generalizing path with
  | nil => exact .nil
  | cons n children rest ihc ihr =>
    obtain ⟨hc, hr, hapart⟩ := nodup_parts hnodup
    -- the ancestors of what is entered later are in the rest of the forest or around it
    have hlater : ∀ d ∈ uninterrupted goesIn path rest, ∀ q ∈ d.entered?,
        ∀ m ∈ n :: children.toList, m ∉ q.ancestors := by
      intro d hd q hq m hm hin
      obtain ⟨upper, hupper, hnodes⟩ :=
        exists_upper ((entered_sublist goesIn path rest).subset
          (List.mem_filterMap.mpr ⟨d, hd, hq⟩))
      rcases List.mem_append.mp (hupper ▸ hin) with hin | hin
      · exact (hapart m hm).2 (hnodes m hin)
      · exact (hapart m hm).1 hin
    cases hn : goesIn n with
    | false =>
      rw [uninterrupted_cons_of_false hn]
      exact List.pairwise_cons.mpr ⟨fun d _ p hp => (by cases hp), ihr hr⟩
    | true =>
      rw [uninterrupted_cons_of_true hn]
      refine List.pairwise_cons.mpr ⟨fun d _ p hp => (by cases hp), List.pairwise_append.mpr
        ⟨ihc hc, List.pairwise_cons.mpr ⟨fun d hd p hp q hq => ?_, ihr hr⟩,
        fun c hc d hd p hp q hq => ?_⟩⟩
      · cases hp
        exact hlater d hd q hq n List.mem_cons_self
      · rcases List.mem_cons.mp hd with rfl | hd
        · cases hq
        · have hleft := (left_perm goesIn (n :: path) children).subset
            (List.mem_filterMap.mpr ⟨c, hc, hp⟩)
          have hplace := (entered_sublist goesIn (n :: path) children).subset
            (List.mem_filter.mp hleft).1
          exact hlater d hd q hq p.node
            (List.mem_cons_of_mem n (node_mem_of_mem_placesBelow hplace))

theorem visit_sublist (goesIn : Node → Bool) (f : SyntaxTree) :
    (visit goesIn f).Sublist f.toList := by
  rw [← map_node_entered goesIn [] f, ← map_node_placesBelow [] f]
  exact (entered_sublist goesIn [] f).map _

theorem subtree_sublist {p : Place} (hp : p ∈ placesBelow path f) :
    p.subtree.toList.Sublist f.toList := by
  induction f generalizing path with
  | nil => cases hp
  | cons n children rest ihc ihr =>
    simp only [placesBelow, List.mem_cons, List.mem_append] at hp
    rw [Forest.toList]
    rcases hp with rfl | hp | hp
    · simp only [Place.subtree, Forest.toList, List.append_nil]
      exact (List.sublist_append_left _ _).cons_cons n
    · exact ((ihc hp).trans (List.sublist_append_left _ _)).cons n
    · exact ((ihr hp).trans (List.sublist_append_right _ _)).cons n

theorem nodup_subtree {p : Place} (hnodup : (path ++ f.toList).Nodup)
    (hp : p ∈ placesBelow path f) :
    (p.ancestors ++ p.subtree.toList).Nodup := by
  induction f generalizing path with
  | nil => cases hp
  | cons n children rest ihc ihr =>
    obtain ⟨hc, hr, -⟩ := nodup_parts hnodup
    simp only [placesBelow, List.mem_cons, List.mem_append] at hp
    rcases hp with rfl | hp | hp
    · simp only [Place.subtree, Forest.toList, List.append_nil]
      exact (List.perm_middle.nodup_iff).mpr hc
    · exact ihc hc hp
    · exact ihr hr hp

end SyntaxTree

open SyntaxTree

namespace Place

/-- The traversal of what stands at a place: the calls that it makes if each place is answered by
its node, and why it was stopped, if it was. -/
def calls (step : Node → Step) (p : Place) : Walked (List Call) :=
  walk (fun made q => (step q.node, made ++ [.enter q]))
    (fun made q => made ++ [.leave q]) p.ancestors p.subtree []

theorem calls_eq_answered (step : Node → Step) (p : Place) :
    p.calls step = answered step p.ancestors p.subtree := by
  have hrecord : ∀ made xs : List Call, xs.foldl
      (Call.perform (fun made q => (step q.node, made ++ [.enter q]))
      fun made q => made ++ [.leave q]) made = made ++ xs := by
    intro made xs
    induction xs generalizing made with
    | nil => exact (List.append_nil made).symm
    | cons c xs ih => cases c <;> simp [Call.perform, ih]
  have hanswers : ∀ (made : List Call) (q : Place), (step q.node, made ++ [Call.enter q]).1 =
      step q.node := fun _ _ => rfl
  rw [calls, walk_eq_answered hanswers, hrecord, List.nil_append]

theorem calls_of_quiet {step : Node → Step} {p : Place}
    (h : ∀ c ∈ uninterrupted (fun n => step n ≠ .skip) p.ancestors p.subtree,
    Call.stopped? step c = none) :
    p.calls step = ⟨uninterrupted (fun n => step n ≠ .skip) p.ancestors p.subtree, none⟩ := by
  rw [calls_eq_answered, answered, Call.heed_of_quiet h]

theorem calls_persist (step : Node → Step) (p : Place) :
    p.calls (fun n => (step n).persist) =
      ⟨uninterrupted (fun n => step n ≠ .skip) p.ancestors p.subtree, none⟩ := by
  have hquiet : ∀ c : Call, Call.stopped? (fun n => (step n).persist) c = none := by
    intro c
    cases c with
    | enter q => exact Step.reason?_persist _
    | leave q => rfl
  rw [calls_of_quiet fun c _ => hquiet c]
  simp only [ne_eq, Step.persist_eq_skip]

structure WalksThrough (step : Node → Step) (p : Place) : Prop where
  unstopped : (p.calls step).stopped = none
  /-- The nodes that are entered are those that a visit lists, in its order. -/
  visits : ((p.calls step).state.filterMap Call.entered?).map (·.node) =
    visit (fun n => step n ≠ .skip) p.subtree
  once : (((p.calls step).state.filterMap Call.entered?).map (·.node.id)).Nodup
  leaves : ((p.calls step).state.filterMap Call.left?).Perm
    (((p.calls step).state.filterMap Call.entered?).filter fun q => step q.node = .descend)
  bracketed : Call.Bracketed (fun n => step n ≠ .skip) (p.calls step).state

/-- The traversal of `p`, answered by `step`, is stopped by entering `a` after the calls
`before`. -/
structure StopsAt (step : Node → Step) (p : Place) (before : List Call) (a : Place)
    (reason : String) : Prop where
  answer : step a.node = .abort reason
  first : ∀ q ∈ before.filterMap Call.entered?, (step q.node).reason? = none
  calls : p.calls step = ⟨before ++ [.enter a], some reason⟩
  /-- The calls made are the first ones of the traversal that takes no abort. -/
  cut : ∃ after, (p.calls fun n => (step n).persist).state = before ++ .enter a :: after
  /-- What stands around `a` is not left. -/
  unleft : ∀ q ∈ before.filterMap Call.left?, q.node ∉ a.ancestors

theorem exists_stopsAt {step : Node → Step} {p : Place}
    (hnodup : (p.ancestors ++ p.subtree.toList).Nodup) {c : Call}
    (hc : c ∈ uninterrupted (fun n => step n ≠ .skip) p.ancestors p.subtree)
    (hstops : Call.stopped? step c ≠ none) :
    ∃ before a reason, p.StopsAt step before a reason := by
  obtain ⟨before, c, after, heq, hbefore, hsome⟩ := Call.exists_first hc hstops
  obtain ⟨reason, hreason⟩ := Option.ne_none_iff_exists'.mp hsome
  cases c with
  | leave a => cases hreason
  | enter a =>
    refine ⟨before, a, reason, Step.eq_abort hreason, fun q hq => ?_, ?_, ⟨after, ?_⟩,
      fun q hq => ?_⟩
    · exact hbefore _ (Call.mem_entered.mp hq)
    · rw [calls_eq_answered, answered, heq, Call.heed_of_first hbefore hreason]
    · rw [calls_persist, heq]
    · have hpairs := left_before_entered (fun n => step n ≠ .skip) hnodup
      rw [heq, List.pairwise_append] at hpairs
      obtain ⟨c, hc, hleft⟩ := List.mem_filterMap.mp hq
      exact hpairs.2.2 c hc (.enter a) List.mem_cons_self q hleft a rfl

theorem walksThrough_of_quiet {step : Node → Step} {p : Place}
    (hids : (p.subtree.toList.map (·.id)).Nodup)
    (h : ∀ c ∈ uninterrupted (fun n => step n ≠ .skip) p.ancestors p.subtree,
    Call.stopped? step c = none) :
    p.WalksThrough step := by
  have hcalls := calls_of_quiet h
  have hvisits := map_node_entered (fun n => step n ≠ .skip) p.ancestors p.subtree
  constructor
  · rw [hcalls]
  · rw [hcalls, hvisits]
  · have hmap : ∀ xs : List Place, xs.map (·.node.id) = (xs.map (·.node)).map (·.id) := fun xs => by
      rw [List.map_map]
      rfl
    rw [hcalls, hmap, hvisits]
    exact hids.sublist ((visit_sublist _ _).map _)
  · rw [hcalls]
    refine (left_perm _ _ _).trans (.of_eq (List.filter_congr fun q hq => ?_))
    rw [decide_eq_decide, Step.eq_descend_iff (h _ (Call.mem_entered.mp hq))]
  · rw [hcalls]
    exact bracketed_uninterrupted _ _ _

end Place

/-- Let a tree be grown by adding each node under one that was added before, or under none, and let
the traversal of any of its nodes be answered by `step`.  If no node that it enters is answered with
an abort, it goes through; if an abort waits at a node that a visit lists, it is stopped at the
first of them.  Callbacks of any kind that answer by `step` are called in that order. -/
theorem walk_agrees (additions : List Addition)
    (hparents : ∀ i (hi : i < additions.length), -1 ≤ additions[i].parent ∧ additions[i].parent < i)
    (start : Nat) (hstart : start < additions.length) (step : Node → Step) :
    ∃ t p, grow (additions.map fun e => (e.parent, e.node)) = .ok t ∧ t.place? start = .ok p ∧
      p.node = additions[start].node start ∧
      ((∀ q ∈ (p.calls step).state.filterMap Call.entered?, (step q.node).reason? = none) →
        p.WalksThrough step) ∧
      ((∃ n ∈ visit (fun n => step n ≠ .skip) p.subtree, (step n).reason? ≠ none) →
        ∃ before a reason, p.StopsAt step before a reason) ∧
      ∀ (σ : Type) (enter : σ → Place → Step × σ) (leave : σ → Place → σ) (s : σ),
        (∀ s q, (enter s q).1 = step q.node) → walk enter leave p.ancestors p.subtree s =
          ⟨(p.calls step).state.foldl (Call.perform enter leave) s, (p.calls step).stopped⟩ := by
  obtain ⟨t, ht, hnumbered, hnodes⟩ := numbered_nil.grow_go additions (by simpa using hparents)
  rw [Nat.zero_add] at hnumbered
  obtain ⟨n, hn, hid⟩ := List.mem_map.mp (hnumbered.mem_iff.mpr (List.mem_range.mpr hstart))
  obtain ⟨p, hp, rfl⟩ := exists_place_of_mem [] hn
  have hall : ([] ++ t.toList).Nodup := List.Nodup.of_map _ hnumbered.nodup
  have hnodup := nodup_subtree hall hp
  have hids : (p.subtree.toList.map (·.id)).Nodup :=
    hnumbered.nodup.sublist ((subtree_sublist hp).map _)
  refine ⟨t, p, ht, hid ▸ hnumbered.place?_eq hp, ?_, fun hquiet => ?_, ?_,
    fun σ enter leave s hanswers => ?_⟩
  · rcases hnodes _ hn with hin | ⟨i, hi, heq⟩
    · cases hin
    · rw [Nat.zero_add] at heq
      obtain rfl : i = start := by rw [← hid, heq]; rfl
      exact heq
  -- a call that stops the traversal would be among the calls made
  · refine Place.walksThrough_of_quiet hids fun c hc => Decidable.byContradiction fun hstops => ?_
    obtain ⟨before, a, reason, hstop⟩ := Place.exists_stopsAt hnodup hc hstops
    have hnone := hquiet a (by rw [hstop.calls]; exact Call.mem_entered.mpr (by simp))
    rw [hstop.answer] at hnone
    cases hnone
  · rintro ⟨n, hn, hstops⟩
    rw [← map_node_entered _ p.ancestors] at hn
    obtain ⟨q, hq, rfl⟩ := List.mem_map.mp hn
    exact Place.exists_stopsAt hnodup (Call.mem_entered.mp hq) hstops
  · rw [walk_eq_answered hanswers, Place.calls_eq_answered]

/-- A method with a lambda and a condition in which an exception is raised, and a return after
them. -/
def raisingMethod : List Addition :=
  [⟨-1, { kind := .file }, 0, 30⟩, ⟨0, { kind := .method }, 1, 29⟩, ⟨1, { kind := .block }, 2, 28⟩,
    ⟨2, { kind := .lambda }, 3, 9⟩, ⟨3, { kind := .returnStmt }, 4, 8⟩,
    ⟨2, { kind := .ifStmt }, 10, 20⟩,
    ⟨5, { kind := .throwStmt }, 11, 19⟩, ⟨2, { kind := .returnStmt }, 21, 27⟩]

def untilRaised (n : Node) : Step :=
  if n.kind = .lambda then .skip else if n.kind = .throwStmt then .abort "raises" else .descend

theorem raisingMethod_walked : ∃ t p, grow (raisingMethod.map fun e => (e.parent, e.node)) = .ok t ∧
    t.place? 1 = .ok p ∧
    ((p.calls untilRaised).state.filterMap Call.entered?).map (·.node.id) = [1, 2, 3, 5, 6] ∧
    (p.calls untilRaised).state.filterMap Call.left? = [] ∧
    (∃ before a reason, p.StopsAt untilRaised before a reason) ∧
    p.WalksThrough (fun n => (untilRaised n).persist) ∧
    ((p.calls fun n => (untilRaised n).persist).state.filterMap Call.left?).map
        (·.node.id) = [6, 5, 7, 2, 1] := by
  obtain ⟨t, p, ht, hp, -, -, hstops, -⟩ :=
    walk_agrees raisingMethod (by decide) 1 (by decide) untilRaised
  obtain ⟨t', p', ht', hp', -, hthrough, -⟩ :=
    walk_agrees raisingMethod (by decide) 1 (by decide) fun n => (untilRaised n).persist
  obtain rfl := Except.ok.inj (ht.symm.trans ht')
  obtain rfl := Except.ok.inj (hp.symm.trans hp')
  have hrun : ((grow (raisingMethod.map fun e => (e.parent, e.node))).bind fun t =>
    (t.place? 1).map fun p : Place =>
      (((p.calls untilRaised).state.filterMap Call.entered?).map (·.node.id),
        (p.calls untilRaised).state.filterMap Call.left?,
        ((p.calls fun n => (untilRaised n).persist).state.filterMap Call.left?).map (·.node.id),
        (visit (fun n => untilRaised n ≠ .skip) p.subtree).any fun n =>
          (untilRaised n).reason? ≠ none)) =
      .ok ([1, 2, 3, 5, 6], [], [6, 5, 7, 2, 1], true) := by
    decide +kernel
  rw [ht, Except.bind, show t.place? 1 = .ok p from hp] at hrun
  have hparts := Except.ok.inj hrun
  simp only [Prod.mk.injEq, List.any_eq_true, decide_eq_true_eq] at hparts
  obtain ⟨hentered, hleft, hall, hraises⟩ := hparts
  exact ⟨t, p, ht, hp, hentered, hleft, hstops hraises,
    hthrough fun q _ => Step.reason?_persist _, hall⟩

end Extraction
