import Extraction.Proofs.Classification
import Extraction.Proofs.Exposed

/-!
# Trees that were grown

A tree that is grown node by node need not be laid out: its ranges may be empty, overlap or leave
their parents, and a part may stand anywhere.  A selection of such a tree still has a verdict.  The
traversal meets places of the tree only, each of which is found again by its number, no range that
it makes into an extent is reversed, and the frames of the `try` statements are popped only while
one stands above the frame of the whole selection.
-/

namespace Extraction

/-- A node to be added: the number of its parent, -1 if it has none, what it is, and the bytes it
spans. -/
structure Addition where
  parent : Int
  payload : Payload
  start : Int
  stop : Int
deriving DecidableEq, Repr

namespace Addition

def node (e : Addition) (id : Nat) : Node :=
  { e.payload with id, start := e.start, stop := e.stop }

end Addition

theorem Forest.count_graft {α : Type} [DecidableEq α] (here : α → Bool) (leaf a : α)
    (f : Forest α) :
    (f.graft here leaf).toList.count a = f.toList.count a + if leaf = a then f.toList.countP here
      else 0 := by
  induction f with
  | nil => simp [graft, toList]
  | cons root children rest ihc ihr =>
    simp only [graft, toList, List.count_cons, List.count_append, List.countP_cons,
      List.countP_append, ihr]
    by_cases hleaf : leaf = a <;> cases hhere : here root <;>
      simp [hleaf, toList] at ihc ⊢ <;> omega

namespace SyntaxTree

def Numbered (count : Nat) (t : SyntaxTree) : Prop :=
  (t.toList.map (·.id)).Perm (List.range count)

/-- The nodes are numbered from zero, and no range is reversed. -/
structure Grown (count : Nat) (t : SyntaxTree) : Prop where
  numbers : Numbered count t
  ranges : ∀ n ∈ t.toList, n.start ≤ n.stop

variable {t : SyntaxTree} {count : Nat}

theorem numbered_nil : Numbered 0 (.nil : SyntaxTree) :=
  List.Perm.refl _

theorem Numbered.nodup (h : Numbered count t) : (t.toList.map (·.id)).Nodup :=
  h.nodup_iff.mpr List.nodup_range

theorem Numbered.toList_add (h : Numbered count t) {parent : Option Nat}
    (hparent : ∀ i ∈ parent, i < count) (n : Node) :
    (t.add parent n).toList.Perm (n :: t.toList) := by
  cases parent with
  | none =>
    rw [SyntaxTree.add, Forest.toList_append]
    exact List.perm_append_comm
  | some i =>
    have hcount : t.toList.countP (fun m => m.id == i) = 1 := by
      have hmap : t.toList.countP (fun m => m.id == i) = (t.toList.map (·.id)).count i := by
        rw [List.count, List.countP_map]
        rfl
      rw [hmap, h.count_eq, List.count_range, if_pos (hparent i rfl)]
    refine List.perm_iff_count.mpr fun a => ?_
    rw [SyntaxTree.add, Forest.count_graft, hcount, List.count_cons]
    simp

theorem Numbered.add (h : Numbered count t) {parent : Option Nat}
    (hparent : ∀ i ∈ parent, i < count) {n : Node} (hid : n.id = count) :
    Numbered (count + 1) (t.add parent n) :=
  calc ((t.add parent n).toList.map (·.id)).Perm (n.id :: t.toList.map (·.id)) :=
    (h.toList_add hparent n).map (·.id)
    List.Perm _ (count :: List.range count) := by rw [hid]; exact h.cons count
    List.Perm _ (List.range (count + 1)) := by
      rw [List.range_succ]; exact (List.perm_append_singleton _ _).symm

theorem grow_go_cons (t : SyntaxTree) {e : Addition} (rest : List (Int × (Nat → Node)))
    (h : -1 ≤ e.parent ∧ e.parent < count) :
    ∃ parent : Option Nat, (∀ i ∈ parent, i < count) ∧
      grow.go t count ((e.parent, e.node) :: rest) = grow.go (t.add parent (e.node count))
      (count + 1) rest := by
  rw [grow.go]
  split
  · exact ⟨none, by simp, rfl⟩
  · rw [if_pos (by omega)]
    refine ⟨some e.parent.toNat, fun i hi => ?_, rfl⟩
    cases hi
    omega

theorem Numbered.grow_go (h : Numbered count t) (additions : List Addition)
    (hparents : ∀ i (hi : i < additions.length), -1 ≤ additions[i].parent ∧
    additions[i].parent < count + i) :
    ∃ t', grow.go t count (additions.map fun e => (e.parent, e.node)) = .ok t' ∧
      Numbered (count + additions.length) t' ∧
      ∀ n ∈ t'.toList, n ∈ t.toList ∨ ∃ i, ∃ hi : i < additions.length, n =
          additions[i].node (count + i) := by
  induction additions generalizing t count with
  | nil => exact ⟨t, rfl, h, fun n hn => Or.inl hn⟩
  | cons e additions ih =>
    have hfirst : -1 ≤ e.parent ∧ e.parent < count := by
      have := hparents 0 (by simp)
      simpa using this
    have hrest : ∀ i (hi : i < additions.length),
        -1 ≤ additions[i].parent ∧ additions[i].parent < ((count + 1 : Nat) : Int) + i := by
      intro i hi
      have := hparents (i + 1) (by simpa using hi)
      simp only [List.getElem_cons_succ] at this
      omega
    have hcount : count + (e :: additions).length = count + 1 + additions.length := by
      rw [List.length_cons]
      omega
    obtain ⟨parent, hparent, hgo⟩ :=
      grow_go_cons t (additions.map fun e => (e.parent, e.node)) hfirst
    obtain ⟨t', ht', hnumbered, hnodes⟩ := ih (h.add hparent (n := e.node count) rfl) hrest
    rw [List.map_cons, hgo, hcount]
    refine ⟨t', ht', hnumbered, fun n hn => ?_⟩
    rcases hnodes n hn with hn | ⟨i, hi, rfl⟩
    · rcases List.mem_cons.mp ((h.toList_add hparent _).mem_iff.mp hn) with rfl | hn
      · exact Or.inr ⟨0, Nat.zero_lt_succ _, rfl⟩
      · exact Or.inl hn
    · refine Or.inr ⟨i + 1, Nat.succ_lt_succ hi, ?_⟩
      rw [List.getElem_cons_succ, Nat.add_right_comm, Nat.add_assoc]

theorem Numbered.place?_eq (h : Numbered count t) {p : Place} (hp : p ∈ t.places) :
    t.place? p.node.id = .ok p := by
  have hids : (t.places.map fun p => p.node.id) = t.toList.map (·.id) := by
    rw [← map_node_placesBelow [] t, List.map_map]
    rfl
  have hfind := find?_eq_some_of_nodup (hids ▸ h.nodup) hp
  simp only [place?, Int.ofNat_inj, hfind]

theorem Grown.grow_go (h : Grown count t) (additions : List Addition)
    (hparents : ∀ i (hi : i < additions.length), -1 ≤ additions[i].parent ∧
    additions[i].parent < count + i) (hranges : ∀ e ∈ additions, e.start ≤ e.stop) :
    ∃ t', grow.go t count (additions.map fun e => (e.parent, e.node)) = .ok t' ∧
      Grown (count + additions.length) t' := by
  obtain ⟨t', ht', hnumbered, hnodes⟩ := h.numbers.grow_go additions hparents
  refine ⟨t', ht', hnumbered, fun n hn => ?_⟩
  rcases hnodes n hn with hn | ⟨i, hi, rfl⟩
  · exact h.ranges n hn
  · exact hranges _ (List.getElem_mem hi)

theorem Grown.place?_eq (h : Grown count t) {p : Place} (hp : p ∈ t.places) :
    t.place? p.node.id = .ok p :=
  h.numbers.place?_eq hp

theorem Grown.exists_place?_eq (h : Grown count t) {n : Node} (hn : n ∈ t.toList) :
    ∃ p, t.place? n.id = .ok p ∧ p.node = n := by
  obtain ⟨p, hp, rfl⟩ := exists_place_of_mem [] hn
  exact ⟨p, h.place?_eq hp, rfl⟩

theorem placesBelow_first (t : SyntaxTree) : ∀ p ∈ placesBelow [] t.first, p ∈ t.places := by
  cases t with
  | nil => exact fun p hp => hp
  | cons n children rest =>
    intro p hp
    simp only [Forest.first, places, placesBelow, List.append_nil, List.mem_cons,
      List.mem_append] at hp ⊢
    rcases hp with rfl | hp
    · exact Or.inl rfl
    · exact Or.inr (Or.inl hp)

theorem relatives_mem {p : Place} (hp : p ∈ t.places) :
    ∀ n ∈ p.ancestors ++ p.children.roots, n ∈ t.toList := by
  intro n hn
  rcases List.mem_append.mp hn with hn | hn
  · obtain ⟨upper, hupper, hnodes⟩ := exists_upper hp
    rw [hupper, List.append_nil] at hn
    exact hnodes n hn
  · obtain ⟨c, hc, rfl⟩ := exists_place_of_mem p.below (roots_subset n hn)
    exact node_mem_of_mem_placesBelow (inner_subset hp c hc)

end SyntaxTree

namespace Trace

open SyntaxTree

variable {sel : Extent} {path : List Node} {f : SyntaxTree}

/-- What the trace refers to comes from the forest, and the selection does not start behind the
first selected node. -/
structure Grounded (sel : Extent) (path : List Node) (f : SyntaxTree) (s : Trace) : Prop where
  fault : s.fault = none
  method : ∀ n ∈ s.method, n ∈ f.toList
  first : ∀ n ∈ s.first, sel.offset ≤ n.start
  topLevel : ∀ n ∈ s.topLevel, n ∈ f.toList
  events : ∀ e ∈ s.events.toList, e.place ∈ placesBelow path f

theorem grounded_initial : Grounded sel path f {} := by
  constructor <;> simp

theorem Grounded.record {s : Trace} (h : Grounded sel path f s) {es : List Event}
    (hes : ∀ e ∈ es, e.place ∈ placesBelow path f) : Grounded sel path f (s.record es) := by
  refine { h with events := fun e he => ?_ }
  simp only [Trace.record, Array.toList_append, List.mem_append] at he
  rcases he with he | he
  · exact h.events e he
  · exact hes e he

theorem Grounded.classifies {s s' : Trace} {p : Place} (h : Grounded sel path f s)
    (hp : p ∈ placesBelow path f) (hc : Classifies sel p s s') : Grounded sel path f s' := by
  have hjoined : ∀ n ∈ s.topLevel ++ [p.node], n ∈ f.toList :=
    List.forall_mem_append.mpr
      ⟨h.topLevel, List.forall_mem_singleton.mpr (node_mem_of_mem_placesBelow hp)⟩
  cases hc with
  | outside | within | ends | cut => exact { h with }
  | joins | strays => exact { h with topLevel := hjoined }
  | begins _ hcover =>
    refine { h with topLevel := hjoined, first := fun n hn => ?_ }
    cases hn
    exact hcover.1

theorem Grounded.enter {s : Trace} {p : Place} (h : Grounded sel path f s)
    (hp : p ∈ placesBelow path f) (hle : p.node.start ≤ p.node.stop) :
    Grounded sel path f (enter sel s p).2 := by
  rcases enter_cases sel s hle with heq | ⟨-, heq⟩ | heq
  · rwa [heq]
  · rw [heq]
    constructor
    · exact h.fault
    · rintro n ⟨⟩
      exact node_mem_of_mem_placesBelow hp
    · rintro n ⟨⟩
    · exact List.forall_mem_nil _
    · exact h.events
  · have hclassified := h.classifies hp (classifies_classified sel s p hle)
    rw [heq, entered_eq]
    apply Grounded.record
    · exact { hclassified with }
    · intro e he
      rwa [(place_of_mem_entering he).2]

theorem Grounded.leave {s : Trace} {p : Place} (h : Grounded sel path f s)
    (hp : p ∈ placesBelow path f) :
    Grounded sel path f (leave s p) := by
  rcases leave_cases s p with heq | heq | heq
  · rwa [heq]
  · rw [heq]
    exact { h with }
  · have hrecord : Grounded sel path f
        (s.record (Event.leaving s.phaseOf (decide (0 < s.depth - p.nesting)) p)) := by
      apply h.record
      intro e he
      rcases (place_of_mem_leaving he).2 with hplace | hplace
      · rwa [hplace]
      · exact inner_subset hp _ (rootPlaces_subset _ _ _ hplace).1
    rw [heq]
    exact { hrecord with }

theorem grounded_walk (hranges : ∀ n ∈ f.toList, n.start ≤ n.stop) {s : Trace}
    (h : Grounded sel path f s) :
    Grounded sel path f (SyntaxTree.walk (Trace.enter sel) Trace.leave path f s).state :=
  walk_induction (fun _ _ hp hs => hs.enter hp (hranges _ (node_mem_of_mem_placesBelow hp)))
    (fun _ _ hp hs => hs.leave hp) h

theorem place_mem_of_mem_events {t : SyntaxTree} (h : Laid 0 0 t.first) :
    ∀ e ∈ (ofSelection t sel).events.toList, e.place ∈ places t.first := by
  have hranges : ∀ n ∈ t.first.toList, n.start ≤ n.stop := by
    intro n hn
    have := laid_bounds h hn
    omega
  exact (grounded_walk hranges grounded_initial).events

theorem Grounded.exists_validated {s : Trace} (h : Grounded sel path f s)
    (hranges : ∀ n ∈ f.toList, n.start ≤ n.stop) (boundaries : Boundaries) :
    ∃ ds, s.validated sel boundaries = .ok ds := by
  cases hmethod : s.method with
  | none => exact ⟨_, by rw [validated, hmethod]⟩
  | some m =>
    cases hfirst : s.first with
    | none => exact ⟨_, by rw [validated, hmethod, hfirst]⟩
    | some first =>
      obtain ⟨ds, hds, -⟩ := validated_eq_ok boundaries hmethod hfirst
        (fun n hn => hranges n (h.topLevel n hn)) (h.first first hfirst)
      exact ⟨ds, hds⟩

end Trace

theorem RaiseFrame.owner_raise (x : RaiseFrame) (raised : TypeSet) :
    (x.raise raised).owner = x.owner := by
  unfold RaiseFrame.raise
  split <;> rfl

namespace Raises

/-- The event leaves the `try` statement whose frame is the innermost one. -/
def Closes (s : Raises) (e : Event) : Prop :=
  e.nested = false ∧ e.phase = .selected ∧ e.kind = .leave ∧ e.node.kind = .tryStmt ∧
    s.top.owner = some e.node.id

theorem length_modifyTop (s : Raises) (f : RaiseFrame → RaiseFrame) :
    (s.modifyTop f).inner.length = s.inner.length := by
  unfold modifyTop
  split
  next hinner => rw [hinner]
  next hinner => simp [hinner]

theorem owner_outermost_modifyTop (s : Raises) {f : RaiseFrame → RaiseFrame}
    (hf : ∀ x, (f x).owner = x.owner) :
    (s.modifyTop f).outermost.owner = s.outermost.owner := by
  unfold modifyTop
  split
  · exact hf _
  · rfl

inductive Steps (s : Raises) (e : Event) : Raises → Prop where
  | stays (hopen : ¬ s.Closes e) : Steps s e s
  | pushes (hopen : ¬ s.Closes e) : Steps s e (s.push e.node.id)
  | changes (hopen : ¬ s.Closes e) (f : RaiseFrame → RaiseFrame)
      (howner : ∀ x, (f x).owner = x.owner) :
      Steps s e (s.modifyTop f)
  | pops (hclosed : s.Closes e) : Steps s e s.pop

theorem steps_step (s : Raises) (e : Event) : Steps s e (s.step e) := by
  have hother : e.kind ≠ .leave → ¬ s.Closes e := fun hkind hc => hkind hc.2.2.1
  unfold step
  simp only
  split
  next hignored =>
    refine .stays fun hc => ?_
    simp [hc.1, hc.2.1] at hignored
  next hheeded =>
    simp only [Bool.or_eq_true, bne_iff_ne, not_or, Bool.not_eq_true, not_not] at hheeded
    split
    next hkind =>
      have hopen := hother (by simp [hkind])
      split
      · exact .pushes hopen
      · exact .stays hopen
    next hkind => exact .changes (hother (by simp [hkind])) _ fun x => RaiseFrame.owner_raise x _
    next hkind =>
      have hopen := hother (by simp [hkind])
      split
      · exact .changes hopen _ fun _ => rfl
      · exact .stays hopen
    next hkind =>
      split
      next hclosed => exact .pops ⟨hheeded.1, hheeded.2, hkind, hclosed⟩
      next hopen =>
        have hopen : ¬ s.Closes e := fun hc => hopen hc.2.2.2
        split
        · exact .changes hopen _ fun _ => rfl
        · exact .stays hopen
    next hkind => exact .stays (hother (by simp [hkind]))

theorem owner_outermost_step (s : Raises) (e : Event) :
    (s.step e).outermost.owner = s.outermost.owner := by
  have hstep := s.steps_step e
  generalize s.step e = s' at hstep ⊢
  cases hstep with
  | stays | pushes => rfl
  | changes _ f howner => exact owner_outermost_modifyTop s howner
  | pops =>
    unfold pop
    split
    · rfl
    · exact owner_outermost_modifyTop _ fun x => RaiseFrame.owner_raise x _

theorem owner_outermost_ofEvents (events : List Event) :
    (ofEvents events).outermost.owner = none := by
  suffices h : ∀ s : Raises, (events.foldl step s).outermost.owner = s.outermost.owner from h {}
  induction events with
  | nil => exact fun _ => rfl
  | cons e events ih => exact fun s => (ih (s.step e)).trans (s.owner_outermost_step e)

/-- Since the outermost frame has no owner, a `try` statement that is left has a frame of its own to
be popped. -/
theorem length_step_of_closes {s : Raises} {e : Event} (hroot : s.outermost.owner = none)
    (h : s.Closes e) :
    s.inner.length = (s.step e).inner.length + 1 := by
  have howner := h.2.2.2.2
  have hstep := s.steps_step e
  generalize s.step e = s' at hstep ⊢
  cases hstep with
  | stays hopen | pushes hopen | changes hopen => exact absurd h hopen
  | pops =>
    unfold pop
    split
    next hinner =>
      rw [top, hinner, List.headD_nil, hroot] at howner
      cases howner
    next hinner => rw [length_modifyTop, hinner, List.length_cons]

theorem length_le_step {s : Raises} {e : Event} (h : ¬ s.Closes e) :
    s.inner.length ≤ (s.step e).inner.length := by
  have hstep := s.steps_step e
  generalize s.step e = s' at hstep ⊢
  cases hstep with
  | stays => exact Nat.le_refl _
  | pushes => exact Nat.le_succ _
  | changes _ f => exact Nat.le_of_eq (length_modifyTop s f).symm
  | pops hclosed => exact absurd hclosed h

end Raises

open SyntaxTree in
/-- Every selection of a tree whose nodes were added one after the other, each under a node that was
added before and none with a reversed range, has a verdict, whatever the text allows as its ends: so
no extent that the analysis makes is reversed.  Every place it meets and every node next to it is
found by its number, and so is every node it names.  A frame is popped only if one stands above the
outermost frame. -/
theorem analyze_grown (additions : List Addition)
    (hparents : ∀ i (hi : i < additions.length), -1 ≤ additions[i].parent ∧ additions[i].parent < i)
    (hranges : ∀ e ∈ additions, e.start ≤ e.stop) (sel : Extent) (boundaries : Boundaries) :
    ∃ t w, grow (additions.map fun e => (e.parent, e.node)) = .ok t ∧
      analyze t sel boundaries = .ok w ∧
      (∀ e ∈ (Trace.ofSelection t sel).events.toList, t.place? e.node.id = .ok e.place ∧
        ∀ n ∈ e.place.ancestors ++ e.place.children.roots,
          ∃ p, t.place? n.id = .ok p ∧ p.node = n) ∧
      (∀ i ∈ w.method.toList ++ w.selected, ∃ p, t.place? i = .ok p) ∧
      ∀ before e after, (Trace.ofSelection t sel).events.toList = before ++ e :: after →
        ((Raises.ofEvents before).Closes e →
          (Raises.ofEvents before).inner.length =
          (Raises.ofEvents (before ++ [e])).inner.length + 1) ∧
        (¬ (Raises.ofEvents before).Closes e →
          (Raises.ofEvents before).inner.length ≤
          (Raises.ofEvents (before ++ [e])).inner.length) := by
  have hempty : Grown 0 (.nil : SyntaxTree) := ⟨List.Perm.refl _, List.forall_mem_nil _⟩
  obtain ⟨t, ht, hgrown⟩ := hempty.grow_go additions (by simpa using hparents) hranges
  have hfirst := placesBelow_first t
  have hnodes : ∀ n ∈ t.first.toList, n ∈ t.toList := by
    intro n hn
    obtain ⟨p, hp, rfl⟩ := exists_place_of_mem [] hn
    exact node_mem_of_mem_placesBelow (hfirst p hp)
  have hrange := fun n hn => hgrown.ranges n (hnodes n hn)
  have hground : Trace.Grounded sel [] t.first (Trace.ofSelection t sel) :=
    Trace.grounded_walk hrange Trace.grounded_initial
  obtain ⟨ds, hds⟩ := hground.exists_validated hrange boundaries
  refine ⟨t, _, ht, Trace.analyze_of_validated hground.fault hds, fun e he => ?_, fun i hi => ?_,
    fun before e after _ => ?_⟩
  · have hplace := hfirst _ (hground.events e he)
    exact ⟨hgrown.place?_eq hplace, fun n hn => hgrown.exists_place?_eq (relatives_mem hplace n hn)⟩
  · have hnamed : ∃ n ∈ t.toList, n.id = i := by
      rw [Trace.verdict_method, Trace.verdict_selected] at hi
      rcases List.mem_append.mp hi with hi | hi
      · obtain ⟨m, hm, rfl⟩ := Option.map_eq_some_iff.mp (Option.mem_toList.mp hi)
        exact ⟨m, hnodes m (hground.method m hm), rfl⟩
      · obtain ⟨n, hn, rfl⟩ := List.mem_map.mp hi
        exact ⟨n, hnodes n (hground.topLevel n hn), rfl⟩
    obtain ⟨n, hn, rfl⟩ := hnamed
    obtain ⟨p, hp, -⟩ := hgrown.exists_place?_eq hn
    exact ⟨p, hp⟩
  · have hstep : Raises.ofEvents (before ++ [e]) = (Raises.ofEvents before).step e := by
      simp [Raises.ofEvents]
    rw [hstep]
    exact ⟨Raises.length_step_of_closes (Raises.owner_outermost_ofEvents before),
      Raises.length_le_step⟩

/-- A method in an empty file, with a body that begins before it, a `try` statement whose body
begins before it and raises over no bytes at all, and a detached statement. -/
def entangled : List Addition :=
  [⟨-1, { kind := .file }, 0, 0⟩, ⟨0, { kind := .method }, 3, 9⟩,
    ⟨1, { kind := .block, role := .body }, 0, 40⟩, ⟨2, { kind := .tryStmt }, 10, 30⟩,
    ⟨3, { kind := .block, role := .body }, 5, 20⟩,
    ⟨4, { kind := .throwStmt, types := [.root "A" false] }, 12, 12⟩,
      ⟨-1, { kind := .returnStmt }, -7, 7⟩]

theorem entangled_analyzed :
    ∃ t w, SyntaxTree.grow (entangled.map fun e => (e.parent, e.node)) = .ok t ∧
    analyze t ⟨10, 20⟩ .everywhere = .ok w ∧ w.throws = [.root "A" false] ∧ w.selected = [3, 5] ∧
    ∀ i ∈ w.method.toList ++ w.selected, ∃ p, t.place? i = .ok p := by
  obtain ⟨t, w, ht, hw, -, hnamed, -⟩ :=
    analyze_grown entangled (by decide) (by decide) ⟨10, 20⟩ .everywhere
  have hrun : ((SyntaxTree.grow (entangled.map fun e => (e.parent, e.node))).bind fun t =>
      (analyze t ⟨10, 20⟩ .everywhere).map fun w => (w.throws, w.selected)) =
          .ok ([.root "A" false], [3, 5]) := by
    decide +kernel
  rw [ht, Except.bind, hw] at hrun
  have hparts := Prod.mk.inj (Except.ok.inj hrun)
  exact ⟨t, w, ht, hw, hparts.1, hparts.2, hnamed⟩

end Extraction
