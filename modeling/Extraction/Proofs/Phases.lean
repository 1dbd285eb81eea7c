import Mathlib.Data.Nat.Find
import Extraction.Proofs.Stream

/-!
# The phases of a scan

In a laid-out forest the selected phase begins at the first covered node and ends at the first later
node that is not covered.  With the numbers `a` and `b` of these two nodes the phase of every node
is known, and with it what a scan records: the events, the top-level nodes, how far the selected
nodes reach and whether there is a diagnostic.
-/

namespace Extraction

namespace Phase

/-- The phase once the nodes with numbers below `i` are entered, if those from `a` up to `b` are
selected. -/
def upTo (a b i : Nat) : Phase :=
  if i ≤ a then .before else if i ≤ b then .selected else .after

/-- The phase of a node by its number, if those from `a` up to `b` are selected. -/
def among (a b i : Nat) : Phase :=
  upTo a b (i + 1)

variable {a b i : Nat}

theorem upTo_eq_before_iff : upTo a b i = .before ↔ i ≤ a := by
  grind [upTo]

theorem upTo_eq_selected_iff : upTo a b i = .selected ↔ a < i ∧ i ≤ b := by
  grind [upTo]

theorem upTo_eq_after_iff : upTo a b i = .after ↔ a < i ∧ b < i := by
  grind [upTo]

theorem among_eq_before_iff : among a b i = .before ↔ i < a :=
  upTo_eq_before_iff

theorem among_eq_selected_iff : among a b i = .selected ↔ a ≤ i ∧ i < b := by
  rw [among, upTo_eq_selected_iff]
  omega

theorem among_eq_after_iff : among a b i = .after ↔ a ≤ i ∧ b ≤ i := by
  rw [among, upTo_eq_after_iff]
  omega

end Phase

/-- The covered nodes start at number `a` and, from there on, end before number `b`. -/
structure Splits (sel : Extent) (nodes : List Node) (a b : Nat) : Prop where
  le : a ≤ b
  begins : ∀ n ∈ nodes, a ≤ n.id → a < b
  before : ∀ n ∈ nodes, n.id < a → ¬ sel.Covers n.start n.stop
  selected : ∀ n ∈ nodes, a ≤ n.id → n.id < b → sel.Covers n.start n.stop
  after : ∀ n ∈ nodes, n.id = b → sel.past < n.stop

/-- Every laid-out forest splits.  A node from the first covered one on starts within the selection,
so it is covered unless it ends beyond. -/
theorem exists_splits {f : SyntaxTree} {offset : Int} {id : Nat} (sel : Extent)
    (h : SyntaxTree.Laid offset id f) :
    ∃ a b, Splits sel f.toList a b ∧ id ≤ a := by
  classical
  by_cases hcovered : ∃ i, ∃ n ∈ f.toList, n.id = i ∧ sel.Covers n.start n.stop
  · obtain ⟨first, hfirst, ha, hcover⟩ := Nat.find_spec hcovered
    have hleast : ∀ n ∈ f.toList, n.id < Nat.find hcovered → ¬ sel.Covers n.start n.stop :=
      fun n hn hlt hc => Nat.find_min hcovered hlt ⟨n, hn, rfl, hc⟩
    have hstarts : ∀ n ∈ f.toList, Nat.find hcovered ≤ n.id → sel.offset ≤ n.start := by
      intro n hn hle
      obtain ⟨p, hp, rfl⟩ := SyntaxTree.exists_place_of_mem [] hn
      obtain ⟨q, hq, rfl⟩ := SyntaxTree.exists_place_of_mem [] hfirst
      have hcover' := hcover.1
      rcases Nat.lt_or_eq_of_le (ha ▸ hle) with hlt | heq
      · have := SyntaxTree.start_lt_of_id_lt h hq hp hlt
        omega
      · rw [← SyntaxTree.place_unique h hq hp heq]
        exact hcover'
    have hid : id ≤ Nat.find hcovered := ha ▸ (SyntaxTree.laid_bounds h hfirst).2.2.2.1
    by_cases hbeyond : ∃ i, Nat.find hcovered ≤ i ∧ ∃ n ∈ f.toList, n.id = i ∧ sel.past < n.stop
    · obtain ⟨hle, last, hlast, hb, hstop⟩ := Nat.find_spec hbeyond
      refine ⟨Nat.find hcovered, Nat.find hbeyond, ⟨hle, ?_, hleast, ?_, ?_⟩, hid⟩
      · intro _ _ _
        refine Nat.lt_of_le_of_ne hle fun heq => ?_
        obtain ⟨p, hp, rfl⟩ := SyntaxTree.exists_place_of_mem [] hfirst
        obtain ⟨q, hq, rfl⟩ := SyntaxTree.exists_place_of_mem [] hlast
        have hcover' := hcover.2
        rw [SyntaxTree.place_unique h hp hq (by omega)] at hcover'
        omega
      · intro n hn hale hlt
        refine ⟨hstarts n hn hale, Int.not_lt.mp fun hgt => ?_⟩
        exact Nat.find_min hbeyond hlt ⟨hale, n, hn, rfl, hgt⟩
      · intro n hn hnb
        obtain ⟨p, hp, rfl⟩ := SyntaxTree.exists_place_of_mem [] hn
        obtain ⟨q, hq, rfl⟩ := SyntaxTree.exists_place_of_mem [] hlast
        rw [SyntaxTree.place_unique h hp hq (by omega)]
        exact hstop
    · have hbound := SyntaxTree.laid_bounds h hfirst
      refine ⟨Nat.find hcovered, id + f.size,
        ⟨by omega, fun _ _ _ => by omega, hleast, ?_, ?_⟩, hid⟩
      · intro n hn hale _
        refine ⟨hstarts n hn hale, Int.not_lt.mp fun hgt => hbeyond ⟨n.id, hale, n, hn, rfl, hgt⟩⟩
      · intro n hn hnb
        have := SyntaxTree.laid_bounds h hn
        omega
  · refine ⟨id + f.size, id + f.size,
      ⟨Nat.le_refl _, ?_, fun n hn _ hc => hcovered ⟨n.id, n, hn, rfl, hc⟩, ?_, ?_⟩,
      Nat.le_add_right _ _⟩
    all_goals
      intro n hn
      have := SyntaxTree.laid_bounds h hn
      omega

theorem Splits.mono {sel : Extent} {nodes nodes' : List Node} {a b : Nat} (h : Splits sel nodes a b)
    (hsub : ∀ n ∈ nodes', n ∈ nodes) : Splits sel nodes' a b where
  le := h.le
  begins n hn := h.begins n (hsub n hn)
  before n hn := h.before n (hsub n hn)
  selected n hn := h.selected n (hsub n hn)
  after n hn := h.after n (hsub n hn)

theorem Splits.children {sel : Extent} {n : Node} {children rest : SyntaxTree} {a b : Nat}
    (h : Splits sel (Forest.cons n children rest).toList a b) : Splits sel children.toList a b :=
  h.mono fun _ hm => List.mem_cons_of_mem n (List.mem_append_left _ hm)

theorem Splits.rest {sel : Extent} {n : Node} {children rest : SyntaxTree} {a b : Nat}
    (h : Splits sel (Forest.cons n children rest).toList a b) : Splits sel rest.toList a b :=
  h.mono fun _ hm => List.mem_cons_of_mem n (List.mem_append_right _ hm)

theorem Splits.among_eq_selected {sel : Extent} {nodes : List Node} {a b : Nat}
    (h : Splits sel nodes a b) {n : Node} (hn : n ∈ nodes)
    (hphase : Phase.upTo a b n.id = .selected) (hstop : n.stop ≤ sel.past) :
    Phase.among a b n.id = .selected := by
  rw [Phase.upTo_eq_selected_iff] at hphase
  rw [Phase.among_eq_selected_iff]
  refine ⟨by omega, Nat.lt_of_le_of_ne hphase.2 fun hb => ?_⟩
  have := h.after n hn hb
  omega

theorem Splits.id_eq {sel : Extent} {nodes : List Node} {a b : Nat}
    (h : Splits sel nodes a b) {n : Node} (hn : n ∈ nodes)
    (hphase : Phase.upTo a b n.id = .selected) (hstop : sel.past < n.stop) : n.id = b := by
  rw [Phase.upTo_eq_selected_iff] at hphase
  refine Nat.le_antisymm hphase.2 (Nat.not_lt.mp fun hlt => ?_)
  have hcover := (h.selected n hn (by omega) hlt).2
  omega

theorem Place.mem_stores {p c : Place} (h : c ∈ p.stores) :
    p.node.kind = .declarator ∧ c = p ∨ c ∈ SyntaxTree.rootPlaces p.below p.children ∧
      c.node.kind = .name := by
  unfold Place.stores at h
  split at h
  next =>
    obtain ⟨hchild, hname⟩ := List.mem_filter.mp h
    exact Or.inr ⟨hchild, (of_decide_eq_true hname).2⟩
  next hkind =>
    split at h
    next => exact Or.inl ⟨hkind, List.mem_singleton.mp h⟩
    next => cases h
  next => cases h

theorem Event.leaving_congr (phase phase' : Nat → Phase) (nested : Bool) (p : Place)
    (hp : phase p.node.id = phase' p.node.id)
    (hc : ∀ c ∈ p.children.toList, phase c.id = phase' c.id) :
    Event.leaving phase nested p = Event.leaving phase' nested p := by
  have hstoring : p.stores.map (Event.storing phase nested) =
      p.stores.map (Event.storing phase' nested) := by
    apply List.map_congr_left
    intro c hcp
    have hphase : phase c.node.id = phase' c.node.id := by
      rcases Place.mem_stores hcp with ⟨-, rfl⟩ | ⟨hchild, -⟩
      · exact hp
      · exact hc _ (SyntaxTree.node_mem_of_mem_placesBelow
          (SyntaxTree.rootPlaces_subset _ _ _ hchild).1)
    rw [Event.storing, Event.storing, hphase]
  rw [Event.leaving, Event.leaving, List.flatMap_def, List.flatMap_def, hstoring, hp]

namespace Trace

open SyntaxTree

variable {sel : Extent} {path : List Node} {f : SyntaxTree} {offset : Int} {id a b : Nat}

theorem classified_phase {p : Place} {nodes : List Node} (hsplits : Splits sel nodes a b)
    (hp : p.node ∈ nodes) (hrange : p.node.start < p.node.stop) (s : Trace)
    (hs : s.phase = Phase.upTo a b p.node.id) :
    (classified sel s p).phase = Phase.among a b p.node.id := by
  have hbegins := hsplits.begins p.node hp
  have hbefore := hsplits.before p.node hp
  have hselected := hsplits.selected p.node hp
  have hafter := hsplits.after p.node hp
  have hle := hsplits.le
  unfold Phase.upTo at hs
  unfold Phase.among Phase.upTo
  have hc := classifies_classified sel s p (Int.le_of_lt hrange)
  generalize classified sel s p = s' at hc ⊢
  rcases Nat.lt_trichotomy p.node.id a with hlt | heq | hgt
  · rw [if_pos (by omega)] at hs
    rw [if_pos (by omega)]
    cases hc with
    | outside => exact hs
    | begins _ hcover => exact absurd hcover (hbefore hlt)
    | _ => simp_all
  · rw [if_pos (by omega)] at hs
    rw [if_neg (by omega), if_pos (by have := hbegins (by omega); omega)]
    cases hc with
    | outside _ hcover =>
      exact absurd ⟨hrange, hselected (by omega) (by have := hbegins (by omega); omega)⟩ (hcover hs)
    | begins => rfl
    | _ => simp_all
  · rw [if_neg (by omega)] at hs ⊢
    rcases Nat.lt_trichotomy p.node.id b with hlt' | heq' | hgt'
    · -- a covered node neither ends nor cuts the selection
      obtain ⟨_, hstop⟩ := hselected (by omega) hlt'
      rw [if_pos (by omega)] at hs ⊢
      cases hc with
      | outside hphase => exact absurd hs hphase
      | begins hphase => simp_all
      | ends _ hstart => omega
      | cut _ hcut => exact absurd hcut.2 (by omega)
      | _ => exact hs
    · have hstop := hafter heq'
      rw [if_pos (by omega)] at hs
      rw [if_neg (by omega)]
      cases hc with
      | outside hphase => exact absurd hs hphase
      | begins hphase => simp_all
      | within _ _ hstop' => omega
      | joins _ _ hstop' => omega
      | strays _ _ hstop' => omega
      | ends => rfl
      | cut => rfl
    · rw [if_neg (by omega)] at hs ⊢
      cases hc with
      | outside => exact hs
      | _ => simp_all

theorem laid_lt {p : Place} (h : Laid offset id f) (hp : p ∈ placesBelow path f) :
    p.node.start < p.node.stop := by
  have hb := laid_bounds h (node_mem_of_mem_placesBelow hp)
  omega

variable (path) in
theorem entered_phase {n : Node} {children rest : SyntaxTree}
    (h : Laid offset id (.cons n children rest))
    (hsplits : Splits sel (Forest.cons n children rest).toList a b) {s : Trace}
    (hs : s.phase = Phase.upTo a b id) :
    (classified sel s ⟨n, children, path⟩).phase = Phase.among a b n.id ∧
      (entered sel s ⟨n, children, path⟩).phase = Phase.upTo a b (id + 1) := by
  have hid : n.id = id := h.2.1
  have hlt := laid_lt h (root_mem_placesBelow path n children rest)
  have hphase := classified_phase (p := ⟨n, children, path⟩) hsplits List.mem_cons_self hlt s
    (by rw [hs, hid])
  refine ⟨hphase, ?_⟩
  rw [entered_eq, record_phase, ← hid]
  exact hphase

theorem entered_phaseOf (sel : Extent) (s : Trace) (p : Place) (h : p.node.start ≤ p.node.stop)
    (i : Nat) :
    (entered sel s p).phaseOf i = if i = p.node.id then (classified sel s p).phase
      else s.phaseOf i := by
  have hphases := (classifies_classified sel s p h).frame.2.2.2.2.2.1
  rw [entered_eq]
  simp only [phaseOf, record, List.lookup_cons, hphases]
  by_cases hi : i = p.node.id
  · simp [hi]
  · simp [hi, beq_eq_false_iff_ne.mpr hi]

variable (path) in
/-- What every step of a scan keeps of the state and of the places entered so far, the whole scan
keeps.  The phase at every step is known. -/
theorem scan_phased (h : Laid offset id f) (hsplits : Splits sel f.toList a b)
    {P : List Place → Trace → Prop}
      (henter : ∀ s done, ∀ p ∈ placesBelow path f, s.phase = Phase.upTo a b p.node.id → P done s →
      P (done ++ [p]) (entered sel s p))
    (hleave : ∀ s done, ∀ p ∈ placesBelow path f, p ∈ done → P done s → P done (left s p))
    (s : Trace) (done : List Place) (hs : s.phase = Phase.upTo a b id) (hP : P done s) :
    P (done ++ placesBelow path f) (scan sel path f s) ∧
      (scan sel path f s).phase = Phase.upTo a b (id + f.size) := by
  induction f generalizing path offset id s done with
  | nil => simpa [placesBelow, scan, Forest.size] using ⟨hP, hs⟩
  | cons n children rest ihc ihr =>
    have hid : n.id = id := h.2.1
    have hphase := (entered_phase path h hsplits hs).2
    simp only [placesBelow, List.mem_cons, List.mem_append] at henter hleave
    have hentered := henter s done _ (Or.inl rfl) (by rw [hs, hid]) hP
    obtain ⟨hchildren, hafter⟩ := ihc (n :: path) h.2.2.2.1
      hsplits.children (fun s done p hp => henter s done p (Or.inr (Or.inl hp)))
      (fun s done p hp => hleave s done p (Or.inr (Or.inl hp)))
      (entered sel s ⟨n, children, path⟩) (done ++ [⟨n, children, path⟩])
      hphase hentered
    have hleft := hleave _ _ _ (Or.inl rfl) (by simp) hchildren
    obtain ⟨hrest, hend⟩ := ihr path h.2.2.2.2 hsplits.rest
      (fun s done p hp => henter s done p (Or.inr (Or.inr hp)))
      (fun s done p hp => hleave s done p (Or.inr (Or.inr hp)))
      (left _ ⟨n, children, path⟩) _ hafter hleft
    refine ⟨by simpa [placesBelow, scan] using hrest, ?_⟩
    rw [scan, hend]
    congr 1
    simp only [Forest.size]
    omega

variable (path) in
theorem scan_phase (h : Laid offset id f) (hsplits : Splits sel f.toList a b) (s : Trace)
    (hs : s.phase = Phase.upTo a b id) : (scan sel path f s).phase = Phase.upTo a b (id + f.size) :=
  (scan_phased path (P := fun _ _ => True) h hsplits (fun _ _ _ _ _ _ => trivial)
    (fun _ _ _ _ _ _ => trivial) s [] hs trivial).2

variable (path) in
theorem scan_phaseOf (h : Laid offset id f) (hsplits : Splits sel f.toList a b) (s : Trace)
    (hs : s.phase = Phase.upTo a b id) (i : Nat) :
    (scan sel path f s).phaseOf i = if i ∈ f.toList.map (·.id) then Phase.among a b i
      else s.phaseOf i := by
  have hnoted := (scan_phased path
    (P := fun done s' => s'.phaseOf i = if i ∈ done.map (·.node.id) then Phase.among a b i
    else s.phaseOf i)
    h hsplits ?_ (fun _ _ _ _ _ hs' => hs') s [] hs (by simp)).1
  · have hids : (placesBelow path f).map (·.node.id) = f.toList.map (·.id) := by
      rw [← map_node_placesBelow path f, List.map_map]
      rfl
    rw [hnoted, List.nil_append, hids]
  · intro s' done p hp hs' hdone
    rw [entered_phaseOf _ _ _ (start_le_stop h hp),
      classified_phase hsplits (node_mem_of_mem_placesBelow hp) (laid_lt h hp) s' hs']
    by_cases hi : i = p.node.id
    · simp [hi]
    · simp [hi, hdone]

variable (path) in
theorem scan_events (h : Laid offset id f) (hsplits : Splits sel f.toList a b) (s : Trace)
    (hs : s.phase = Phase.upTo a b id) :
    (scan sel path f s).events.toList = s.events.toList ++ Event.stream
      (Phase.among a b) s.depth path f := by
  induction f generalizing path offset id s with
  | nil => simp [scan, Event.stream]
  | cons n children rest ihc ihr =>
    obtain ⟨hphase, hentered⟩ := entered_phase path h hsplits hs
    have hle := start_le_stop h (root_mem_placesBelow path n children rest)
    have hframe := (classifies_classified sel s ⟨n, children, path⟩ hle).frame
    have hbelow := scan_phase (n :: path) h.2.2.2.1 hsplits.children _ hentered
    have hdepth : (entered sel s ⟨n, children, path⟩).depth =
        s.depth + Place.nesting ⟨n, children, path⟩ := by
      rw [entered_eq]
      exact congrArg (· + Place.nesting ⟨n, children, path⟩) hframe.2.2.2.1
    have hstart : (entered sel s ⟨n, children, path⟩).events.toList =
        s.events.toList ++ Event.entering (Phase.among a b n.id) (decide (0 < s.depth))
        ⟨n, children, path⟩ := by
      rw [entered_eq]
      simp [record, hframe.2.2.2.2.1, hframe.2.2.2.1, hphase]
    have hchildren := ihc (n :: path) h.2.2.2.1 hsplits.children _ hentered
    have hphaseOf := scan_phaseOf (n :: path) h.2.2.2.1 hsplits.children _ hentered
    have hleaving := Event.leaving_congr
      (scan sel (n :: path) children (entered sel s ⟨n, children, path⟩)).phaseOf (Phase.among a b)
      (decide (0 < s.depth)) ⟨n, children, path⟩ (by
        rw [hphaseOf, entered_phaseOf _ _ _ hle]
        simp only [if_true, hphase, ite_self])
      (fun c hc => by rw [hphaseOf, if_pos (List.mem_map_of_mem hc)])
    have hend : (scan sel (n :: path) children (entered sel s ⟨n, children, path⟩)).depth -
        Place.nesting ⟨n, children, path⟩ = s.depth := by
      rw [scan_depth h.2.2.2.1, hdepth]
      omega
    rw [scan, ihr path h.2.2.2.2 hsplits.rest (left _ _) hbelow]
    simp only [left, hend, hleaving, record, Array.toList_append, hchildren, hstart, hdepth,
      Event.stream, Place.below, List.append_assoc]

/-- The selected places whose parent is not covered. -/
def picked (sel : Extent) (a b : Nat) (done : List Place) : List Place :=
  done.filter fun p => Phase.among a b p.node.id = .selected ∧ isTopLevel sel p = true

/-- What has been gathered once the places of `done` are entered. -/
structure Gathers (sel : Extent) (a b : Nat) (done : List Place) (s : Trace) : Prop where
  topLevel : s.topLevel = (picked sel a b done).map (·.node)
  first : s.first = (picked sel a b done).head?.map (·.node)
  parent : s.parentOfFirst = (picked sel a b done).head?.bind fun p => p.parent?.map (·.id)
  before : s.phase = .before → picked sel a b done = []
  selected : s.phase = .selected → picked sel a b done ≠ []
  diagnostics : s.diagnostics = [] ↔
    (∀ p ∈ done, p.node.id = b → sel.past ≤ p.node.start) ∧
      ∀ p ∈ picked sel a b done, p.parent?.map (·.id) = s.parentOfFirst

theorem picked_append (sel : Extent) (a b : Nat) (done : List Place) (p : Place) :
    picked sel a b (done ++ [p]) = picked sel a b done ++
      if Phase.among a b p.node.id = .selected ∧ isTopLevel sel p = true then [p] else [] := by
  by_cases hp : Phase.among a b p.node.id = .selected ∧ isTopLevel sel p = true
  · rw [if_pos hp, picked, picked, List.filter_append, List.filter_cons_of_pos (by simpa using hp),
      List.filter_nil]
  · rw [if_neg hp, picked, picked, List.filter_append, List.filter_cons_of_neg (by simpa using hp),
      List.filter_nil]

theorem Gathers.skip {done : List Place} {s : Trace} {p : Place} {phase : Phase}
    (h : Gathers sel a b done s)
    (hpick : ¬ (Phase.among a b p.node.id = .selected ∧ isTopLevel sel p = true))
    (hcut : p.node.id = b → sel.past ≤ p.node.start) (hbefore : phase = .before → s.phase = .before)
    (hselected : phase = .selected → s.phase = .selected) :
    Gathers sel a b (done ++ [p]) { s with phase } := by
  have hpicked : picked sel a b (done ++ [p]) = picked sel a b done := by
    rw [picked_append, if_neg hpick, List.append_nil]
  refine ⟨?_, ?_, ?_, ?_, ?_, ?_⟩
  · rw [hpicked]
    exact h.topLevel
  · rw [hpicked]
    exact h.first
  · rw [hpicked]
    exact h.parent
  · rw [hpicked]
    exact fun he => h.before (hbefore he)
  · rw [hpicked]
    exact fun he => h.selected (hselected he)
  · rw [hpicked, List.forall_mem_append, List.forall_mem_singleton]
    exact h.diagnostics.trans (and_congr_left fun _ => (and_iff_left hcut).symm)

theorem Gathers.take {done : List Place} {s : Trace} {p : Place} {ds : List Diagnostic}
    (h : Gathers sel a b done s) (hphase : s.phase = .selected)
    (hpick : Phase.among a b p.node.id = .selected ∧ isTopLevel sel p = true)
    (hds : ds = [] ↔ s.diagnostics = [] ∧ p.parent?.map (·.id) = s.parentOfFirst) :
    Gathers sel a b (done ++ [p])
      { s with last := some p.node, topLevel := s.topLevel ++ [p.node], diagnostics := ds } := by
  have hpicked : picked sel a b (done ++ [p]) = picked sel a b done ++ [p] := by
    rw [picked_append, if_pos hpick]
  have hb : p.node.id < b := (Phase.among_eq_selected_iff.mp hpick.1).2
  obtain ⟨first, more, hfirst⟩ := List.exists_cons_of_ne_nil (h.selected hphase)
  refine ⟨?_, ?_, ?_, ?_, ?_, ?_⟩
  · rw [hpicked, List.map_append, ← h.topLevel]
    rfl
  · rw [hpicked, hfirst, List.cons_append, List.head?_cons, ← List.head?_cons (l := more), ← hfirst]
    exact h.first
  · rw [hpicked, hfirst, List.cons_append, List.head?_cons, ← List.head?_cons (l := more), ← hfirst]
    exact h.parent
  · intro he
    rw [hphase] at he
    cases he
  · simp [hpicked]
  · simp only [hpicked, List.forall_mem_append, List.forall_mem_singleton]
    constructor
    · intro hnil
      obtain ⟨hdiag, hparent⟩ := hds.mp hnil
      obtain ⟨hdone, hsame⟩ := h.diagnostics.mp hdiag
      exact ⟨⟨hdone, fun he => absurd he (Nat.ne_of_lt hb)⟩, hsame, hparent⟩
    · rintro ⟨⟨hdone, _⟩, hsame, hparent⟩
      exact hds.mpr ⟨h.diagnostics.mpr ⟨hdone, hsame⟩, hparent⟩

theorem Gathers.begin {done : List Place} {s : Trace} {p : Place} (h : Gathers sel a b done s)
    (hphase : s.phase = .before)
    (hpick : Phase.among a b p.node.id = .selected ∧ isTopLevel sel p = true) :
    Gathers sel a b (done ++ [p])
      { s with
        phase := .selected, first := some p.node, parentOfFirst := p.parent?.map (·.id),
        last := some p.node, topLevel := s.topLevel ++ [p.node] } := by
  have hpicked : picked sel a b (done ++ [p]) = [p] := by
    rw [picked_append, if_pos hpick, h.before hphase]
    rfl
  have hb : p.node.id < b := (Phase.among_eq_selected_iff.mp hpick.1).2
  refine ⟨?_, ?_, ?_, nofun, ?_, ?_⟩
  · simp [hpicked, h.topLevel, h.before hphase]
  · simp [hpicked]
  · simp [hpicked]
  · simp [hpicked]
  · rw [hpicked, List.forall_mem_append, List.forall_mem_singleton]
    refine h.diagnostics.trans ?_
    rw [h.before hphase]
    constructor
    · rintro ⟨hdone, _⟩
      exact ⟨⟨hdone, fun he => absurd he (Nat.ne_of_lt hb)⟩,
        fun q hq => by rw [List.mem_singleton.mp hq]⟩
    · rintro ⟨⟨hdone, _⟩, _⟩
      exact ⟨hdone, fun q hq => by cases hq⟩

theorem Gathers.cut {done : List Place} {s : Trace} {p : Place} (h : Gathers sel a b done s)
    (hb : p.node.id = b) (hstart : p.node.start < sel.past) (d : Diagnostic) :
    Gathers sel a b (done ++ [p])
      { s with phase := .after, diagnostics := s.diagnostics ++ [d] } := by
  have hpicked : picked sel a b (done ++ [p]) = picked sel a b done := by
    rw [picked_append, if_neg, List.append_nil]
    rw [Phase.among_eq_selected_iff]
    omega
  refine ⟨?_, ?_, ?_, nofun, nofun, ?_⟩
  · rw [hpicked]
    exact h.topLevel
  · rw [hpicked]
    exact h.first
  · rw [hpicked]
    exact h.parent
  · constructor
    · intro hnil
      simp at hnil
    · rintro ⟨hdone, _⟩
      exact absurd (hdone p (by simp) hb) (Int.not_le.mpr hstart)

theorem Gathers.classified {nodes : List Node} {done : List Place} {s : Trace} {p : Place}
    (h : Gathers sel a b done s) (hsplits : Splits sel nodes a b) (hp : p.node ∈ nodes)
    (hrange : p.node.start < p.node.stop) (htop : p.node.id = a → isTopLevel sel p = true)
    (hs : s.phase = Phase.upTo a b p.node.id) :
    Gathers sel a b (done ++ [p]) (classified sel s p) := by
  have hinside : s.phase = .selected → p.node.stop ≤ sel.past →
      Phase.among a b p.node.id = .selected :=
    fun hphase hstop => hsplits.among_eq_selected hp (hs ▸ hphase) hstop
  have hbeyond : s.phase = .selected → sel.past < p.node.stop → p.node.id = b :=
    fun hphase hstop => hsplits.id_eq hp (hs ▸ hphase) hstop
  have hc := classifies_classified sel s p (Int.le_of_lt hrange)
  generalize Trace.classified sel s p = s' at hc ⊢
  cases hc with
  | outside hphase hcover =>
    rw [hs, Ne, Phase.upTo_eq_selected_iff] at hphase
    rw [hs, Phase.upTo_eq_before_iff] at hcover
    refine h.skip (fun hpick => ?_) (fun hb => ?_) (fun he => he) (fun he => he)
    · obtain ⟨hle, hlt⟩ := Phase.among_eq_selected_iff.mp hpick.1
      exact hcover (by omega) ⟨hrange, hsplits.selected _ hp hle hlt⟩
    · have hab := hsplits.begins _ hp (hb ▸ hsplits.le)
      omega
  | begins hphase hcover =>
    have heq : p.node.id = a := by
      rw [hs, Phase.upTo_eq_before_iff] at hphase
      exact Nat.le_antisymm hphase (Nat.not_lt.mp fun hlt => hsplits.before _ hp hlt hcover)
    have hab := hsplits.begins _ hp (Nat.le_of_eq heq.symm)
    exact h.begin hphase ⟨Phase.among_eq_selected_iff.mpr (by omega), htop heq⟩
  | within hphase hstart hstop htop' =>
    refine h.skip (fun hpick => ?_) (fun hb => ?_) (fun he => he) (fun he => he)
    · rw [htop'] at hpick
      exact absurd hpick.2 (by decide)
    · have := hsplits.after _ hp hb
      omega
  | joins hphase hstart hstop htop' hparent =>
    refine h.take hphase ⟨hinside hphase hstop, htop'⟩ ⟨fun hnil => ⟨hnil, ?_⟩, fun hnil => hnil.1⟩
    rcases hparent with hparent | hmixed
    · exact hparent
    · rw [has, hnil] at hmixed
      cases hmixed
  | strays hphase hstart hstop htop' hparent d hd =>
    refine h.take hphase ⟨hinside hphase hstop, htop'⟩
      ⟨fun hnil => ?_, fun hnil => absurd hnil.2 hparent⟩
    simp at hnil
  | ends hphase hstart =>
    have hb := hbeyond hphase (by omega)
    refine h.skip (fun hpick => ?_) (fun _ => hstart) nofun nofun
    rw [Phase.among_eq_selected_iff] at hpick
    omega
  | cut hphase hcut d hd => exact h.cut (hbeyond hphase hcut.2) hcut.1 d

variable (path) in
theorem scan_gathers (h : Laid offset id f) (hsplits : Splits sel f.toList a b) {done : List Place}
    {s : Trace} (htop : ∀ p ∈ placesBelow path f, p.node.id = a → isTopLevel sel p = true)
    (hs : s.phase = Phase.upTo a b id) (hg : Gathers sel a b done s) :
    Gathers sel a b (done ++ placesBelow path f) (scan sel path f s) := by
  refine (scan_phased path (P := Gathers sel a b) h hsplits ?_ ?_ s done hs hg).1
  · intro s done p hp hphase hg
    rw [entered_eq]
    have hc := hg.classified hsplits (node_mem_of_mem_placesBelow hp) (laid_lt h hp)
      (htop p hp) hphase
    exact ⟨hc.topLevel, hc.first, hc.parent, hc.before, hc.selected, hc.diagnostics⟩
  · intro s done p _ _ hg
    exact ⟨hg.topLevel, hg.first, hg.parent, hg.before, hg.selected, hg.diagnostics⟩

variable (path) in
/-- A scan reports that the selection ends inside a node exactly if the node that ends the selected
phase starts within the selection. -/
theorem scan_cut (h : Laid offset id f) (hsplits : Splits sel f.toList a b) {s : Trace}
    (hs : s.phase = Phase.upTo a b id) (hnone : s.diagnostics = []) :
    (scan sel path f s).has .endsMidStatement = false ↔
      ∀ p ∈ placesBelow path f, p.node.id = b → sel.past ≤ p.node.start := by
  refine (scan_phased path (P := fun done s' => s'.has .endsMidStatement = false ↔
    ∀ p ∈ done, p.node.id = b → sel.past ≤ p.node.start) h hsplits ?_ (fun _ _ _ _ _ hs' => hs') s
    [] hs ?_).1
  · intro s' done p hp hphase hdone
    have hn := node_mem_of_mem_placesBelow hp
    have hle := hsplits.le
    have hbegins := hsplits.begins p.node hn
    have hafter := hsplits.after p.node hn
    -- all but a cut leave the report alone, and then the place does not start within the selection
    -- or does not end it
    have hkeeps : (p.node.id = b → sel.past ≤ p.node.start) →
        (s'.has .endsMidStatement = false ↔ ∀ q ∈ done ++ [p], q.node.id = b →
        sel.past ≤ q.node.start) :=
      fun hp' => by
        rw [List.forall_mem_append, List.forall_mem_singleton, hdone]
        exact (and_iff_left hp').symm
    rw [entered_eq]
    have hc := classifies_classified sel s' p (start_le_stop h hp)
    generalize classified sel s' p = s'' at hc ⊢
    simp only [has, record] at hkeeps ⊢
    cases hc with
    | outside hnot =>
      rw [hphase, Ne, Phase.upTo_eq_selected_iff] at hnot
      exact hkeeps fun hb => by omega
    | begins hbefore =>
      rw [hphase, Phase.upTo_eq_before_iff] at hbefore
      exact hkeeps fun hb => by omega
    | within _ _ hstop | joins _ _ hstop => exact hkeeps fun hb => by have := hafter hb; omega
    | strays _ _ hstop _ _ d hd =>
      rw [List.any_append, show ([d].any fun d => decide (d.kind = .endsMidStatement)) =
        false by simp [hd], Bool.or_false]
      exact hkeeps fun hb => by have := hafter hb; omega
    | ends _ hstart => exact hkeeps fun _ => hstart
    | cut hselected hcut d hd =>
      have hb := hsplits.id_eq hn (hphase ▸ hselected) hcut.2
      have hstart := hcut.1
      refine ⟨fun hfalse => ?_, fun hall => ?_⟩
      · simp [hd] at hfalse
      · have := hall p (by simp) hb
        omega
  · simp [has, hnone]

theorem le_left_reach (s : Trace) (p : Place) : s.reach ≤ (left s p).reach := by
  simp only [left]
  split
  · omega
  · exact Int.le_refl _

theorem entered_reach (h : Laid offset id f) (s : Trace) {p : Place} (hp : p ∈ placesBelow path f) :
    (entered sel s p).reach = s.reach := by
  rw [entered_eq]
  exact (classifies_classified sel s p (start_le_stop h hp)).frame.2.2.2.2.2.2

theorem le_scan_reach (h : Laid offset id f) (s : Trace) : s.reach ≤ (scan sel path f s).reach := by
  apply scan_induction (P := fun s' => s.reach ≤ s'.reach)
  · intro s' p hp hs'
    rwa [entered_reach h s' hp]
  · intro s' p _ hs'
    exact Int.le_trans hs' (le_left_reach s' p)
  · exact Int.le_refl _

theorem stop_le_scan_reach (h : Laid offset id f) (hsplits : Splits sel f.toList a b) (s : Trace)
    (hs : s.phase = Phase.upTo a b id) :
    ∀ n ∈ f.toList, Phase.among a b n.id = .selected → n.stop ≤ (scan sel path f s).reach := by
  induction f generalizing path offset id s with
  | nil => simp [Forest.toList]
  | cons n children rest ihc ihr =>
    obtain ⟨hphase, hentered⟩ := entered_phase path h hsplits hs
    have hle := start_le_stop h (root_mem_placesBelow path n children rest)
    have hbelow := scan_phase (n :: path) h.2.2.2.1 hsplits.children _ hentered
    intro m hm hsel
    rw [scan]
    simp only [Forest.toList, List.mem_cons, List.mem_append] at hm
    rcases hm with rfl | hm | hm
    · have hleft : m.stop ≤ (left
          (scan sel (m :: path) children (entered sel s ⟨m, children, path⟩))
          ⟨m, children, path⟩).reach := by
        have hphaseOf := scan_phaseOf (m :: path) h.2.2.2.1 hsplits.children _ hentered m.id
        rw [entered_phaseOf _ _ _ hle, if_pos rfl, hphase, ite_self, hsel] at hphaseOf
        simp only [left, hphaseOf, true_and]
        split <;> omega
      exact Int.le_trans hleft (le_scan_reach h.2.2.2.2 _)
    · exact Int.le_trans (ihc h.2.2.2.1 hsplits.children _ hentered m hm hsel)
        (Int.le_trans (le_left_reach _ _) (le_scan_reach h.2.2.2.2 _))
    · exact ihr h.2.2.2.2 hsplits.rest (left _ _) hbelow m hm hsel

variable (path) in
theorem scan_reach (h : Laid offset id f) (hsplits : Splits sel f.toList a b) (s : Trace)
    (hs : s.phase = Phase.upTo a b id) :
    (scan sel path f s).reach = s.reach ∨
      ∃ n ∈ f.toList, Phase.among a b n.id = .selected ∧ (scan sel path f s).reach = n.stop := by
  have hreach := (scan_phased path (P := fun done s' =>
      (∀ q ∈ done, s'.phaseOf q.node.id = Phase.among a b q.node.id) ∧
        (s'.reach = s.reach ∨ ∃ q ∈ done, Phase.among a b q.node.id = .selected ∧
        s'.reach = q.node.stop))
    h hsplits ?_ ?_ s [] hs ⟨by simp, Or.inl rfl⟩).1.2
  · refine hreach.imp_right fun ⟨q, hq, hsel, hstop⟩ => ⟨q.node, ?_, hsel, hstop⟩
    exact node_mem_of_mem_placesBelow (List.nil_append _ ▸ hq)
  · rintro s' done p hp hs' ⟨hphases, hdone⟩
    rw [entered_reach h s' hp]
    refine ⟨fun q hq => ?_, hdone.imp_right fun ⟨q, hq, hsel⟩ => ⟨q, by simp [hq], hsel⟩⟩
    rw [entered_phaseOf _ _ _ (start_le_stop h hp)]
    split
    next he =>
      rw [he, classified_phase hsplits (node_mem_of_mem_placesBelow hp) (laid_lt h hp) s' hs']
    next he =>
      rcases List.mem_append.mp hq with hq | hq
      · exact hphases q hq
      · exact absurd (congrArg (·.node.id) (List.mem_singleton.mp hq)) he
  · rintro s' done p hp hin ⟨hphases, hdone⟩
    refine ⟨hphases, ?_⟩
    simp only [left]
    split
    next hsel => exact Or.inr ⟨p, hin, by rw [← hphases p hin]; exact hsel.1, rfl⟩
    next => exact hdone

end Trace

end Extraction
