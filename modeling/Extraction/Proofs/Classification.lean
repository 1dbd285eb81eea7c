import Extraction.Proofs.Selected

/-!
# Which nodes are selected

Unless the selection ends inside a node, the nodes that the traversal enters as selected are the
covered ones.  They are the maximal covered nodes, which are the top-level selected nodes of the
verdict, and all that is below them.  What the enclosing method holds before the first of them is
entered as standing before the selection, and what it holds after the last of them as standing after
it.
-/

namespace Extraction

def Event.EntersSelected (e : Event) : Prop :=
  e.kind = .enter ∧ e.phase = .selected

namespace Event

variable {phase : Nat → Phase} {depth : Int} {path : List Node} {f : SyntaxTree}
  {offset : Int} {id : Nat}

theorem map_place_enters (phase : Nat → Phase) (depth : Int) (path : List Node) (f : SyntaxTree) :
    ((stream phase depth path f).filter fun e => decide (e.kind = .enter)).map (·.place) =
      SyntaxTree.placesBelow path f := by
  have hbrackets (es : List Event) : (es.filter fun e => decide (e.kind = .enter)) =
      (es.filter fun e => e.IsBracket).filter fun e => decide (e.kind = .enter) := by
    rw [List.filter_filter]
    congr 1
    funext e
    by_cases he : e.kind = .enter <;> simp [IsBracket, he]
  rw [hbrackets]
  induction f generalizing depth path with
  | nil => rfl
  | cons n children rest ihc ihr =>
    simp only [stream, List.filter_append, filter_entering, filter_leaving,
      List.map_append, ihc, ihr]
    simp [SyntaxTree.placesBelow, Place.below]

variable (phase depth) in
theorem exists_enter {p : Place} (hp : p ∈ SyntaxTree.placesBelow path f) :
    ∃ e ∈ stream phase depth path f, e.kind = .enter ∧ e.place = p := by
  rw [← map_place_enters phase depth path f] at hp
  obtain ⟨e, he, hplace⟩ := List.mem_map.mp hp
  obtain ⟨hmem, hkind⟩ := List.mem_filter.mp he
  exact ⟨e, hmem, of_decide_eq_true hkind, hplace⟩

theorem pairwise_enters (h : SyntaxTree.Laid offset id f) :
    (stream phase depth path f).Pairwise fun d e => d.kind = .enter → e.kind = .enter →
      d.node.id < e.node.id := by
  have hpair := SyntaxTree.pairwise_id path h
  rw [← map_place_enters phase depth path f, List.pairwise_map, List.pairwise_filter] at hpair
  apply hpair.imp
  intro d e hde hd he
  exact hde (decide_eq_true hd) (decide_eq_true he)

theorem rel_of_split {R : Event → Event → Prop} {events xs ys : List Event} {d : Event}
    (h : events.Pairwise R) (hsplit : events = xs ++ d :: ys) : ∀ e ∈ ys, R d e := by
  rw [hsplit] at h
  exact (List.pairwise_cons.mp (List.pairwise_append.mp h).2.1).1

end Event

namespace Trace

open SyntaxTree

variable {sel : Extent} {path : List Node} {f t : SyntaxTree} {offset : Int} {id a b : Nat}
  {m : Place} {s : Trace}

theorem Located.late_mem_stream (hl : Located sel m a b s) {e : Event} (he : e ∈ s.events.toList)
    (hlate : ¬ e.phase.Early) : e ∈ Event.stream (Phase.among a b) 0 m.below m.children := by
  obtain ⟨before, after, hevents, hbefore, -, hafter⟩ := hl.events
  rw [hevents, List.append_assoc, List.mem_append, List.mem_append] at he
  rcases he with he | he | he
  · exact absurd (hbefore e he).1 hlate
  · exact he
  · exact absurd (hafter e he).1 hlate

theorem Located.mem_stream (hl : Located sel m a b s) {e : Event} (he : e ∈ s.events.toList)
    (hsel : e.phase = .selected) : e ∈ Event.stream (Phase.among a b) 0 m.below m.children :=
  hl.late_mem_stream he fun hearly => hearly.ne_selected hsel

theorem Located.stream_subset (hl : Located sel m a b s) :
    ∀ e ∈ Event.stream (Phase.among a b) 0 m.below m.children, e ∈ s.events.toList := by
  intro e he
  obtain ⟨before, after, hevents, -⟩ := hl.events
  rw [hevents]
  simp [he]

theorem Located.enter_mem_stream (h : Laid offset id f) (hm : m ∈ placesBelow path f)
    (hl : Located sel m a b s) {e : Event} (he : e ∈ s.events.toList) (henter : e.kind = .enter)
    (hplace : e.place ∈ m.inner) :
    e ∈ Event.stream (Phase.among a b) 0 m.below m.children := by
  obtain ⟨before, after, hevents, hbefore, -, hafter⟩ := hl.events
  rw [hevents, List.append_assoc, List.mem_append, List.mem_append] at he
  rcases he with he | he | he
  · have hstart := (hbefore e he).2
    have hinner := (inner_bounds h hm hplace).1
    rw [Event.node] at hstart
    omega
  · exact he
  · exact absurd henter (hafter e he).2.1

/-- An order of what is recorded within the enclosing method is one of all events, if it says
nothing about events outside. -/
theorem Located.pairwise_events (h : Laid offset id f) (hm : m ∈ placesBelow path f)
    (hl : Located sel m a b s) {R : Event → Event → Prop}
    (hstream : (Event.stream (Phase.among a b) 0 m.below m.children).Pairwise R)
    (hbefore : ∀ d e, d.phase.Early → d.place ∉ m.inner → R d e)
    (hafter : ∀ d e, e.phase.Early → e.place ∉ m.inner → R d e) : s.events.toList.Pairwise R := by
  obtain ⟨before, after, hevents, hahead, -, hbehind⟩ := hl.events
  have hfirst : ∀ d ∈ before, ∀ e, R d e := by
    intro d hd e
    refine hbefore d e (hahead d hd).1 fun hplace => ?_
    have hstart := (hahead d hd).2
    have hinner := (inner_bounds h hm hplace).1
    rw [Event.node] at hstart
    omega
  have hlast : ∀ d, ∀ e ∈ after, R d e := fun d e he =>
    hafter d e (hbehind e he).1 fun hplace => (hbehind e he).2.2 _ hplace rfl
  rw [hevents, List.append_assoc]
  apply List.pairwise_append.mpr
  refine ⟨?_, List.pairwise_append.mpr ⟨hstream, ?_, fun d _ => hlast d⟩,
    fun d hd e _ => hfirst d hd e⟩
  · exact List.pairwise_of_forall_mem_list fun d hd e _ => hfirst d hd e
  · exact List.pairwise_of_forall_mem_list fun d _ => hlast d

theorem Located.pairwise_enters (h : Laid offset id f) (hm : m ∈ placesBelow path f)
    (hl : Located sel m a b s) :
    s.events.toList.Pairwise fun d e =>
      d.kind = .enter → e.kind = .enter → d.place ∈ m.inner → e.place ∈ m.inner →
          d.node.id < e.node.id := by
  apply hl.pairwise_events h hm
  · apply (Event.pairwise_enters (laid_children h hm).1).imp
    intro d e hde hd he _ _
    exact hde hd he
  · intro d e _ houtside _ _ hplace
    exact absurd hplace houtside
  · intro d e _ houtside _ _ _ hplace
    exact absurd hplace houtside

theorem Located.entersSelected_iff (h : Laid offset id f) (hm : m ∈ placesBelow path f)
    (hl : Located sel m a b s) (huncut : ∀ p ∈ m.inner, p.node.id = b → sel.past ≤ p.node.start)
    {p : Place} (hp : p ∈ placesBelow path f) :
    (∃ e ∈ s.events.toList, e.EntersSelected ∧ e.place = p) ↔
      sel.Covers p.node.start p.node.stop := by
  constructor
  · rintro ⟨e, he, ⟨-, hsel⟩, rfl⟩
    obtain ⟨hphase, hplace⟩ := Event.place_of_mem_stream (hl.mem_stream he hsel)
    apply (hl.covers_iff h hm huncut hplace).mpr
    rw [← hphase, hsel]
  · intro hcover
    have hin := covered_mem_inner h hm hl.encloses hp hcover
    obtain ⟨e, he, henter, rfl⟩ := Event.exists_enter (Phase.among a b) 0 hin
    refine ⟨e, hl.stream_subset e he, ⟨henter, ?_⟩, rfl⟩
    rw [(Event.place_of_mem_stream he).1]
    exact (hl.covers_iff h hm huncut hin).mp hcover

theorem Located.phase_of_enter (h : Laid offset id f) (hm : m ∈ placesBelow path f)
    (hl : Located sel m a b s) {e : Event} (he : e ∈ s.events.toList) (henter : e.kind = .enter)
    (hplace : e.place ∈ m.inner) :
    e.phase = Phase.among a b e.node.id :=
  (Event.place_of_mem_stream (hl.enter_mem_stream h hm he henter hplace)).1

theorem Located.id_of_entersSelected (hl : Located sel m a b s) {e : Event}
    (he : e ∈ s.events.toList) (hsel : e.EntersSelected) :
    e.place ∈ m.inner ∧ a ≤ e.node.id ∧ e.node.id < b := by
  obtain ⟨hphase, hplace⟩ := Event.place_of_mem_stream (hl.mem_stream he hsel.2)
  exact ⟨hplace, Phase.among_eq_selected_iff.mp (hphase.symm.trans hsel.2)⟩

theorem Located.phase_before (h : Laid offset id f) (hm : m ∈ placesBelow path f)
    (hl : Located sel m a b s) {xs ys : List Event} {e : Event}
    (hsplit : s.events.toList = xs ++ e :: ys) (henter : e.kind = .enter)
    (hplace : e.place ∈ m.inner) (hnot : ¬ e.EntersSelected) (hlater : ∃ d ∈ ys, d.EntersSelected) :
    e.phase = .before := by
  obtain ⟨d, hd, hsel⟩ := hlater
  have hphase := hl.phase_of_enter h hm (by rw [hsplit]; simp : e ∈ s.events.toList) henter hplace
  obtain ⟨hdplace, hda, hdb⟩ :=
    hl.id_of_entersSelected (by rw [hsplit]; simp [hd] : d ∈ s.events.toList) hsel
  have hlt := Event.rel_of_split (hl.pairwise_enters h hm) hsplit d hd henter hsel.1 hplace hdplace
  have hout : ¬ (a ≤ e.node.id ∧ e.node.id < b) := fun hin =>
    hnot ⟨henter, hphase.trans (Phase.among_eq_selected_iff.mpr hin)⟩
  rw [hphase, Phase.among_eq_before_iff]
  omega

theorem Located.phase_after (h : Laid offset id f) (hm : m ∈ placesBelow path f)
    (hl : Located sel m a b s) {xs ys : List Event} {e : Event}
    (hsplit : s.events.toList = xs ++ e :: ys) (henter : e.kind = .enter)
    (hplace : e.place ∈ m.inner) (hnot : ¬ e.EntersSelected)
    (hearlier : ∃ d ∈ xs, d.EntersSelected) :
    e.phase = .after := by
  obtain ⟨d, hd, hsel⟩ := hearlier
  have hphase := hl.phase_of_enter h hm (by rw [hsplit]; simp : e ∈ s.events.toList) henter hplace
  obtain ⟨hdplace, hda, hdb⟩ :=
    hl.id_of_entersSelected (by rw [hsplit]; simp [hd] : d ∈ s.events.toList) hsel
  have hpair := hl.pairwise_enters h hm
  rw [hsplit] at hpair
  have hlt := (List.pairwise_append.mp hpair).2.2 d hd e List.mem_cons_self hsel.1 henter
    hdplace hplace
  have hout : ¬ (a ≤ e.node.id ∧ e.node.id < b) := fun hin =>
    hnot ⟨henter, hphase.trans (Phase.among_eq_selected_iff.mpr hin)⟩
  rw [hphase, Phase.among_eq_after_iff]
  omega

theorem unselected_of_uncovered (h : Laid 0 0 t.first)
    (hnone : ∀ n ∈ t.first.toList, ¬ sel.Covers n.start n.stop) :
    ∀ e ∈ (ofSelection t sel).events.toList, e.phase ≠ .selected := by
  have hinvariant : (ofSelection t sel).phase ≠ .selected ∧
      (∀ i, (ofSelection t sel).phaseOf i ≠ .selected) ∧
      ∀ e ∈ (ofSelection t sel).events.toList, e.phase ≠ .selected := by
    apply walk_induction (P := fun s : Trace => s.phase ≠ .selected ∧
      (∀ i, s.phaseOf i ≠ .selected) ∧ ∀ e ∈ s.events.toList, e.phase ≠ .selected)
    · rintro s p hp ⟨hphase, hphases, hevents⟩
      have hle := start_le_stop h hp
      have hclassified : classified sel s p = s := by
        have hc := classifies_classified sel s p hle
        generalize classified sel s p = s' at hc ⊢
        cases hc with
        | outside => rfl
        | begins _ hcover => exact absurd hcover (hnone _ (node_mem_of_mem_placesBelow hp))
        | _ => contradiction
      rcases enter_cases sel s hle with heq | ⟨-, heq⟩ | heq
      · rw [heq]
        exact ⟨hphase, hphases, hevents⟩
      · rw [heq]
        exact ⟨by simp [restart], hphases, hevents⟩
      · rw [heq, entered, hclassified, enterClassified_eq]
        refine ⟨hphase, fun i => ?_, fun e he => ?_⟩
        · rw [record_phaseOf, phaseOf, List.lookup_cons]
          split
          · exact hphase
          · exact hphases i
        · simp only [record, Array.toList_append, List.mem_append] at he
          rcases he with he | he
          · exact hevents e he
          · rw [(place_of_mem_entering he).1]
            exact hphase
    · rintro s p - ⟨hphase, hphases, hevents⟩
      rcases leave_cases s p with heq | heq | heq
      · rw [heq]
        exact ⟨hphase, hphases, hevents⟩
      · rw [heq]
        exact ⟨hphase, hphases, hevents⟩
      · rw [heq]
        refine ⟨hphase, hphases, fun e he => ?_⟩
        simp only [left, record, Array.toList_append, List.mem_append] at he
        rcases he with he | he
        · exact hevents e he
        · rw [(place_of_mem_leaving he).1]
          exact hphases _
    · exact ⟨by simp, fun i => by simp [phaseOf], List.forall_mem_nil _⟩
  exact hinvariant.2.2

end Trace

/-- How the traversal of a tree divides the nodes: the selected ones are those that the selection
covers, and the verdict names the topmost of them. -/
structure Classified (t : SyntaxTree) (sel : Extent) (w : Verdict) : Prop where
  selected_iff : ∀ p ∈ t.places, (∃ e ∈ (Trace.ofSelection t sel).events.toList, e.EntersSelected ∧
    e.place = p) ↔ sel.Covers p.node.start p.node.stop
  topLevel : w.selected = (t.maximalCovered sel).map (·.node.id)
  increasing : w.selected.Pairwise (· < ·)
  /-- No node lies in the subtrees of two maximal covered nodes. -/
  apart : (t.maximalCovered sel).Pairwise fun p q =>
    ∀ r, ¬ ((r = p ∨ r ∈ p.inner) ∧ (r = q ∨ r ∈ q.inner))
  /-- The subtrees of the maximal covered nodes hold the selected nodes and no others. -/
  together : ∀ r ∈ t.places, (∃ p ∈ t.maximalCovered sel, r = p ∨ r ∈ p.inner) ↔
    ∃ e ∈ (Trace.ofSelection t sel).events.toList, e.EntersSelected ∧ e.place = r
  before : ∀ m ∈ t.places, w.method = some m.node.id → ∀ xs e ys,
    (Trace.ofSelection t sel).events.toList = xs ++ e :: ys → e.kind = .enter → e.place ∈ m.inner →
      (∀ d ∈ xs ++ [e], ¬ d.EntersSelected) → (∃ d ∈ ys, d.EntersSelected) → e.phase = .before
  after : ∀ m ∈ t.places, w.method = some m.node.id → ∀ xs e ys,
    (Trace.ofSelection t sel).events.toList = xs ++ e :: ys → e.kind = .enter → e.place ∈ m.inner →
      (∃ d ∈ xs, d.EntersSelected) → (∀ d ∈ e :: ys, ¬ d.EntersSelected) → e.phase = .after

namespace Trace

open SyntaxTree

variable {sel : Extent} {t : SyntaxTree} {a b : Nat} {m : Place} {s : Trace}

theorem Located.covers_iff_exists (h : Laid 0 0 t) (hm : m ∈ t.places) (hl : Located sel m a b s)
    (huncut : ∀ p ∈ m.inner, p.node.id = b → sel.past ≤ p.node.start) {r : Place}
    (hr : r ∈ t.places) :
    (∃ p ∈ t.maximalCovered sel, r = p ∨ r ∈ p.inner) ↔ sel.Covers r.node.start r.node.stop := by
  have hmax : t.maximalCovered sel = picked sel a b m.inner := hl.maximalCovered_eq h hm huncut
  rw [hmax]
  constructor
  · rintro ⟨p, hp, hpr⟩
    have hcover := hl.selected_covers hp
    have hpt := inner_subset hm p (mem_picked.mp hp).1
    rcases hpr with rfl | hpr
    · exact hcover
    · have hbounds := inner_bounds h hpt hpr
      obtain ⟨hstart, hstop⟩ := hcover
      constructor <;> omega
  · intro hcover
    have hin := covered_mem_inner h hm hl.encloses hr hcover
    exact hl.exists_picked h hm hin ((hl.covers_iff h hm huncut hin).mp hcover)

theorem Located.maximalCovered_apart (h : Laid 0 0 t) (hm : m ∈ t.places) (hl : Located sel m a b s)
    (huncut : ∀ p ∈ m.inner, p.node.id = b → sel.past ≤ p.node.start) :
    (t.maximalCovered sel).Pairwise fun p q =>
      ∀ r, ¬ ((r = p ∨ r ∈ p.inner) ∧ (r = q ∨ r ∈ q.inner)) := by
  have hmax : t.maximalCovered sel = picked sel a b m.inner := hl.maximalCovered_eq h hm huncut
  rw [hmax]
  have hpair : (picked sel a b m.inner).Pairwise fun p q => p.node.id < q.node.id :=
    (pairwise_id m.below (laid_children h hm).1).filter _
  apply hpair.imp_of_mem
  rintro p q hp hq hlt r ⟨hrp, hrq⟩
  have hpt := inner_subset hm p (mem_picked.mp hp).1
  have hqt := inner_subset hm q (mem_picked.mp hq).1
  have hbetween := hl.picked_apart h hm hp hq hlt
  have hplt := laid_lt h hpt
  have hqlt := laid_lt h hqt
  rcases hrp with rfl | hrp
  · rcases hrq with rfl | hrq
    · omega
    · have := inner_bounds h hqt hrq
      omega
  · have hin := inner_bounds h hpt hrp
    have hrlt := laid_lt h (inner_subset hpt r hrp)
    rcases hrq with rfl | hrq
    · omega
    · have := inner_bounds h hqt hrq
      omega

theorem Located.endsMidStatement_iff {boundaries : Boundaries} {ds : List Diagnostic}
    (h : Laid 0 0 t.first) (hm : m ∈ places t.first) (hl : Located sel m a b (ofSelection t sel))
    (hds : (ofSelection t sel).validated sel boundaries = .ok ds)
    (hany : (ds.any fun d => d.kind = .noEnclosingMethod) = false) :
    .endsMidStatement ∉ ((ofSelection t sel).verdict sel ds).kinds ↔ Uncut t.first sel := by
  rcases (reports_ofSelection t sel).validated hds with ⟨-, hkinds⟩ | ⟨-, hfound, hkinds⟩
  · obtain ⟨d, rfl, hd⟩ := List.map_eq_singleton_iff.mp hkinds
    simp [hd] at hany
  · rw [mem_kinds_verdict hfound (by decide), hkinds _ (by decide), Bool.not_eq_true, hl.cut,
      hl.uncut_iff h hm]

variable {tree : Sketch}

theorem Located.classified (hm : m ∈ tree.layout.places)
    (hl : Located sel m a b (ofSelection tree.layout sel)) (hcut : tree.layout.Uncut sel)
    (ds : List Diagnostic) :
    Classified tree.layout sel ((ofSelection tree.layout sel).verdict sel ds) := by
  have h : Laid 0 0 tree.layout := laid_layout tree
  have huncut := (hl.uncut_iff h hm).mp hcut
  have htop := hl.selected_eq hm hcut ds
  have hfound : ∀ m' ∈ tree.layout.places,
      ((ofSelection tree.layout sel).verdict sel ds).method = some m'.node.id → m' = m := by
    intro m' hm' hid
    rw [hl.verdict_method] at hid
    exact place_unique h hm' hm (Option.some.inj hid.symm)
  refine ⟨fun p hp => hl.entersSelected_iff h hm huncut hp, htop, ?_,
    hl.maximalCovered_apart h hm huncut, ?_, ?_, ?_⟩
  · rw [htop, List.pairwise_map]
    exact (pairwise_id [] h).filter _
  · intro r hr
    rw [hl.covers_iff_exists h hm huncut hr, hl.entersSelected_iff h hm huncut hr]
  · intro m' hm' hid xs e ys hsplit henter hplace hnot hlater
    obtain rfl := hfound m' hm' hid
    exact hl.phase_before h hm hsplit henter hplace (hnot e (by simp)) hlater
  · intro m' hm' hid xs e ys hsplit henter hplace hearlier hnot
    obtain rfl := hfound m' hm' hid
    exact hl.phase_after h hm hsplit henter hplace (hnot e List.mem_cons_self) hearlier

theorem classified_of_uncovered {w : Verdict}
    (hnone : ∀ n ∈ tree.layout.toList, ¬ sel.Covers n.start n.stop) (hselected : w.selected = []) :
    Classified tree.layout sel w := by
  have hmax := maximalCovered_eq_nil hnone
  have hidle : ∀ e ∈ (ofSelection tree.layout sel).events.toList, ¬ e.EntersSelected :=
    fun e he hsel =>
    unselected_of_uncovered (t := tree.layout) (laid_layout tree) hnone e he hsel.2
  refine ⟨?_, by rw [hselected, hmax]; rfl, by rw [hselected]; exact List.Pairwise.nil,
    by rw [hmax]; exact List.Pairwise.nil, ?_, ?_, ?_⟩
  · intro p hp
    constructor
    · rintro ⟨e, he, hsel, -⟩
      exact absurd hsel (hidle e he)
    · intro hcover
      exact absurd hcover (hnone _ (node_mem_of_mem_placesBelow hp))
  · intro r hr
    constructor
    · rintro ⟨p, hp, -⟩
      rw [hmax] at hp
      cases hp
    · rintro ⟨e, he, hsel, -⟩
      exact absurd hsel (hidle e he)
  · rintro m' - - xs e ys hsplit - - - ⟨d, hd, hsel⟩
    exact absurd hsel (hidle d (by rw [hsplit]; simp [hd]))
  · rintro m' - - xs e ys hsplit - - ⟨d, hd, hsel⟩
    exact absurd hsel (hidle d (by rw [hsplit]; simp [hd]))

end Trace

/-- Every selection of every tree has a verdict, with the innermost enclosing function as its
method.  If there is one, the verdict says whether the selection ends inside a node, and if it does
not, the nodes are classified by what the selection covers. -/
theorem phases_classified (s : Sketch) (sel : Extent) (boundaries : Boundaries) :
    ∃ w, analyze s.layout sel boundaries = .ok w ∧ w.NamesMethod s.layout sel ∧
      (Trace.Enclosed sel s.layout →
        (.endsMidStatement ∉ w.kinds ↔ s.layout.Uncut sel) ∧
        (.endsMidStatement ∉ w.kinds → Classified s.layout sel w)) := by
  have h : SyntaxTree.Laid 0 0 s.layout := SyntaxTree.laid_layout s
  obtain ⟨w, hw, hcases⟩ := Trace.exists_analysis (t := s.layout) sel boundaries h
  have hnames := Trace.namesMethod_of_analyze (t := s.layout) h hw
  refine ⟨w, hw, hnames, fun henclosed => ?_⟩
  rcases hcases with ⟨m, a, b, ds, hm, hl, -, -, hds, hany, rfl⟩ | ⟨hnone, d, method, hd, rfl⟩
  · have hcut := hl.endsMidStatement_iff (t := s.layout) h hm hds hany
    exact ⟨hcut, fun hwhole => hl.classified hm (hcut.mp hwhole) ds⟩
  · have huncovered := hnone.resolve_left (hnames.method_ne_none henclosed)
    refine ⟨iff_of_true (by simp [Verdict.kinds, hd]) ?_,
      fun _ => Trace.classified_of_uncovered huncovered rfl⟩
    intro p hp hcover
    exact absurd hcover (huncovered _ (SyntaxTree.node_mem_of_mem_placesBelow hp))

theorem handedOn_classified : Trace.Enclosed ⟨7, 8⟩ handedOn.layout ∧ handedOn.layout.Uncut ⟨7, 8⟩ ∧
    ∃ w, analyze handedOn.layout ⟨7, 8⟩ .everywhere = .ok w ∧ w.method = some 1 ∧ w.selected = [5] ∧
      Classified handedOn.layout ⟨7, 8⟩ w := by
  have henclosed : Trace.Enclosed ⟨7, 8⟩ handedOn.layout := by decide +kernel
  have huncut : handedOn.layout.Uncut ⟨7, 8⟩ := by decide +kernel
  have hrun : (analyze handedOn.layout ⟨7, 8⟩ .everywhere).map (fun w => (w.method, w.selected)) =
      .ok (some 1, [5]) := by
    decide +kernel
  obtain ⟨w, hw, -, hclassified⟩ := phases_classified handedOn ⟨7, 8⟩ .everywhere
  rw [hw] at hrun
  obtain ⟨hmethod, hselected⟩ := Prod.mk.inj (Except.ok.inj hrun)
  obtain ⟨hcut, hphases⟩ := hclassified henclosed
  exact ⟨henclosed, huncut, w, hw, hmethod, hselected, hphases (hcut.mpr huncut)⟩

end Extraction
