import Extraction.Proofs.Reentry

/-!
# Reads after a selection

A variable that is written in a legal selection is returned if control can come to a read of it
after the selection, unless some write of it stands in the text in between.  For a read behind the
selection that is a write between the two; for a read that a loop comes back to, a write behind the
selection or before the read in the same loop.  Whether the write is made on the way does not
matter.
-/

namespace Extraction

open SyntaxTree Sketch

section Reads

variable {v : Binding} {p t : Place} {path : List Node} {f : SyntaxTree} {offset : Int} {id : Nat}
  {e : Event} {phase : Nat → Phase}

theorem Place.modes_cases (p : Place) : p.modes = [] ∨ ∃ more, p.modes = .read :: more := by
  unfold modes
  split
  · split
    · split <;> simp
    · split <;> simp
  · simp

theorem Place.touches_of_read (h : p.Reads v) : ∃ more, p.touches = ⟨v, .read⟩ :: more := by
  rcases h with h | ⟨hmode, -⟩
  · unfold touches at h ⊢
    split at h
    next =>
      simp only [List.mem_flatMap, List.mem_map, Option.mem_toList] at h
      obtain ⟨b, hb, mode, hmode, hab⟩ := h
      cases hab
      rcases p.modes_cases with hnil | ⟨more, hmore⟩
      · rw [hnil] at hmode
        cases hmode
      · exact ⟨more.map fun mode => ⟨v, mode⟩, by simp [hb, hmore]⟩
    next => cases h
  · cases hmode

theorem Event.entering_of_read (h : p.Reads v) (x : Phase) (nested : Bool) :
    ∃ more, entering x nested p = ⟨.enter, x, nested, p⟩ ::
      ⟨.name ⟨v, .read⟩, x, nested, p⟩ :: more := by
  obtain ⟨more, hmore⟩ := p.touches_of_read h
  exact ⟨_, by rw [entering, hmore]; rfl⟩

theorem Locals.mem_followingReads_step {s : Locals} (hk : e.kind = .name ⟨v, .read⟩)
    (hphase : e.phase = .after) (hfree : v ∉ s.followingWrites) :
    v ∈ (s.step e).followingReads := by
  simp [step, hk, count, hphase, hfree]

theorem Event.IsBefore.isAt (h : e.IsBefore phase p t) : e.IsAt phase t := by
  obtain ⟨nested, ⟨-, he⟩ | ⟨-, he⟩⟩ := h
  · exact ⟨nested, Or.inl he⟩
  · exact ⟨nested, Or.inr he⟩

theorem Place.not_accesses_of_loop (hkind : p.node.kind.isLoop = true) (a : Access) :
    ¬ p.Accesses a := by
  rintro (htouch | ⟨-, c, hc, -⟩)
  · cases hk : p.node.kind <;> rw [hk] at hkind <;> simp_all [touches, Kind.isLoop]
  · cases hk : p.node.kind <;> rw [hk] at hkind <;> simp_all [stores, Kind.isLoop]

theorem Event.leaving_of_loop (hkind : p.node.kind.isLoop = true) {nested : Bool} :
    leaving phase nested p = [⟨.leave, phase p.node.id, nested, p⟩] := by
  cases hk : p.node.kind <;> rw [hk] at hkind <;>
    simp_all [leaving, Place.stores, Place.raises, Kind.isLoop]

theorem Event.IsBefore.stop_le (hlaid : Laid offset id f) (hp : p ∈ placesBelow path f)
    (ht : t ∈ placesBelow path f) (hname : t.node.kind = .name → t.children = .nil) {a : Access}
    (h : e.IsBefore phase p t) (hk : e.kind = .name a) :
    t.node.stop ≤ p.node.start := by
  obtain ⟨nested, ⟨hid, he⟩ | ⟨hstop, -⟩⟩ := h
  · have hkind : t.node.kind = .name := by
      have htouch := access_of_mem_entering he hk
      unfold Place.touches at htouch
      split at htouch
      next hk => exact hk
      next => cases htouch
    refine (inner_or_beyond hlaid ht hp hid).resolve_left fun hin => ?_
    rw [Place.inner, hname hkind] at hin
    cases hin
  · exact hstop

end Reads

theorem last_root {path : List Node} {f : SyntaxTree} {offset : Int} {id : Nat}
    (hlaid : Laid offset id f) {l : List Place} {c : Place} (hlast : rootPlaces path f = l ++ [c]) :
    c.node.id + 1 + c.children.size = id + f.size := by
  induction f generalizing offset id l with
  | nil => simp [rootPlaces] at hlast
  | cons n children rest _ ihr =>
    obtain ⟨hstart, hid, hstop, hc, hr⟩ := hlaid
    rw [rootPlaces] at hlast
    simp only [Forest.size]
    cases l with
    | nil =>
      obtain ⟨rfl, hnil⟩ := List.cons.inj hlast
      cases rest with
      | nil =>
        simp only [Forest.size]
        omega
      | cons => cases hnil
    | cons d l =>
      have := ihr hr (List.cons.inj hlast).2
      omega

theorem Trace.Located.exists_events_of_loop {t : SyntaxTree} {sel : Extent} {m loop : Place}
    {a b : Nat} {s : Trace} (h : Laid 0 0 t) (hm : m ∈ t.places) (hl : Located sel m a b s)
    (hloop : loop ∈ m.inner) (hkind : loop.node.kind.isLoop = true) (hbefore : loop.node.id < a) :
    ∃ es depth nested rest, s.events.toList =
        (es ++ Event.stream (Phase.among a b) depth loop.below loop.children) ++
          ⟨.leave, Phase.among a b loop.node.id, nested, loop⟩ :: rest ∧
      ∀ e ∈ es, e.phase.Early ∧
          (e.kind = .enter ∧ e.place = loop ∨ e.node.start < loop.node.start) := by
  have hlaid := (laid_children h hm).1
  have hloopt := inner_subset hm loop hloop
  obtain ⟨earlier, later, hevents, hearlier, -, -⟩ := hl.events
  obtain ⟨depth, l₁, r₁, hstream, hl₁⟩ := Event.stream_eq_around (Phase.among a b) 0 hlaid hloop
  refine ⟨earlier ++ l₁ ++ Event.entering (Phase.among a b loop.node.id) (decide (0 < depth)) loop,
    depth + loop.nesting, decide (0 < depth), r₁ ++ later, ?_, fun e he => ?_⟩
  · rw [hevents, hstream, Event.leaving_of_loop hkind]
    simp only [List.append_assoc, List.cons_append, List.nil_append]
  · have hearly : ∀ {i : Nat}, i < a → (Phase.among a b i).Early :=
      fun hi => Or.inr (Phase.among_eq_before_iff.mpr hi)
    simp only [List.mem_append] at he
    rcases he with (he | he) | he
    · have := inner_bounds h hm hloop
      have := (hearlier e he).2
      exact ⟨(hearlier e he).1, Or.inr (by omega)⟩
    · obtain ⟨p, hp, nested, ⟨hid, he⟩ | ⟨hstop, he⟩⟩ := hl₁ e he
      · obtain ⟨hphase, hplace⟩ := Trace.place_of_mem_entering he
        rw [hphase, Event.node, hplace]
        exact ⟨hearly (by omega), Or.inr (start_lt_of_id_lt hlaid hp hloop hid)⟩
      · obtain ⟨hphase, hnear⟩ := Trace.place_of_mem_leaving he
        have hplace : e.place ∈ t.places ∧ e.place.node.start < p.node.stop := by
          rcases hnear with heq | hchild
          · rw [heq]
            exact ⟨inner_subset hm p hp, Trace.laid_lt hlaid hp⟩
          · have hin := (SyntaxTree.rootPlaces_subset _ _ _ hchild).1
            have := inner_bounds hlaid hp hin
            have := Trace.laid_lt hlaid (inner_subset hp _ hin)
            exact ⟨inner_subset hm _ (inner_subset hp _ hin), by omega⟩
        have hstart : e.place.node.start < loop.node.start := by omega
        rw [hphase, Event.node]
        refine ⟨hearly (Nat.lt_of_not_le fun hle => ?_), Or.inr hstart⟩
        have := start_lt_of_id_lt h hloopt hplace.1 (by omega)
        omega
    · refine ⟨(Trace.place_of_mem_entering he).1 ▸ hearly hbefore,
        Or.inl ⟨?_, (Trace.place_of_mem_entering he).2⟩⟩
      rcases Event.mem_entering.mp he with rfl | ⟨access, htouch, -⟩ | ⟨hcatch, -⟩
      · rfl
      · exact absurd (Or.inl htouch) (Place.not_accesses_of_loop hkind access)
      · rw [hcatch] at hkind
        cases hkind

namespace Selects

open Trace

variable {t : SyntaxTree} {w : Verdict} {q m : Place} {before chosen after : SyntaxTree}
  {sel : Extent} {a b : Nat} {s : Trace} {ds : List Diagnostic} {l : List Place} {c p : Place}

theorem phase_iff (hs : Selects t w q before chosen after) (h : Laid 0 0 t) (hm : m ∈ t.places)
    (hl : Located sel m a b s) (hw : w = s.verdict sel ds) (hp : p ∈ m.inner) :
    (Phase.among a b p.node.id = .before ↔ p.node.id < q.node.id + 1 + before.size) ∧
      (Phase.among a b p.node.id = .after ↔
      q.node.id + 1 + before.size + chosen.size ≤ p.node.id) := by
  obtain ⟨r, hr⟩ := hs.exists_rootPlace
  have hrin : r ∈ m.inner := (mem_picked.mp ((hs.mem_picked_iff h hm hl hw r).mpr hr)).1
  obtain ⟨offset, hchosen⟩ := hs.laid_chosen h
  have hrange := laid_bounds hchosen (node_mem_of_mem_placesBelow (rootPlaces_subset _ _ r hr).1)
  have hrsel := (hs.selected_iff h hm hl hw (node_mem_of_mem_placesBelow hrin)).mpr hrange.2.2.2
  have hpsel := hs.selected_iff h hm hl hw (node_mem_of_mem_placesBelow hp)
  rw [Phase.among_eq_selected_iff] at hrsel hpsel
  rw [Phase.among_eq_before_iff, Phase.among_eq_after_iff]
  omega

theorem stop_le_iff (hs : Selects t w q before chosen after) (h : Laid 0 0 t)
    (hlast : rootPlaces q.below chosen = l ++ [c]) (hp : p ∈ t.places) :
    q.node.id + 1 + before.size + chosen.size ≤ p.node.id ↔ c.node.stop ≤ p.node.start := by
  obtain ⟨offset, hchosen⟩ := hs.laid_chosen h
  have hroot : c ∈ rootPlaces q.below chosen := by rw [hlast]; simp
  have hc : c ∈ t.places :=
    inner_subset hs.place c (hs.chosen_subset c (rootPlaces_subset _ _ c hroot).1)
  have hend := last_root hchosen hlast
  have hlt := laid_lt h hc
  constructor
  · intro hle
    refine (inner_or_beyond h hc hp (by omega)).resolve_left fun hin => ?_
    have := laid_bounds (laid_children h hc).1 (node_mem_of_mem_placesBelow hin)
    omega
  · intro hstop
    rcases Nat.lt_trichotomy p.node.id c.node.id with hpc | heq | hpc
    · have := start_lt_of_id_lt h hp hc hpc
      omega
    · rw [place_unique h hp hc heq] at hstop
      omega
    · refine Nat.not_lt.mp fun hbelow => ?_
      obtain ⟨k, hk, hkp⟩ := exists_id (laid_children h hc).1 (i := p.node.id) (by omega) (by omega)
      obtain ⟨p', hp', rfl⟩ := exists_place_of_mem c.below hk
      rw [place_unique h hp (inner_subset hc p' hp') hkp.symm] at hstop
      have := inner_bounds h hc hp'
      have := laid_lt h (inner_subset hc p' hp')
      omega

theorem not_mem_followingWrites (hs : Selects t w q before chosen after) (h : Laid 0 0 t)
    (hm : m ∈ t.places) (hl : Located sel m a b s) (hw : w = s.verdict sel ds)
    (hlast : rootPlaces q.below chosen = l ++ [c]) {v : Binding} {es : List Event}
      (hes : ∀ e ∈ es, e.phase.Early ∨ ∃ r ∈ m.inner, e.IsAt (Phase.among a b) r ∧
      (e.kind = .name ⟨v, .write⟩ → r.Writes v → c.node.stop < r.node.stop → False)) :
    v ∉ (es.foldl Locals.step {}).followingWrites := by
  intro hv
  obtain ⟨-, -, hwrites⟩ := Locals.mem_collected_foldl v es {}
  rcases hwrites.mp hv with hnil | ⟨e, he, hphase, hk⟩
  · cases hnil
  · rcases hes e he with hearly | ⟨r, hr, hat, hfree⟩
    · rcases hearly with hx | hx <;> rw [hx] at hphase <;> cases hphase
    · obtain ⟨haccess, hphase', hplace⟩ := hat.access hk
      have hin : e.place ∈ m.inner ∧ e.place.node.stop ≤ r.node.stop := by
        rcases hplace with heq | ⟨hchild, -⟩
        · rw [heq]
          exact ⟨hr, Int.le_refl _⟩
        · have := inner_bounds (laid_children h hm).1 hr (child_mem_inner hchild)
          exact ⟨inner_trans hr (child_mem_inner hchild), by omega⟩
      have hplaces := inner_subset hm e.place hin.1
      have hstop := (hs.stop_le_iff h hlast hplaces).mp
        ((hs.phase_iff h hm hl hw hin.1).2.mp (hphase'.symm.trans hphase))
      have := laid_lt h hplaces
      exact hfree hk haccess (by omega)

theorem mem_followingReads_of_behind (hs : Selects t w q before chosen after) (h : Laid 0 0 t)
    (hm : m ∈ t.places) (hl : Located sel m a b s) (hw : w = s.verdict sel ds)
    (hlast : rootPlaces q.below chosen = l ++ [c])
    (hnames : ∀ p ∈ m.inner, p.node.kind = .name → p.children = .nil) {v : Binding} {r : Place}
    (hr : r ∈ m.inner) (hread : r.Reads v) (hbehind : c.node.stop ≤ r.node.start)
    (hfree : ∀ e ∈ m.inner, e.Writes v → c.node.stop < e.node.stop → ¬ e.node.stop ≤ r.node.start) :
    v ∈ (Locals.ofEvents s.events.toList).followingReads := by
  have hlaid := (laid_children h hm).1
  obtain ⟨earlier, later, hevents, hearlier, -, -⟩ := hl.events
  obtain ⟨depth, l₁, r₁, hstream, hl₁⟩ := Event.stream_eq_around (Phase.among a b) 0 hlaid hr
  obtain ⟨more, hentering⟩ :=
    Event.entering_of_read hread (Phase.among a b r.node.id) (decide (0 < depth))
  have hafter : Phase.among a b r.node.id = .after :=
    (hs.phase_iff h hm hl hw hr).2.mpr ((hs.stop_le_iff h hlast (inner_subset hm r hr)).mpr hbehind)
  have hsplit : s.events.toList = (earlier ++ l₁ ++ [⟨.enter, .after, decide (0 < depth), r⟩]) ++
      ⟨.name ⟨v, .read⟩, .after, decide (0 < depth), r⟩ ::
        (more ++ (Event.stream (Phase.among a b) (depth + r.nesting) r.below r.children ++
          Event.leaving (Phase.among a b) (decide (0 < depth)) r) ++ r₁ ++ later) := by
    rw [hevents, hstream, hentering, hafter]
    simp only [List.append_assoc, List.cons_append, List.nil_append]
  rw [Locals.ofEvents, hsplit, List.foldl_append, List.foldl_cons]
  refine Locals.followingReads_foldl (Locals.mem_followingReads_step rfl rfl ?_) _
  refine hs.not_mem_followingWrites h hm hl hw hlast fun e he => ?_
  simp only [List.mem_append, List.mem_singleton] at he
  rcases he with (he | he) | rfl
  · exact Or.inl (hearlier e he).1
  · obtain ⟨t', ht', hbefore⟩ := hl₁ e he
    refine Or.inr ⟨t', ht', hbefore.isAt, fun hk hwrites hstop => ?_⟩
    exact hfree t' ht' hwrites hstop (hbefore.stop_le hlaid hr ht' (hnames t' ht') hk)
  · refine Or.inr ⟨r, hr, ⟨_, Or.inl (by rw [hentering, hafter]; simp)⟩, fun hk => ?_⟩
    cases hk

theorem exists_first (hs : Selects t w q before chosen after) (h : Laid 0 0 t) :
    ∃ r ∈ rootPlaces q.below chosen, r.node.id = q.node.id + 1 + before.size := by
  obtain ⟨offset, hchosen⟩ := hs.laid_chosen h
  have hne := hs.nonempty
  cases chosen with
  | nil => exact absurd rfl hne
  | cons n children rest => exact ⟨⟨n, children, q.below⟩, List.mem_cons_self, hchosen.2.1⟩

theorem not_function (hs : Selects t w q before chosen after) (h : Laid 0 0 t) (hm : m ∈ t.places)
    (hq : q ∈ exposed m.below m.children) (hp : p ∈ m.inner)
    (hlow : p.node.id < q.node.id + 1 + before.size)
    (hhigh : q.node.id + 1 + before.size < p.node.id + 1 + p.children.size) :
    p.node.kind.isFunction = false := by
  have hlaid := (laid_children h hm).1
  have hpt := inner_subset hm p hp
  obtain ⟨r, hr, hid⟩ := hs.exists_first h
  have hchild : r ∈ rootPlaces q.below q.children :=
    mem_rootPlaces (hs.chosen_subset r (rootPlaces_subset _ _ r hr).1)
      (rootPlaces_subset _ _ r hr).2
  obtain ⟨k, hk, hkid⟩ := exists_id (laid_children h hpt).1 (i := r.node.id) (by omega) (by omega)
  obtain ⟨r', hr', rfl⟩ := exists_place_of_mem p.below hk
  rw [place_unique h (inner_subset hpt r' hr') (inner_subset hs.place r (child_mem_inner hchild))
    hkid] at hr'
  rcases parent_within h hs.place hpt hchild hr' with rfl | hqp
  · rcases hs.kind with hk | hk <;> rw [hk] <;> rfl
  · obtain ⟨upper, hupper, hscope⟩ := exposed_scopeless hq
    obtain ⟨upper₁, hupper₁, -⟩ := exists_upper hqp
    obtain ⟨upper₂, hupper₂, -⟩ := exists_upper hp
    have heq : upper = upper₁ ++ p.node :: upper₂ := by
      refine List.append_cancel_right (?_ : _ ++ m.below = _ ++ m.below)
      rw [← hupper, hupper₁, Place.below, hupper₂, List.append_assoc, List.cons_append]
    have hnot := hscope p.node (by rw [heq]; simp)
    cases hk : p.node.kind <;> rw [hk] at hnot <;> first | rfl | cases hnot

theorem loops_eq (hs : Selects t w q before chosen after) (h : Laid 0 0 t) (hm : m ∈ t.places)
    (hl : Located sel m a b s) (hw : w = s.verdict sel ds) (hq : q ∈ exposed m.below m.children)
    {loop : Place} (hloop : loop ∈ m.inner) (hkind : loop.node.kind.isLoop = true)
    (hlow : loop.node.id < q.node.id + 1 + before.size)
    (hhigh : q.node.id + 1 + before.size < loop.node.id + 1 + loop.children.size) {es : List Event}
    (hes : ∀ e ∈ es, e.kind = .enter → e.phase ≠ .selected) (depth : Int) :
    ((es ++ Event.stream (Phase.among a b) depth loop.below loop.children).foldl Locals.step
      {}).loops = loop.node :: Locals.loopsOn loop.ancestors := by
  have hin : ∀ p ∈ loop.inner, p ∈ m.inner := fun p hp => inner_trans hloop hp
  obtain ⟨r, hr, hid⟩ := hs.exists_first h
  have hrsel : Phase.among a b r.node.id = .selected :=
    (mem_picked.mp ((hs.mem_picked_iff h hm hl hw r).mpr hr)).2.1
  refine Locals.loops_of_loop h (inner_subset hm loop hloop) hkind hlow hhigh (fun n hn hlt => ?_)
    (hid ▸ hrsel) (fun p hp hlow hhigh => hs.not_function h hm hq (hin p hp) hlow hhigh) hes depth
  obtain ⟨p, hp, rfl⟩ := exists_place_of_mem loop.below hn
  rw [(hs.phase_iff h hm hl hw (hin p hp)).1.mpr hlt]
  decide

theorem lt_of_around (hs : Selects t w q before chosen after) (h : Laid 0 0 t)
    (hlast : rootPlaces q.below chosen = l ++ [c]) {loop : Place} (hloop : loop ∈ t.places)
    (haround : loop.Around c.node.stop) (hlow : loop.node.id < q.node.id + 1 + before.size) :
    q.node.id + 1 + before.size < loop.node.id + 1 + loop.children.size := by
  obtain ⟨offset, hchosen⟩ := hs.laid_chosen h
  have hroot : c ∈ rootPlaces q.below chosen := by rw [hlast]; simp
  have hcmem := (rootPlaces_subset _ _ c hroot).1
  have hc : c ∈ t.places := inner_subset hs.place c (hs.chosen_subset c hcmem)
  have hrange := laid_bounds hchosen (node_mem_of_mem_placesBelow hcmem)
  have hin := (inner_or_beyond h hloop hc (by omega)).resolve_right
    (by have := haround.2; have := laid_lt h hc; omega)
  have := laid_bounds (laid_children h hloop).1 (node_mem_of_mem_placesBelow hin)
  omega

/-- A read that a loop around the selection comes back to counts, unless a write stands in the loop
behind the selection or before the read. -/
theorem mem_followingReads_of_loop (hs : Selects t w q before chosen after) (h : Laid 0 0 t)
    (hm : m ∈ t.places) (hl : Located sel m a b s) (hw : w = s.verdict sel ds)
    (hlast : rootPlaces q.below chosen = l ++ [c])
    (hnames : ∀ p ∈ m.inner, p.node.kind = .name → p.children = .nil)
    (hq : q ∈ exposed m.below m.children) {v : Binding} {r loop : Place} (hloop : loop ∈ m.inner)
    (hkind : loop.node.kind.isLoop = true) (hfits : Fits loop.node loop.children)
    (haround : loop.Around c.node.stop) (hrepeats : loop.Repeats r)
      (hahead : r.node.id < q.node.id + 1 + before.size) (hread : r.Reads v)
      (hfree : ∀ e ∈ loop.inner, e.Writes v →
      ¬ c.node.stop < e.node.stop ∧ (loop.Repeats e → ¬ e.node.stop ≤ r.node.start)) :
    v ∈ (Locals.ofEvents s.events.toList).followingReads := by
  have hlaid := (laid_children h hm).1
  have hlaid' := (laid_children hlaid hloop).1
  have hr := hrepeats.inner
  have hloopt := inner_subset hm loop hloop
  have hbounds := inner_bounds hlaid hloop hr
  have hphase := fun {p : Place} (hp : p ∈ m.inner) => hs.phase_iff h hm hl hw hp
  have hrbefore : Phase.among a b r.node.id = .before :=
    (hphase (inner_trans hloop hr)).1.mpr hahead
  have hloopbefore : Phase.among a b loop.node.id = .before := (hphase hloop).1.mpr (by omega)
  have hhigh := hs.lt_of_around h hlast hloopt haround (by omega)
  -- the events: what comes before the loop, then the loop, with the read in it
  obtain ⟨es, depth, nested, rest, hevents, hes⟩ := hl.exists_events_of_loop h hm hloop hkind
    (Phase.among_eq_before_iff.mp hloopbefore)
  obtain ⟨depth', l₁, r₁, hstream, hl₁⟩ := Event.stream_eq_around (Phase.among a b) depth hlaid' hr
  obtain ⟨more, hentering⟩ := Event.entering_of_read hread .before (decide (0 < depth'))
  have hsplit : es ++ Event.stream (Phase.among a b) depth loop.below loop.children =
      (es ++ l₁ ++ [⟨.enter, .before, decide (0 < depth'), r⟩]) ++
        ⟨.name ⟨v, .read⟩, .before, decide (0 < depth'), r⟩ ::
        (more ++ (Event.stream (Phase.among a b) (depth' + r.nesting) r.below r.children ++
          Event.leaving (Phase.among a b) (decide (0 < depth')) r) ++ r₁) := by
    rw [hstream, hrbefore, hentering]
    simp only [List.append_assoc, List.cons_append, List.nil_append]
  have hloops := hs.loops_eq h hm hl hw hq hloop hkind (by omega) hhigh
    (fun e he _ => (hes e he).1.ne_selected) depth
  rw [Locals.ofEvents, hevents, List.foldl_append, List.foldl_cons]
  refine Locals.followingReads_foldl ?_ _
  rw [Locals.followingReads_leave rfl hloops rfl]
  have hpreceding :
      ((es ++ Event.stream (Phase.among a b) depth loop.below loop.children).foldl
        Locals.step {}).preceding =
        (es ++ l₁ ++ [(⟨.enter, .before, decide (0 < depth'), r⟩ : Event)]).filterMap
          Event.preceding? ++
        ⟨⟨v, .read⟩, r⟩ :: (more ++
          (Event.stream (Phase.among a b) (depth' + r.nesting) r.below r.children ++
          Event.leaving (Phase.among a b) (decide (0 < depth')) r) ++
              r₁).filterMap Event.preceding? := by
    rw [Locals.preceding_foldl, hsplit, List.filterMap_append]
    rfl
  refine Locals.mem_followingReads_reenter hpreceding rfl ?_ ?_ ?_
  · exact (Locals.repeats_iff h hloopt hkind hfits (inner_subset hloopt r hr)
      (ne_of_mem_inner h hloopt hr)).mpr hrepeats
  · -- nothing in the loop behind the selection writes the variable
    refine hs.not_mem_followingWrites h hm hl hw hlast fun e he => ?_
    rcases List.mem_append.mp he with he | he
    · exact Or.inl (hes e he).1
    · obtain ⟨t', ht', hat⟩ := Event.exists_isAt he
      exact Or.inr ⟨t', inner_trans hloop ht', hat,
        fun _ hwrites hstop => (hfree t' ht' hwrites).1 hstop⟩
  · intro x hx hrep hwrite
    obtain ⟨e, he, hpre⟩ := List.mem_filterMap.mp hx
    obtain ⟨-, hk, hplace⟩ := Event.preceding?_eq_some.mp hpre
    simp only [List.mem_append, List.mem_singleton] at he
    rcases he with (he | he) | rfl
    · -- an access ahead of the loop is not repeated
      have hstart := (hes e he).2.resolve_left fun henter => by rw [henter.1] at hk; cases hk
      simp only [Locals.repeats, Bool.and_eq_true, decide_eq_true_eq] at hrep
      have := hrep.1.1
      rw [Event.node, hplace] at hstart
      omega
    · -- an access of the loop ahead of the read: a repeated one stands ahead of the read in the text
      obtain ⟨d, hd, hbefore⟩ := hl₁ e he
      have hrepeats' := Locals.repeats_of_isAt h hloopt hkind hfits hd hbefore.isAt hk hplace hrep
      have hwrites := (hbefore.isAt.access hk).1
      rw [hwrite] at hwrites
      refine (hfree d hd hwrites).2 hrepeats' ?_
      exact hbefore.stop_le hlaid' hr hd (hnames d (inner_trans hloop hd)) hk
    · cases hk

end Selects

/-- A write of the variable stands in the text on the way from the end of the selection to the read:
between the two, or, in a loop that comes back to the read, behind the selection or before the
read. -/
def WrittenBetween (m : Place) (stop : Int) (v : Binding) (r : Place) : Prop :=
  (∃ e ∈ m.inner, e.Writes v ∧ stop < e.node.stop ∧ e.node.stop ≤ r.node.start) ∨
    ∃ loop ∈ exposed m.below m.children, loop.node.kind.isLoop = true ∧ loop.Around stop ∧
      loop.Repeats r ∧
      ∃ e ∈ loop.inner, e.Writes v ∧
        (stop < e.node.stop ∨ loop.Repeats e ∧ e.node.stop ≤ r.node.start)

/-- A variable that is written in a legal selection is returned if control comes to a read of it
after the selection, unless a write of it stands in the text in between. -/
theorem returnValue_of_read (s : Sketch) (hbuilt : s.Built) {sel : Extent} {boundaries : Boundaries}
    {w : Verdict} {q m r c : Place} {before chosen after : SyntaxTree} {v : Binding}
    {l : List Place} (hw : analyze s.layout sel boundaries = .ok w) (hlegal : w.Legal)
    (hsel : Selects s.layout w q before chosen after) (hm : m ∈ s.layout.places)
    (hmethod : w.method = some m.node.id)
    (hstructured : ∀ p ∈ exposed m.below m.children, p.node.kind ≠ .gotoStmt ∧
    p.node.kind ≠ .tryStmt) (hwrite : ∃ p ∈ placesBelow q.below chosen, p.Writes v)
      (hlast : rootPlaces q.below chosen = l ++ [c])
    (lenient : Bool) {k k' : List Ending}
    (hpath : Relation.ReflTransGen (Moves lenient m.below m.children) (.done c .normal, k)
    (.enter r, k')) (hread : r.Reads v) (hout : r ∉ placesBelow q.below chosen) :
    w.returnValue = some v ∨ WrittenBetween m c.node.stop v r := by
  have h : Laid 0 0 s.layout := laid_layout s
  obtain ⟨m', a, b, ds, hm', hl, hds, hverdict⟩ :=
    Trace.exists_located_of_analyze (t := s.layout) h hw
    (by rw [hsel.selected]; simpa using hsel.nonempty)
  rw [hverdict, hl.verdict_method] at hmethod
  obtain rfl := place_unique h hm hm' (Option.some.inj hmethod).symm
  have hlaid := (laid_children h hm).1
  have hqin := hsel.mem_inner h hm hl hverdict
  have hroot : c ∈ rootPlaces q.below chosen := by rw [hlast]; simp
  have hchild : c ∈ rootPlaces q.below q.children :=
    mem_rootPlaces (hsel.chosen_subset c (rootPlaces_subset _ _ c hroot).1)
      (rootPlaces_subset _ _ c hroot).2
  have hq := exposed_of_path hlaid hqin hchild hpath
  have hplaces : ∀ p ∈ m.inner, p ∈ s.layout.places := fun p hp => inner_subset hm p hp
  have hfits : ∀ p ∈ m.inner, Fits p.node p.children := fun p hp => hbuilt.fits p (hplaces p hp)
  have hnames : ∀ p ∈ m.inner, p.node.kind = .name → p.children = .nil := by
    intro p hp hk
    have hroles := hfits p hp
    rw [SyntaxTree.Fits, hk] at hroles
    cases hchildren : p.children with
    | nil => rfl
    | cons n children rest => rw [hchildren] at hroles; cases hroles
  obtain ⟨hr, hreached⟩ := reached_of_path hlaid (fun p hp => hfits p (exposed_subset _ _ p hp))
    hstructured (Trace.inner_trans hqin (child_mem_inner hchild)) hpath
  -- without a write in between the read is counted: where it stands, or when the loop is left
  refine Classical.or_iff_not_imp_right.mpr fun hfree => ?_
  have hbehind : c.node.stop ≤ r.node.start →
      v ∈ (Locals.ofEvents (Trace.ofSelection s.layout sel).events.toList).followingReads :=
        fun hbehind =>
    hsel.mem_followingReads_of_behind h hm hl hverdict hlast hnames hr hread hbehind
      fun e he hwrites hstop hle => hfree (Or.inl ⟨e, he, hwrites, hstop, hle⟩)
  have hreads : v ∈ (Locals.ofEvents
      (Trace.ofSelection s.layout sel).events.toList).followingReads := by
    rcases hreached with hstop | ⟨loop, hloop, hkind, haround, hrepeats⟩
    · exact hbehind hstop
    · have hloopin := exposed_subset _ _ loop hloop
      by_cases hahead : r.node.id < q.node.id + 1 + before.size
      · refine hsel.mem_followingReads_of_loop h hm hl hverdict hlast hnames hq hloopin hkind
          (hfits loop hloopin) haround
          hrepeats hahead hread fun e he hwrites => ⟨fun hstop => ?_, fun hrep hle => ?_⟩
        · exact hfree (Or.inr ⟨loop, hloop, hkind, haround, hrepeats, e, he, hwrites, Or.inl hstop⟩)
        · exact hfree (Or.inr ⟨loop, hloop, hkind, haround, hrepeats, e, he, hwrites,
            Or.inr ⟨hrep, hle⟩⟩)
      · have hnot := (not_congr (hsel.mem_chosen_iff h hm hl hverdict hr)).mpr hout
        rw [hsel.selected_iff h hm hl hverdict (node_mem_of_mem_placesBelow hr)] at hnot
        exact hbehind ((hsel.stop_le_iff h hlast (hplaces r hr)).mp (by omega))
  -- a legal verdict has one candidate at most
  have hcandidate := Locals.mem_candidates_ofEvents.mpr
    ⟨hreads, (hsel.mem_selected_iff h hm hl hverdict v).2.mpr hwrite⟩
  rw [hverdict] at hlegal ⊢
  rw [(Trace.verdict_variables _ sel hds).1]
  exact Locals.returnValue_of_mem ((Trace.verdict_legal_iff _ sel ds).mp hlegal).2.2.1 hcandidate

/-- A loop that reads a variable and then writes it. -/
def rereading : Sketch :=
  let c : Binding := { key := 0, name := "c", kind := .parameter }
  let x : Binding := { key := 1, name := "x" }
  .file [some (.method "m" true [some c] [some (.declare (some x) none),
    some (.loop none (some (.ref (some c))) none (some (.block [some (.eval (some (.ref (some x)))),
      some (.assign false (some x) (some (.operation [])))])))])]

def rereadingVerdict : Verdict where
  diagnostics := []
  returnKind := .variableValue
  extractedLocals := [{ key := 1, name := "x", pos := 6 }]
  returnValue := some { key := 1, name := "x", pos := 6 }
  method := some 1
  selected := [11]

/-- The next round of the loop reads what the selection has written. -/
theorem rereading_returned :
    analyze rereading.layout ⟨17, 8⟩ .everywhere = .ok rereadingVerdict ∧
      ∃ m ∈ rereading.layout.places, ∃ c ∈ m.inner, ∃ r ∈ m.inner, r.Reads
        { key := 1, name := "x", pos := 6 } ∧
          (rereadingVerdict.returnValue = some { key := 1, name := "x", pos := 6 } ∨
          WrittenBetween m c.node.stop { key := 1, name := "x", pos := 6 } r) := by
  let m : Place := rereading.layout.places.get ⟨1, by decide⟩
  let loop : Place := rereading.layout.places.get ⟨6, by decide⟩
  let test : Place := rereading.layout.places.get ⟨7, by decide⟩
  let body : Place := rereading.layout.places.get ⟨8, by decide⟩
  let read : Place := rereading.layout.places.get ⟨9, by decide⟩
  let name : Place := rereading.layout.places.get ⟨10, by decide⟩
  let write : Place := rereading.layout.places.get ⟨11, by decide⟩
  have hbuilt : rereading.Built :=
    .file (Built.cons (.method _ _ _ (Built.cons (.declare _ Built.absent) (Built.cons
      (.loop Built.absent (Built.present (.ref _)) Built.absent (Built.present (.block
        (Built.cons (.eval (Built.present (.ref _)))
          (Built.cons (.assign _ _ (Built.present (.operation Built.nil)))
          Built.nil))))) Built.nil))) Built.nil)
  have hw : analyze rereading.layout ⟨17, 8⟩ .everywhere = .ok rereadingVerdict := by
    decide +kernel
  have hsel : Selects rereading.layout rereadingVerdict body (.cons read.node read.children .nil)
      (.cons write.node write.children .nil) .nil := by
    constructor <;> decide +kernel
  have hpath : Relation.ReflTransGen (Moves false m.below m.children) (.done write .normal, [])
      (.enter name, []) := by
    refine .head (.last (p := body) (x := .body) (l := [read]) (by decide +kernel)
      (by decide +kernel)) ?_
    refine .head (.settle (o := .normal) (by decide +kernel) (by decide +kernel) (by decide +kernel)
      (by decide +kernel)) ?_
    refine .head (.last (p := loop) (x := .body) (l := []) (by decide +kernel)
      (by decide +kernel)) ?_
    refine .head (.turn (y := .post) (by decide +kernel) (by decide +kernel) (by decide +kernel)) ?_
    refine .head (.empty (by decide +kernel) (by decide +kernel)) ?_
    refine .head (.turn (y := .test) (by decide +kernel) (by decide +kernel) (by decide +kernel)) ?_
    refine .head (.first (c := test) (r := []) (by decide +kernel) (by decide +kernel)) ?_
    refine .head (.start (by decide +kernel) rfl) ?_
    refine .head (.empty (by decide +kernel) (by decide +kernel)) ?_
    refine .head (.settle (o := .normal) (by decide +kernel) (by decide +kernel) (by decide +kernel)
      (by decide +kernel)) ?_
    refine .head (.last (p := loop) (x := .test) (l := []) (by decide +kernel)
      (by decide +kernel)) ?_
    refine .head (.turn (y := .body) (by decide +kernel) (by decide +kernel) (by decide +kernel)) ?_
    refine .head (.first (c := body) (r := []) (by decide +kernel) (by decide +kernel)) ?_
    refine .head (.start (by decide +kernel) rfl) ?_
    refine .head (.first (c := read) (r := [write]) (by decide +kernel) (by decide +kernel)) ?_
    refine .head (.start (by decide +kernel) rfl) ?_
    exact .single (.first (c := name) (r := []) (by decide +kernel) (by decide +kernel))
  refine ⟨hw, m, List.get_mem _ _, write, by decide +kernel,
    name, by decide +kernel, by decide +kernel, ?_⟩
  exact returnValue_of_read rereading hbuilt hw (by decide) hsel (List.get_mem _ _) rfl
    (by decide +kernel)
    (by decide +kernel) (l := []) (by decide +kernel) false hpath (by decide +kernel)
      (by decide +kernel)

/-- A legal selection does not return a variable that it writes, though a path comes from its end to
a read of the variable without another write. -/
def Sketch.LosesUpdate (s : Sketch) (sel : Extent) : Prop :=
  s.Built ∧ ∃ w q before chosen after m c r v, ∃ l : List Place,
    analyze s.layout sel .everywhere = .ok w ∧ w.Legal ∧ q.node.kind = .block ∧
      Selects s.layout w q before chosen after ∧ m ∈ s.layout.places ∧ w.method = some m.node.id ∧
      (∀ p ∈ exposed m.below m.children, p.node.kind ≠ .gotoStmt ∧ p.node.kind ≠ .tryStmt) ∧
      (∃ p ∈ placesBelow q.below chosen, p.Writes v) ∧ rootPlaces q.below chosen = l ++ [c] ∧
      Relation.ReflTransGen (fun x y => Moves false m.below m.children x y ∧ ¬ y.1.Writes v)
        (.done c .normal, []) (.enter r, []) ∧
      r.Reads v ∧ r ∉ placesBelow q.below chosen ∧ w.returnValue ≠ some v

/-- A write, a second one under a condition, and then a read. -/
def overwriting : Sketch :=
  let c : Binding := { key := 0, name := "c", kind := .parameter }
  let x : Binding := { key := 1, name := "x" }
  .file [some (.method "m" true [some c] [some (.declare (some x) none),
    some (.assign false (some x) (some (.operation []))),
    some (.conditional (some (.ref (some c)))
      (some (.block [some (.assign false (some x) (some (.operation [])))])) none),
    some (.eval (some (.ref (some x))))])]

theorem overwriting_losesUpdate : overwriting.LosesUpdate ⟨9, 8⟩ := by
  let m : Place := overwriting.layout.places.get ⟨1, by decide⟩
  let body : Place := overwriting.layout.places.get ⟨3, by decide⟩
  let decl : Place := overwriting.layout.places.get ⟨4, by decide⟩
  let write : Place := overwriting.layout.places.get ⟨6, by decide⟩
  let cond : Place := overwriting.layout.places.get ⟨10, by decide⟩
  let test : Place := overwriting.layout.places.get ⟨11, by decide⟩
  let read : Place := overwriting.layout.places.get ⟨17, by decide⟩
  let name : Place := overwriting.layout.places.get ⟨18, by decide⟩
  let w : Verdict :=
    { diagnostics := [], extractedLocals := [{ key := 1, name := "x", pos := 6 }], method := some 1,
      selected := [6] }
  refine ⟨?_, w, body, .cons decl.node decl.children .nil, .cons write.node write.children .nil,
    .cons cond.node cond.children (.cons read.node read.children .nil), m, write, name,
    { key := 1, name := "x", pos := 6 }, [], by decide +kernel, by decide, rfl,
    by constructor <;> decide +kernel, List.get_mem _ _, rfl, by decide +kernel,
    by decide +kernel, by decide +kernel, ?_, by decide +kernel, by decide +kernel, by decide⟩
  · exact .file (Built.cons (.method _ _ _ (Built.cons (.declare _ Built.absent) (Built.cons
      (.assign _ _ (Built.present (.operation Built.nil))) (Built.cons
        (.conditional (Built.present (.ref _))
          (Built.present (.block (Built.cons (.assign _ _ (Built.present (.operation Built.nil)))
          Built.nil))) Built.absent)
        (Built.cons (.eval (Built.present (.ref _))) Built.nil))))) Built.nil)
  · refine .head ⟨.next (p := body) (x := .body) (l := [decl]) (c := write) (d := cond)
      (r := [read]) (by decide +kernel) (by decide +kernel), nofun⟩ ?_
    refine (Moves.past_conditional (c := test) (by decide +kernel) rfl (by decide +kernel)
      (by decide +kernel) (by decide +kernel)
      (Moves.past_name (by decide +kernel) rfl rfl (by decide +kernel))).trans ?_
    refine .head ⟨.next (p := body) (x := .body) (l := [decl, write]) (c := cond) (d := read)
      (r := []) (by decide +kernel) (by decide +kernel), nofun⟩ ?_
    refine .head ⟨.start (by decide +kernel) rfl, nofun⟩ ?_
    exact .single ⟨.first (c := name) (r := []) (by decide +kernel) (by decide +kernel), nofun⟩

end Extraction
