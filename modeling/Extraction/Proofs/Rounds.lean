import Extraction.Proofs.Classification
import Extraction.Proofs.Following

/-!
# Rounds of the loops around a selection

Code ahead of the selection in a loop around it runs again in the next round.  The loops that matter
are those around the first selected node and in the same function.  The traversal keeps them until
they are left, innermost first.  When it leaves one of them, all that stands in the loop has been
recorded, and nothing in it is recorded later.
-/

namespace Extraction

open SyntaxTree

namespace Event

variable {phase : Nat → Phase} {depth : Int} {path : List Node} {f : SyntaxTree}
  {offset : Int} {id : Nat}

instance (e : Event) : Decidable e.EntersSelected :=
  inferInstanceAs (Decidable (_ ∧ _))

def firstSelected? (events : List Event) : Option Place :=
  (events.find? fun e => e.EntersSelected).map (·.place)

theorem firstSelected?_eq_some {events : List Event} {first : Place} :
    firstSelected? events = some first ↔ ∃ xs d ys, events = xs ++ d :: ys ∧ d.EntersSelected ∧
      d.place = first ∧ ∀ e ∈ xs, ¬ e.EntersSelected := by
  rw [firstSelected?, Option.map_eq_some_iff]
  constructor
  · rintro ⟨d, hd, rfl⟩
    obtain ⟨hsel, xs, ys, rfl, hxs⟩ := List.find?_eq_some_iff_append.mp hd
    exact ⟨xs, d, ys, rfl, of_decide_eq_true hsel, rfl, fun e he => by simpa using hxs e he⟩
  · rintro ⟨xs, d, ys, rfl, hsel, rfl, hxs⟩
    refine ⟨d, List.find?_eq_some_iff_append.mpr ⟨?_, xs, ys, rfl, fun e he => ?_⟩, rfl⟩
    · exact decide_eq_true hsel
    · simpa using hxs e he

theorem firstSelected?_append {xs : List Event} {first : Place} (h : firstSelected? xs = some first)
    (ys : List Event) : firstSelected? (xs ++ ys) = some first := by
  obtain ⟨l, d, r, rfl, hd, hplace, hl⟩ := firstSelected?_eq_some.mp h
  exact firstSelected?_eq_some.mpr ⟨l, d, r ++ ys, by simp, hd, hplace, hl⟩

section Leave

variable {n : Node} {children rest : SyntaxTree} {nested : Bool} {p : Place} {d : Event}

theorem kind_of_mem_entering {x : Phase} (hd : d ∈ entering x nested p) : d.kind ≠ .leave := by
  rcases mem_entering.mp hd with rfl | ⟨a, -, rfl⟩ | ⟨-, rfl⟩ <;> simp

theorem place_of_leave (hd : d ∈ leaving phase nested p) (hk : d.kind = .leave) : d.place = p := by
  rcases mem_leaving.mp hd with ⟨c, -, b, -, rfl⟩ | ⟨-, rfl⟩ | rfl
  · cases hk
  · cases hk
  · rfl

theorem pairwise_leaving (R : Event → Event → Prop) (phase : Nat → Phase) (nested : Bool)
    (p : Place) :
    (leaving phase nested p).Pairwise fun d e => d.kind = .leave → R d e := by
  obtain ⟨es, hes, hkinds⟩ := exists_leaving_eq phase nested p
  rw [hes]
  refine List.pairwise_append.mpr ⟨?_, List.pairwise_singleton _ _, ?_⟩
  · exact List.pairwise_of_forall_mem_list fun d hd _ _ hk => absurd hk (hkinds d hd).2
  · exact fun d hd _ _ hk => absurd hk (hkinds d hd).2

theorem not_inner_of_rest (h : Laid offset id (.cons n children rest)) {q r : Place}
    (hq : q = ⟨n, children, path⟩ ∨ q ∈ placesBelow (n :: path) children)
    (hr : r ∈ placesBelow path rest) :
    r ∉ q.inner ∧ r ≠ q := by
  obtain ⟨-, hid, -, hc, hrest⟩ := h
  have hrange := laid_bounds hrest (node_mem_of_mem_placesBelow hr)
  constructor
  · intro hin
    have hbelow : r ∈ placesBelow (n :: path) children := by
      rcases hq with rfl | hq
      · exact hin
      · exact inner_subset hq _ hin
    have := laid_bounds hc (node_mem_of_mem_placesBelow hbelow)
    omega
  · rintro rfl
    rcases hq with rfl | hq
    · simp only at hrange
      omega
    · have := laid_bounds hc (node_mem_of_mem_placesBelow hq)
      omega

theorem pairwise_leave (h : Laid offset id f) :
    (stream phase depth path f).Pairwise fun d e =>
      d.kind = .leave → e.place ∉ d.place.inner ∧ (e.kind = .leave → e.place ≠ d.place) := by
  induction f generalizing path depth offset id with
  | nil => exact List.Pairwise.nil
  | cons n children rest ihc ihr =>
    have hp := root_mem_placesBelow path n children rest
    rw [stream]
    refine List.pairwise_append.mpr
      ⟨List.pairwise_append.mpr ⟨List.pairwise_append.mpr ⟨?_, ihc h.2.2.2.1, ?_⟩,
      pairwise_leaving _ _ _ _, ?_⟩, ihr h.2.2.2.2, ?_⟩
    · exact List.pairwise_of_forall_mem_list fun d hd _ _ hk => absurd hk (kind_of_mem_entering hd)
    · exact fun d hd _ _ hk => absurd hk (kind_of_mem_entering hd)
    · -- the root is left after the places below it
      intro d hd e he hk
      rcases List.mem_append.mp hd with hd | hd
      · exact absurd hk (kind_of_mem_entering hd)
      · have hdin : d.place ∈ Place.inner ⟨n, children, path⟩ := (place_of_mem_stream hd).2
        have hbounds := inner_bounds h hp hdin
        refine ⟨fun hin => ?_, fun hk' heq => ?_⟩
        · rcases (Trace.place_of_mem_leaving he).2 with heq | hchild
          · have := inner_bounds h (inner_subset hp _ hdin) (heq ▸ hin)
            omega
          · exact child_ne_inner h hp hchild hdin hin rfl
        · rw [place_of_leave he hk'] at heq
          exact ne_of_mem_inner h hp hdin heq.symm
    · intro d hd e he hk
      have hplace : d.place = ⟨n, children, path⟩ ∨ d.place ∈ placesBelow (n :: path) children := by
        rcases List.mem_append.mp hd with hd | hd
        · rcases List.mem_append.mp hd with hd | hd
          · exact absurd hk (kind_of_mem_entering hd)
          · exact Or.inr (place_of_mem_stream hd).2
        · exact Or.inl (place_of_leave hd hk)
      have hbehind := not_inner_of_rest h hplace (place_of_mem_stream he).2
      exact ⟨hbehind.1, fun _ => hbehind.2⟩

end Leave

end Event

namespace Place

def LoopsAround (loop p : Place) : Prop :=
  loop.node.kind.isLoop = true ∧ p ∈ loop.inner ∧ ∀ q ∈ loop.inner, p ∈ q.inner →
    q.node.kind.isFunction = false

/-- The place is in what the loop runs in every round: in the loop, and not in its initialiser. -/
def InRounds (loop p : Place) : Prop :=
  p ∈ loop.inner ∧ (loop.node.kind = .loop → ∀ i ∈ rootPlaces loop.below loop.children,
    loop.child? .init = some i.node → p ≠ i ∧ p ∉ i.inner)

instance (loop p : Place) : Decidable (loop.LoopsAround p) :=
  inferInstanceAs (Decidable (_ ∧ _ ∧ _))

instance (loop p : Place) : Decidable (loop.InRounds p) :=
  inferInstanceAs (Decidable (_ ∧ _))

end Place

/-- The access ahead of the selection and in the rounds of the loop that the event stands for. -/
def Event.repeated? (loop : Place) (e : Event) : Option PrecedingAccess :=
  e.preceding?.filter fun a => loop.InRounds a.place

theorem Event.repeated?_eq_some {loop : Place} {e : Event} {a : PrecedingAccess} :
    e.repeated? loop = some a ↔ e.Accesses .before a.toAccess ∧ e.place = a.place ∧
      loop.InRounds e.place := by
  rw [repeated?, Option.filter_eq_some_iff, preceding?_eq_some, Accesses, decide_eq_true_eq,
    and_assoc, and_assoc, and_assoc]
  refine and_congr_right fun _ => and_congr_right fun _ => and_congr_right fun hplace => ?_
  rw [hplace]

variable {t : SyntaxTree} {loop first : Place}

theorem Locals.repeats_iff_inRounds (h : Laid 0 0 t) (hloop : loop ∈ t.places) {a : PrecedingAccess}
    (ha : a.place ∈ t.places) (hne : a.place ≠ loop) :
    repeats loop a = true ↔ loop.InRounds a.place := by
  rw [repeats, Bool.and_eq_true, Bool.and_eq_true, decide_eq_true_eq, decide_eq_true_eq,
    start_within_iff h hloop ha hne, Bool.not_eq_true', Place.InRounds, Bool.and_eq_false_iff,
    beq_eq_false_iff_ne,
    Option.any_eq_false]
  refine and_congr_right fun _ => ?_
  have hroot : ∀ i, loop.child? .init = some i →
      ∃ d ∈ rootPlaces loop.below loop.children, d.node = i := by
    intro i hi
    have := List.mem_of_find?_eq_some hi
    rwa [← map_node_rootPlaces loop.below loop.children, List.mem_map] at this
  have hwithin : ∀ d ∈ rootPlaces loop.below loop.children,
      a.place.isWithin d.node.id = false ↔ a.place ≠ d ∧ a.place ∉ d.inner := by
    intro d hd
    rw [← Bool.not_eq_true, isWithin_iff h ha (inner_subset hloop d (child_mem_inner hd)), not_or]
  constructor
  · intro hout hkind d hd hinit
    refine (hwithin d hd).mp ?_
    simpa [hinit] using hout.resolve_left (not_not_intro hkind)
  · intro hout
    by_cases hkind : loop.node.kind = .loop
    · refine Or.inr fun i hi => ?_
      obtain ⟨d, hd, rfl⟩ := hroot i hi
      simpa using (hwithin d hd).mpr (hout hkind d hd hi)
    · exact Or.inl hkind

theorem exists_loop_of_mem (h : Laid 0 0 t) (hfirst : first ∈ t.places) {n : Node}
    (hn : n ∈ Locals.enclosingLoops first) :
    ∃ loop ∈ t.places, loop.node = n ∧ loop.LoopsAround first := by
  obtain ⟨hn, hkind⟩ := List.mem_filter.mp hn
  rcases ancestor_cases hfirst n (List.takeWhile_subset _ hn) with hnil | ⟨loop, hloop, rfl, hin⟩
  · cases hnil
  refine ⟨loop, hloop, rfl, hkind, hin, fun q hq hfq => ?_⟩
  -- a function in between would end the search for loops before it comes to this one
  by_contra hfunction
  obtain ⟨upper, hupper, hbelow⟩ := exists_upper hfq
  have hmem : loop.node ∈ upper := by
    rw [hupper, Place.below, List.takeWhile_append,
      List.takeWhile_cons_of_neg (by simpa using hfunction)] at hn
    split at hn
    · simpa using hn
    · exact List.takeWhile_subset _ hn
  have := laid_bounds (laid_children h (inner_subset hloop q hq)).1 (hbelow _ hmem)
  have := inner_bounds h hloop hq
  omega

namespace Locals

theorem loops_suffix_foldl {s : Locals} (hseen : s.seen = true) (es : List Event) :
    (es.foldl step s).loops <:+ s.loops := by
  induction es generalizing s with
  | nil => exact List.suffix_refl _
  | cons e es ih =>
    have hstep : (s.step e).seen = true ∧ (s.step e).loops <:+ s.loops := by
      cases hk : e.kind with
      | enter => simp [step, hk, hseen]
      | leave =>
        simp only [step, hk]
        split
        next n outer hloops =>
          split
          · exact ⟨(reenter_loops s e.place).trans hseen, hloops ▸ List.suffix_cons n outer⟩
          · exact ⟨hseen, List.suffix_refl _⟩
        next => exact ⟨hseen, List.suffix_refl _⟩
      | name a =>
        simp only [step, hk]
        obtain ⟨hseen', hloops⟩ := count_loops s e.phase a e.place
        exact ⟨hseen'.trans hseen, hloops ▸ List.suffix_refl _⟩
      | call | catches => simp [step, hk, hseen]
    exact (ih hstep.1).trans hstep.2

theorem loops_suffix {events : List Event} {n : Node} {outer : List Node}
    (h : (ofEvents events).loops = n :: outer) :
    ∃ first, Event.firstSelected? events = some first ∧ n :: outer <:+ enclosingLoops first := by
  have hunseen : Unseen {} := ⟨rfl, rfl⟩
  cases hfirst : Event.firstSelected? events with
  | none =>
    rw [Event.firstSelected?, Option.map_eq_none_iff, List.find?_eq_none] at hfirst
    have hnil := (hunseen.foldl fun e he hk hphase => hfirst e he (decide_eq_true ⟨hk, hphase⟩)).2
    rw [ofEvents, hnil] at h
    cases h
  | some first =>
    obtain ⟨xs, d, ys, rfl, ⟨hk, hphase⟩, rfl, hxs⟩ := Event.firstSelected?_eq_some.mp hfirst
    have hseen := (hunseen.foldl fun e he hk hphase => hxs e he ⟨hk, hphase⟩).1
    have hstep : ((xs.foldl step {}).step d).seen = true ∧
        ((xs.foldl step {}).step d).loops = enclosingLoops d.place := by
      simp [step, hk, hphase, hseen]
    refine ⟨d.place, rfl, ?_⟩
    rw [← h, ofEvents, List.foldl_append, List.foldl_cons, ← hstep.2]
    exact loops_suffix_foldl hstep.1 ys

end Locals

namespace Trace

variable {sel : Extent} {m : Place} {a b : Nat} {s : Trace} {xs ys : List Event} {e : Event}

theorem Located.pairwise_leave (h : Laid 0 0 t) (hm : m ∈ t.places) (hl : Located sel m a b s) :
    s.events.toList.Pairwise fun d e => d.kind = .leave → d.place ∈ m.inner →
      e.place ∉ d.place.inner ∧ (e.kind = .leave → e.place ≠ d.place) := by
  apply hl.pairwise_events h hm
  · exact (Event.pairwise_leave (laid_children h hm).1).imp fun hde hk _ => hde hk
  · exact fun d e _ houtside _ hin => absurd hin houtside
  · exact fun d e _ houtside _ hin =>
      ⟨fun hin' => houtside (inner_trans hin hin'), fun _ heq => houtside (heq ▸ hin)⟩

theorem Located.id_of_firstSelected? (h : Laid 0 0 t) (hm : m ∈ t.places) (hl : Located sel m a b s)
    (hfirst : Event.firstSelected? s.events.toList = some first) :
    first ∈ m.inner ∧ first.node.id = a ∧ a < b := by
  obtain ⟨xs, d, ys, hsplit, hd, rfl, hxs⟩ := Event.firstSelected?_eq_some.mp hfirst
  obtain ⟨hin, hle, hlt⟩ := hl.id_of_entersSelected (by rw [hsplit]; simp) hd
  rw [Event.node] at hle hlt
  refine ⟨hin, Nat.le_antisymm (Nat.not_lt.mp fun hgap => ?_) hle, by omega⟩
  -- the place with the first of these numbers would be entered earlier
  have hlaid := (laid_children h hm).1
  have hbounds := laid_bounds hlaid (node_mem_of_mem_placesBelow hin)
  have hlater := hl.later
  obtain ⟨k, hk, hid⟩ := exists_id hlaid (i := a) (by omega) (by omega)
  obtain ⟨p, hp, rfl⟩ := exists_place_of_mem m.below hk
  obtain ⟨e, he, henter, rfl⟩ := Event.exists_enter (Phase.among a b) 0 hp
  have hsel : e.EntersSelected :=
    ⟨henter, (Event.place_of_mem_stream he).1.trans
      (Phase.among_eq_selected_iff.mpr ⟨by omega, by omega⟩)⟩
  have hmem := hl.stream_subset e he
  rw [hsplit] at hmem
  rcases List.mem_append.mp hmem with hmem | hmem
  · exact hxs e hmem hsel
  · rcases List.mem_cons.mp hmem with rfl | hmem
    · omega
    · have := Event.rel_of_split (hl.pairwise_enters h hm) hsplit e hmem hd.1 henter hin hp
      rw [Event.node, Event.node] at this
      omega

theorem Located.mem_inner_of_loopsAround (h : Laid 0 0 t) (hm : m ∈ t.places)
    (hl : Located sel m a b s) (hfirst : first ∈ m.inner) (hloop : loop ∈ t.places)
    (haround : loop.LoopsAround first) : loop ∈ m.inner := by
  obtain ⟨hkind, hin, hbetween⟩ := haround
  have hfunction := hl.isFunction
  have hlt := laid_lt h (inner_subset hm first hfirst)
  have hmrange := inner_bounds h hm hfirst
  have hrange := inner_bounds h hloop hin
  rcases Nat.lt_trichotomy loop.node.id m.node.id with hid | hid | hid
  · have hmin := (inner_or_beyond h hloop hm hid).resolve_right (by omega)
    rw [hbetween m hmin hfirst] at hfunction
    cases hfunction
  · rw [place_unique h hloop hm hid] at hkind
    rw [Kind.isFunction_of_isLoop hkind] at hfunction
    cases hfunction
  · exact (inner_or_beyond h hm hloop hid).resolve_right (by omega)

/-- Before a loop ahead of the selection is left, all that stands in it is recorded, and nothing of
it is later. -/
theorem Located.events_until_leave (h : Laid 0 0 t) (hm : m ∈ t.places) (hl : Located sel m a b s)
    (hloop : loop ∈ m.inner) (hkind : loop.node.kind.isLoop = true) (hahead : loop.node.id < a)
    (hsplit : s.events.toList = xs ++ e :: ys) (hleave : e.kind = .leave)
    (hplace : e.place = loop) :
    ∃ es depth, xs = es ++ Event.stream (Phase.among a b) depth loop.below loop.children ∧
      (∀ x ∈ es, x.phase.Early ∧
      (x.kind = .enter ∧ x.place = loop ∨ x.node.start < loop.node.start)) ∧
      ∀ x ∈ ys, x.place ∉ loop.inner := by
  obtain ⟨es, depth, nested, rest, hevents, hes⟩ := hl.exists_events_of_loop h hm hloop hkind hahead
  have hbehind := fun x hx =>
    Event.rel_of_split (hl.pairwise_leave h hm) hsplit x hx hleave (hplace ▸ hloop)
  rw [hplace] at hbehind
  refine ⟨es, depth, ?_, hes, fun x hx => (hbehind x hx).1⟩
  -- the loop is left only once
  rcases List.append_eq_append_iff.mp (hevents.symm.trans hsplit) with ⟨c, hxs, hc⟩ | ⟨c, hxs, hc⟩
  · cases c with
    | nil => rw [hxs, List.append_nil]
    | cons d c =>
      obtain ⟨rfl, rfl⟩ := List.cons.inj hc
      have hleft := Event.rel_of_split (hl.pairwise_leave h hm) hevents e (by simp) rfl hloop
      exact absurd hplace (hleft.2 hleave)
  · cases c with
    | nil => rw [hxs, List.append_nil]
    | cons d c =>
      obtain ⟨rfl, rfl⟩ := List.cons.inj hc
      exact absurd rfl ((hbehind _ (List.mem_append_right c List.mem_cons_self)).2 rfl)

end Trace

/-- What has been collected from the events `xs` when a loop around the first selected place is
left. -/
structure Locals.AtLeave (events xs : List Event) (loop : Place) : Prop where
  loops : (ofEvents xs).loops = loop.node :: loopsOn loop.ancestors
  repeated : (ofEvents xs).preceding.filter (repeats loop) = events.filterMap (Event.repeated? loop)
  /-- The variables that have been written behind the selection are those that are written there in
  the loop. -/
  written : ∀ v, v ∈ (ofEvents xs).followingWrites ↔ ∃ e ∈ events, e.Accesses .after ⟨v, .write⟩ ∧
    e.place ∈ loop.inner

namespace Trace

open Locals

variable {sel : Extent} {m : Place} {a b : Nat} {s : Trace} {xs ys : List Event} {e : Event}

theorem repeated_until_leave (h : Laid 0 0 t) (hloop : loop ∈ t.places)
    (hplaces : ∀ x ∈ xs, x.place ∈ t.places)
    (hnames : ∀ x ∈ xs, ∀ access, x.kind = .name access → x.place ≠ loop) (hleave : e.kind = .leave)
    (hbehind : ∀ x ∈ ys, x.place ∉ loop.inner) :
    (ofEvents xs).preceding.filter (repeats loop) = (xs ++ e :: ys).filterMap
      (Event.repeated? loop) := by
  have hlater : (e :: ys).filterMap (Event.repeated? loop) = [] := by
    refine List.filterMap_eq_nil_iff.mpr fun x hx =>
      Option.eq_none_iff_forall_ne_some.mpr fun a ha => ?_
    obtain ⟨⟨-, hk⟩, -, hround⟩ := Event.repeated?_eq_some.mp ha
    rcases List.mem_cons.mp hx with rfl | hx
    · rw [hleave] at hk
      cases hk
    · exact hbehind x hx hround.1
  rw [ofEvents, preceding_foldl, List.nil_append, List.filterMap_append, hlater, List.append_nil]
  refine (List.filter_congr fun a ha => ?_).trans List.filter_filterMap
  obtain ⟨x, hx, hpre⟩ := List.mem_filterMap.mp ha
  obtain ⟨-, hk, hat⟩ := Event.preceding?_eq_some.mp hpre
  rw [Bool.eq_iff_iff, decide_eq_true_eq]
  exact repeats_iff_inRounds h hloop (hat ▸ hplaces x hx) (hat ▸ hnames x hx _ hk)

theorem Located.atLeave (h : Laid 0 0 t) (hm : m ∈ t.places) (hl : Located sel m a b s)
    (hplaces : ∀ e ∈ s.events.toList, e.place ∈ t.places)
    (hfirst : Event.firstSelected? s.events.toList = some first) (haround : loop.LoopsAround first)
    (hsplit : s.events.toList = xs ++ e :: ys) (hleave : e.kind = .leave)
    (hplace : e.place = loop) :
    AtLeave s.events.toList xs loop := by
  obtain ⟨hfirstin, hid, hlt⟩ := hl.id_of_firstSelected? h hm hfirst
  have hloop : loop ∈ t.places := hplace ▸ hplaces e (by rw [hsplit]; simp)
  have hloopin := hl.mem_inner_of_loopsAround h hm hfirstin hloop haround
  obtain ⟨hkind, hin, hbetween⟩ := haround
  have hlaid := (laid_children h hloop).1
  have hbounds := laid_bounds hlaid (node_mem_of_mem_placesBelow hin)
  obtain ⟨es, depth, hxs, hes, hbehind⟩ :=
    hl.events_until_leave h hm hloopin hkind (by omega) hsplit hleave hplace
  have hround : ∀ x ∈ Event.stream (Phase.among a b) depth loop.below loop.children,
    x.place ∈ loop.inner :=
    fun x hx => (Event.place_of_mem_stream hx).2
  refine ⟨?_, ?_, fun v => ?_⟩
  · rw [hxs]
    refine loops_of_loop h hloop hkind (by omega) (by omega) (fun n _ hn => ?_)
      (Phase.among_eq_selected_iff.mpr ⟨Nat.le_refl a, hlt⟩)
      (fun p hp hlow hhigh => hbetween p hp ?_)
      (fun x hx _ => (hes x hx).1.ne_selected) depth
    · rw [Phase.among_eq_before_iff.mpr hn]
      decide
    · obtain ⟨k, hk, hkid⟩ := exists_id (laid_children hlaid hp).1 (i := a) (by omega) (by omega)
      obtain ⟨q, hq, rfl⟩ := exists_place_of_mem p.below hk
      rw [← place_unique hlaid (inner_subset hp q hq) hin (hkid.trans hid.symm)]
      exact hq
  · rw [hsplit]
    refine repeated_until_leave h hloop (fun x hx => hplaces x (by rw [hsplit]; simp [hx])) ?_
      hleave hbehind
    rintro x hx access hk rfl
    rw [hxs] at hx
    rcases List.mem_append.mp hx with hx | hx
    · rcases (hes x hx).2 with ⟨henter, -⟩ | hstart
      · rw [henter] at hk
        cases hk
      · exact Int.lt_irrefl _ hstart
    · exact ne_of_mem_inner h hloop (hround x hx) rfl
  · rw [ofEvents, (mem_collected_foldl v xs {}).2.2, or_iff_right List.not_mem_nil, hsplit]
    constructor
    · rintro ⟨x, hx, haccess⟩
      refine ⟨x, by simp [hx], haccess, ?_⟩
      rw [hxs] at hx
      rcases List.mem_append.mp hx with hx | hx
      · rcases (hes x hx).1 with hphase | hphase <;> rw [haccess.1] at hphase <;> cases hphase
      · exact hround x hx
    · rintro ⟨x, hx, haccess, hxin⟩
      rcases List.mem_append.mp hx with hx | hx
      · exact ⟨x, hx, haccess⟩
      · rcases List.mem_cons.mp hx with rfl | hx
        · rw [hplace] at hxin
          exact absurd rfl (ne_of_mem_inner h hloop hxin)
        · exact absurd hxin (hbehind x hx)

theorem Located.reenters_iff (h : Laid 0 0 t) (hm : m ∈ t.places) (hl : Located sel m a b s)
    (hplaces : ∀ e ∈ s.events.toList, e.place ∈ t.places) (hsplit : s.events.toList = xs ++ e :: ys)
    (hleave : e.kind = .leave) :
    (∃ n outer, (ofEvents xs).loops = n :: outer ∧ e.node.id = n.id) ↔
      ∃ first, Event.firstSelected? s.events.toList = some first ∧ e.place.LoopsAround first := by
  constructor
  · rintro ⟨n, outer, hloops, hid⟩
    obtain ⟨first, hfirst, hsuffix⟩ := loops_suffix hloops
    have hfirst' : Event.firstSelected? s.events.toList = some first := by
      rw [hsplit]
      exact Event.firstSelected?_append hfirst _
    obtain ⟨hfirstin, -⟩ := hl.id_of_firstSelected? h hm hfirst'
    obtain ⟨loop, hloop, rfl, haround⟩ := exists_loop_of_mem h (inner_subset hm first hfirstin)
      (hsuffix.subset List.mem_cons_self)
    rw [place_unique h (hplaces e (by rw [hsplit]; simp)) hloop hid]
    exact ⟨first, hfirst', haround⟩
  · rintro ⟨first, hfirst, haround⟩
    exact ⟨_, _, (hl.atLeave h hm hplaces hfirst haround hsplit hleave rfl).loops, rfl⟩

end Trace

end Extraction
