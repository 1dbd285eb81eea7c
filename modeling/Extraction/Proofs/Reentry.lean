import Extraction.Proofs.Accesses
import Extraction.Proofs.Continuation
import Extraction.Proofs.Topmost

/-!
# Loops around a selection

The loops around a selection are kept until they are left, innermost first.  When one is left, the
accesses that are repeated are those of the parts that the loop runs in every round.
-/

namespace Extraction

open SyntaxTree

theorem Kind.isFunction_of_isLoop {k : Kind} (h : k.isLoop = true) : k.isFunction = false := by
  cases k <;> first | rfl | cases h

namespace Locals

variable {s : Locals} {e : Event} {phase : Nat → Phase} {depth : Int} {path : List Node}
  {f : SyntaxTree} {offset : Int} {id : Nat}

/-- The loops among the nodes above a place, up to the nearest function. -/
def loopsOn (path : List Node) : List Node :=
  (path.takeWhile fun n => !n.kind.isFunction).filter fun n => n.kind.isLoop

theorem loopsOn_cons {n : Node} (h : n.kind.isFunction = false) :
    loopsOn (n :: path) = if n.kind.isLoop then n :: loopsOn path else loopsOn path := by
  simp only [loopsOn, List.takeWhile_cons, h, Bool.not_false, if_true, List.filter_cons]

theorem mem_of_mem_loopsOn {n : Node} (h : n ∈ loopsOn path) : n ∈ path :=
  List.takeWhile_subset _ (List.mem_filter.mp h).1

theorem count_loops (s : Locals) (x : Phase) (a : Access) (p : Place) :
    (s.count x a p).seen = s.seen ∧ (s.count x a p).loops = s.loops := by
  obtain ⟨vars, hnote⟩ := note_eq s a.binding
  unfold count
  rw [hnote]
  cases x with
  | undefined | before => exact ⟨rfl, rfl⟩
  | selected => cases a.mode <;> exact ⟨rfl, rfl⟩
  | after =>
    cases a.mode with
    | write => exact ⟨rfl, rfl⟩
    | read =>
      simp only
      split <;> exact ⟨rfl, rfl⟩

theorem reenter_loops (s : Locals) (p : Place) : (s.reenter p).seen = s.seen := by
  obtain ⟨vars, reads, heq, -⟩ :=
    foldl_replay_eq (s.preceding.filter (repeats p)) (s, s.followingWrites)
  rw [reenter, heq]

def Unseen (s : Locals) : Prop :=
  s.seen = false ∧ s.loops = []

theorem Unseen.foldl (h : s.Unseen) {es : List Event}
    (hes : ∀ e ∈ es, e.kind = .enter → e.phase ≠ .selected) :
    (es.foldl step s).Unseen := by
  induction es generalizing s with
  | nil => exact h
  | cons e es ih =>
    refine ih ?_ fun e he => hes e (List.mem_cons_of_mem _ he)
    cases hk : e.kind with
    | enter =>
      simp only [step, hk]
      rw [if_neg fun hsel => hes e List.mem_cons_self hk hsel.1]
      exact h
    | leave =>
      simp only [step, hk, h.2]
      exact h
    | name a =>
      simp only [step, hk]
      obtain ⟨hseen, hloops⟩ := count_loops s e.phase a e.place
      exact ⟨hseen.trans h.1, hloops.trans h.2⟩
    | call | catches =>
      simp only [step, hk]
      exact h

theorem loops_foldl (hseen : s.seen = true) {es : List Event}
    (hes : ∀ e ∈ es, e.kind = .leave → ∀ n ∈ s.loops, e.node.id ≠ n.id) :
    (es.foldl step s).seen = true ∧ (es.foldl step s).loops = s.loops := by
  induction es generalizing s with
  | nil => exact ⟨hseen, rfl⟩
  | cons e es ih =>
    have hstep : (s.step e).seen = true ∧ (s.step e).loops = s.loops := by
      cases hk : e.kind with
      | enter => simp [step, hk, hseen]
      | leave =>
        simp only [step, hk]
        split
        next loop outer hloops =>
          rw [if_neg (hes e List.mem_cons_self hk loop (by rw [hloops]; simp))]
          exact ⟨hseen, rfl⟩
        next => exact ⟨hseen, rfl⟩
      | name a =>
        simp only [step, hk]
        obtain ⟨hseen', hloops⟩ := count_loops s e.phase a e.place
        exact ⟨hseen'.trans hseen, hloops⟩
      | call | catches => simp [step, hk, hseen]
    obtain ⟨hs, hl⟩ := ih hstep.1 fun e he hk n hn => hes e (List.mem_cons_of_mem _ he) hk n
      (hstep.2 ▸ hn)
    exact ⟨hs, hl.trans hstep.2⟩

theorem step_leave {n : Node} {outer : List Node} (hk : e.kind = .leave)
    (hloops : s.loops = n :: outer) (hid : e.node.id = n.id) :
    s.step e = { s.reenter e.place with loops := outer } := by
  simp only [step, hk, hloops, hid, if_true]

theorem followingReads_leave {n : Node} {outer : List Node} (hk : e.kind = .leave)
    (hloops : s.loops = n :: outer) (hid : e.node.id = n.id) :
    (s.step e).followingReads = (s.reenter e.place).followingReads := by
  rw [step_leave hk hloops hid]

/-- A read that precedes the selection counts when the loop is left, unless a write comes before it
or after the selection. -/
theorem mem_followingReads_reenter {v : Binding} {p : Place} {a : PrecedingAccess}
    {l r : List PrecedingAccess} (hpreceding : s.preceding = l ++ a :: r)
    (ha : a.toAccess = ⟨v, .read⟩) (hrepeats : repeats p a = true) (hfree : v ∉ s.followingWrites)
    (hl : ∀ x ∈ l, repeats p x = true → x.toAccess ≠ ⟨v, .write⟩) :
    v ∈ (s.reenter p).followingReads := by
  rw [reenter, hpreceding, List.filter_append, List.filter_cons_of_pos hrepeats]
  exact mem_followingReads_replay ha hfree fun x hx =>
    hl x (List.mem_filter.mp hx).1 (List.mem_filter.mp hx).2

theorem loops_leaving (phase : Nat → Phase) (nested : Bool) {p : Place} (hseen : s.seen = true)
    (hloops : s.loops = loopsOn p.below) (hfunction : p.node.kind.isFunction = false)
    (habove : ∀ n ∈ p.ancestors, n.id < p.node.id) :
    ((Event.leaving phase nested p).foldl step s).seen = true ∧
      ((Event.leaving phase nested p).foldl step s).loops = loopsOn p.ancestors := by
  obtain ⟨es, hes, hkinds⟩ := Event.exists_leaving_eq phase nested p
  rw [hes, List.foldl_append]
  obtain ⟨hseen', hloops'⟩ := loops_foldl hseen fun e he hk => absurd hk (hkinds e he).2
  rw [hloops, Place.below, loopsOn_cons hfunction] at hloops'
  split at hloops'
  · rw [List.foldl_cons, List.foldl_nil, step_leave rfl hloops' rfl]
    exact ⟨(reenter_loops _ _).trans hseen', rfl⟩
  · rw [← hloops']
    refine loops_foldl hseen' fun e he _ n hn => ?_
    rw [List.mem_singleton.mp he]
    have := habove n (mem_of_mem_loopsOn (hloops' ▸ hn))
    exact Nat.ne_of_gt this

theorem loops_beyond (hpath : ∀ n ∈ path, n.id < id) (hseen : s.seen = true)
    (hloops : s.loops = loopsOn path) {es : List Event} (hes : ∀ e ∈ es, id ≤ e.node.id) :
    (es.foldl step s).seen = true ∧ (es.foldl step s).loops = loopsOn path := by
  rw [← hloops]
  refine loops_foldl hseen fun e he _ k hk => ?_
  have := hpath k (mem_of_mem_loopsOn (hloops ▸ hk))
  have := hes e he
  omega

variable (depth) in
theorem loops_first {n : Node} {children rest : SyntaxTree}
    (hlaid : Laid offset id (.cons n children rest)) (hfirst : phase n.id = .selected)
    (hpath : ∀ n ∈ path, n.id < id) (hs : s.Unseen) :
    ((Event.stream phase depth path (.cons n children rest)).foldl step s).seen = true ∧
      ((Event.stream phase depth path (.cons n children rest)).foldl step s).loops =
      loopsOn path := by
  have hids : ∀ e ∈ Event.stream phase depth path (.cons n children rest), id ≤ e.node.id :=
    fun e he =>
    (laid_bounds hlaid (node_mem_of_mem_placesBelow (Event.place_of_mem_stream he).2)).2.2.2.1
  obtain ⟨es, hes⟩ : ∃ es, Event.stream phase depth path (.cons n children rest) =
      ⟨.enter, phase n.id, decide (0 < depth), ⟨n, children, path⟩⟩ :: es := ⟨_, rfl⟩
  rw [hes] at hids ⊢
  rw [List.foldl_cons]
  refine loops_beyond hpath ?_ ?_ fun e he => hids e (List.mem_cons_of_mem _ he)
  · simp [step, hfirst, hs.1]
  · simp only [step, hfirst, hs.1, and_self, if_true]
    rfl

variable (phase depth) in
theorem loops_stream (hlaid : Laid offset id f) {first : Nat} (hle : id ≤ first)
    (hlt : first < id + f.size) (hbefore : ∀ n ∈ f.toList, n.id < first → phase n.id ≠ .selected)
    (hfirst : phase first = .selected)
      (hfunction : ∀ p ∈ placesBelow path f, p.node.id < first →
      first < p.node.id + 1 + p.children.size → p.node.kind.isFunction = false)
    (hpath : ∀ n ∈ path, n.id < id) (hs : s.Unseen) :
    ((Event.stream phase depth path f).foldl step s).seen = true ∧
      ((Event.stream phase depth path f).foldl step s).loops = loopsOn path := by
  induction f generalizing path depth offset id s with
  | nil =>
    simp only [Forest.size] at hlt
    omega
  | cons n children rest ihc ihr =>
    obtain ⟨hstart, hid, hstop, hc, hr⟩ := hlaid
    simp only [Forest.size] at hlt
    simp only [placesBelow, List.mem_cons, List.mem_append] at hfunction
    simp only [Forest.toList, List.mem_cons, List.mem_append] at hbefore
    rcases Nat.lt_or_ge id first with hlow | hhigh
    · rcases Nat.lt_or_ge first (id + 1 + children.size) with hin | hbeyond
      · -- the selection is below the root
        have hentering : ((Event.entering (phase n.id) (decide (0 < depth))
          ⟨n, children, path⟩).foldl step s).Unseen :=
          hs.foldl fun e he _ => by
            rw [(Trace.place_of_mem_entering he).1]; exact hbefore n (Or.inl rfl) (by omega)
        rw [Event.stream, List.foldl_append, List.foldl_append, List.foldl_append]
        obtain ⟨hseen, hloops⟩ := ihc _ hc (by omega) (by omega)
          (fun k hk => hbefore k (Or.inr (Or.inl hk)))
          (fun p hp => hfunction p (Or.inr (Or.inl hp)))
          (List.forall_mem_cons.mpr ⟨by omega, fun k hk => by have := hpath k hk; omega⟩) hentering
        obtain ⟨hseen', hloops'⟩ :=
          loops_leaving phase (decide (0 < depth)) (p := ⟨n, children, path⟩) hseen hloops
          (hfunction _ (Or.inl rfl) (by simp only; omega) (by simp only; omega))
          (fun k hk => by have := hpath k hk; simp only; omega)
        refine loops_beyond hpath hseen' hloops' fun e he => ?_
        have := laid_bounds hr (node_mem_of_mem_placesBelow (Event.place_of_mem_stream he).2)
        exact Nat.le_trans (by omega) this.2.2.2.1
      · -- the selection is behind the first tree
        have htree : Laid offset id (.cons n children .nil) := ⟨hstart, hid, hstop, hc, trivial⟩
        rw [show Forest.cons n children rest = Forest.cons n children .nil ++ rest from rfl,
          Event.stream_append, List.foldl_append]
        refine ihr _ hr (by omega) (by omega) (fun k hk => hbefore k (Or.inr (Or.inr hk)))
          (fun p hp => hfunction p (Or.inr (Or.inr hp))) (fun k hk => by have := hpath k hk; omega)
          (hs.foldl fun e he _ => ?_)
        obtain ⟨hphase, hplace⟩ := Event.place_of_mem_stream he
        have := laid_bounds htree (node_mem_of_mem_placesBelow hplace)
        simp only [Forest.size] at this
        have hmem := node_mem_of_mem_placesBelow hplace
        simp only [Forest.toList, List.append_nil, List.mem_cons] at hmem
        rw [hphase]
        exact hbefore _ (hmem.imp_right Or.inl) (by omega)
    · obtain rfl : first = n.id := by omega
      exact loops_first depth ⟨hstart, hid, hstop, hc, hr⟩ hfirst hpath hs

end Locals

variable {t : SyntaxTree} {p c d loop : Place}

theorem Locals.loops_of_loop (h : Laid 0 0 t) (hloop : loop ∈ t.places)
    (hkind : loop.node.kind.isLoop = true) {phase : Nat → Phase} {first : Nat}
    (hlow : loop.node.id < first) (hhigh : first < loop.node.id + 1 + loop.children.size)
    (hbefore : ∀ n ∈ loop.children.toList, n.id < first → phase n.id ≠ .selected)
    (hfirst : phase first = .selected)
      (hfunction : ∀ p ∈ loop.inner, p.node.id < first → first < p.node.id + 1 + p.children.size →
      p.node.kind.isFunction = false)
    {es : List Event} (hes : ∀ e ∈ es, e.kind = .enter → e.phase ≠ .selected) (depth : Int) :
    (ofEvents (es ++ Event.stream phase depth loop.below loop.children)).loops =
      loop.node :: loopsOn loop.ancestors := by
  have hunseen : Unseen {} := ⟨rfl, rfl⟩
  have hpath : ∀ n ∈ loop.below, n.id < loop.node.id + 1 := by
    refine List.forall_mem_cons.mpr ⟨Nat.lt_succ_self _, fun n hn => ?_⟩
    have := ancestor_lt h (List.forall_mem_nil _) hloop n hn
    omega
  obtain ⟨-, hloops⟩ := loops_stream phase depth (laid_children h hloop).1 (by omega)
    (by omega) hbefore hfirst hfunction hpath (hunseen.foldl hes)
  rw [ofEvents, List.foldl_append, hloops, Place.below,
    loopsOn_cons (Kind.isFunction_of_isLoop hkind), if_pos hkind]

/-! ### What a loop repeats -/

theorem isWithin_iff (h : Laid 0 0 t) (hp : p ∈ t.places) (hd : d ∈ t.places) :
    p.isWithin d.node.id = true ↔ p = d ∨ p ∈ d.inner := by
  simp only [Place.isWithin, Bool.or_eq_true, beq_iff_eq, List.any_eq_true]
  constructor
  · rintro (hid | ⟨n, hn, hid⟩)
    · exact Or.inl (place_unique h hp hd hid)
    · rcases ancestor_cases hp n hn with hnil | ⟨r, hr, rfl, hpr⟩
      · cases hnil
      · rw [← place_unique h hr hd hid]
        exact Or.inr hpr
  · rintro (rfl | hin)
    · exact Or.inl rfl
    · exact Or.inr ⟨d.node, mem_ancestors hin, rfl⟩

theorem Place.partOf_init (hfits : Fits loop.node loop.children)
    (hloop : loop.node.kind.isLoop = true) (hd : d ∈ rootPlaces loop.below loop.children) :
    loop.partOf d.node = .init ↔ loop.node.kind = .loop ∧ loop.child? .init = some d.node := by
  have hroot : d.node ∈ loop.children.roots :=
    map_node_rootPlaces loop.below loop.children ▸ List.mem_map_of_mem hd
  have hpart : loop.partOf d.node = .init ↔ d.node.role = .init := by
    cases hk : loop.node.kind <;> rw [hk] at hloop <;> try cases hloop
    all_goals
      simp only [partOf, hk]
      split <;> simp_all
  rw [hpart]
  constructor
  · intro hinit
    cases hk : loop.node.kind <;> rw [hk] at hloop <;> try cases hloop
    · rw [Fits, hk] at hfits
      refine ⟨rfl, ?_⟩
      rw [Place.child?, ← hinit]
      exact find?_eq_some_of_nodup (hfits.nodup (by decide)) hroot
    · rw [Fits, hk] at hfits
      have := hfits.subset (role_mem hd)
      rw [hinit] at this
      simp at this
  · rintro ⟨-, hchild⟩
    simpa using List.find?_some hchild

theorem root_unique (h : Laid 0 0 t) (hloop : loop ∈ t.places)
    (hc : c ∈ rootPlaces loop.below loop.children) (hd : d ∈ rootPlaces loop.below loop.children)
    (hpc : p = c ∨ p ∈ c.inner) (hpd : p = d ∨ p ∈ d.inner) : c = d := by
  have hcmem := inner_subset hloop c (child_mem_inner hc)
  have hdmem := inner_subset hloop d (child_mem_inner hd)
  have hrange : ∀ {e : Place}, e ∈ t.places → p = e ∨ p ∈ e.inner →
      e.node.start ≤ p.node.start ∧ p.node.stop ≤ e.node.stop ∧ p.node.start < p.node.stop := by
    rintro e he (rfl | hin)
    · exact ⟨Int.le_refl _, Int.le_refl _, Trace.laid_lt h he⟩
    · have := inner_bounds h he hin
      exact ⟨by omega, by omega, Trace.laid_lt h (inner_subset he p hin)⟩
  have hcrange := hrange hcmem hpc
  have hdrange := hrange hdmem hpd
  rcases Nat.lt_trichotomy c.node.id d.node.id with hlt | heq | hgt
  · have := stop_le_start h hloop hc hd hlt
    omega
  · exact place_unique h hcmem hdmem heq
  · have := stop_le_start h hloop hd hc hgt
    omega

theorem start_within_iff (h : Laid 0 0 t) (hloop : loop ∈ t.places) (hp : p ∈ t.places)
    (hne : p ≠ loop) :
    loop.node.start ≤ p.node.start ∧ p.node.start < loop.node.stop ↔ p ∈ loop.inner := by
  constructor
  · rintro ⟨hstart, hstop⟩
    rcases Nat.lt_trichotomy p.node.id loop.node.id with hlt | heq | hgt
    · have := start_lt_of_id_lt h hp hloop hlt
      omega
    · exact absurd (place_unique h hp hloop heq) hne
    · exact (inner_or_beyond h hloop hp hgt).resolve_right (by omega)
  · intro hin
    have := inner_bounds h hloop hin
    have := Trace.laid_lt h hp
    omega

/-- The accesses that are repeated are those in the parts that are run in every round. -/
theorem Locals.repeats_iff (h : Laid 0 0 t) (hloop : loop ∈ t.places)
    (hkind : loop.node.kind.isLoop = true) (hfits : Fits loop.node loop.children)
    {a : PrecedingAccess} (ha : a.place ∈ t.places) (hne : a.place ≠ loop) :
    repeats loop a = true ↔ loop.Repeats a.place := by
  -- the initialiser, if there is one, is the child that the access must not be in
  have hinit : ∀ d ∈ rootPlaces loop.below loop.children, a.place = d ∨ a.place ∈ d.inner →
      ((loop.node.kind == .loop && (loop.child? .init).any fun i => a.place.isWithin i.id) = true ↔
        loop.partOf d.node = .init) := by
    intro d hd had
    have hdmem := inner_subset hloop d (child_mem_inner hd)
    rw [Place.partOf_init hfits hkind hd, Bool.and_eq_true, beq_iff_eq]
    refine and_congr_right fun _ => ?_
    rw [Option.any_eq_true]
    constructor
    · rintro ⟨i, hi, hwithin⟩
      obtain ⟨d', hd', rfl⟩ : ∃ d' ∈ rootPlaces loop.below loop.children, d'.node = i := by
        have hroot := List.mem_of_find?_eq_some hi
        rwa [← map_node_rootPlaces loop.below loop.children, List.mem_map] at hroot
      have hdmem' := inner_subset hloop d' (child_mem_inner hd')
      rw [isWithin_iff h ha hdmem'] at hwithin
      rw [hi, root_unique h hloop hd hd' had hwithin]
    · intro hchild
      exact ⟨d.node, hchild, (isWithin_iff h ha hdmem).mpr had⟩
  rw [repeats, Bool.and_eq_true, Bool.and_eq_true, decide_eq_true_eq, decide_eq_true_eq,
    start_within_iff h hloop ha hne, Bool.not_eq_true']
  constructor
  · rintro ⟨hin, hnot⟩
    obtain ⟨d, hd, had⟩ := exists_root hin
    refine ⟨loop.partOf d.node, fun hpart => ?_, d, Place.mem_part.mpr ⟨hd, rfl⟩, had⟩
    rw [(hinit d hd had).mpr hpart] at hnot
    cases hnot
  · intro hrepeats
    refine ⟨hrepeats.inner, ?_⟩
    obtain ⟨x, hx, d, hd, had⟩ := hrepeats
    obtain ⟨hroot, hpart⟩ := Place.mem_part.mp hd
    rw [← Bool.not_eq_true, hinit d hroot had, hpart]
    exact hx

theorem Locals.repeats_of_isAt (h : Laid 0 0 t) (hloop : loop ∈ t.places)
    (hkind : loop.node.kind.isLoop = true) (hfits : Fits loop.node loop.children)
    {phase : Nat → Phase} {e : Event} {a : PrecedingAccess} {d : Place} (hd : d ∈ loop.inner)
    (hat : e.IsAt phase d) (hk : e.kind = .name a.toAccess) (hplace : e.place = a.place)
    (hrep : repeats loop a = true) : loop.Repeats d := by
  obtain ⟨-, -, hnear⟩ := hat.access hk
  rw [hplace] at hnear
  have hin : a.place ∈ loop.inner := by
    rcases hnear with heq | ⟨hchild, -⟩
    · exact heq ▸ hd
    · exact Trace.inner_trans hd (child_mem_inner hchild)
  rw [repeats_iff h hloop hkind hfits (inner_subset hloop _ hin) (ne_of_mem_inner h hloop hin)]
    at hrep
  rcases hnear with heq | ⟨hchild, -⟩
  · exact heq ▸ hrep
  · exact (hrep.parent h hloop (inner_subset hloop d hd) hchild).resolve_left fun hself =>
      ne_of_mem_inner h hloop hd hself.1

end Extraction
