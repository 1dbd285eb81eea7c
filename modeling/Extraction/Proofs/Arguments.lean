import Mathlib.Data.List.Induction
import Extraction.Proofs.Candidates
import Extraction.Proofs.Siblings

/-!
# Arguments of the extracted method

The arguments are the variables that some selected name reads and that are declared outside the
selection.  A name reads its variable unless it is the target of a plain assignment.

They stand in the order in which their variables first count.  An access in or behind the selection
counts when it is made.  An access ahead of the selection in the rounds of a loop around it counts
when the loop is left.  So the order is that of the first accesses in the selection if every such
loop holds all of the selection, as it does if the selection is legal.
-/

namespace Extraction

open SyntaxTree

namespace Event

variable {phase : Nat → Phase} {depth : Int} {path : List Node} {f : SyntaxTree}
  {offset : Int} {id : Nat}

def selected? (e : Event) : Option Binding :=
  match e.kind with
  | .name a => if e.phase = .selected then some a.binding else none
  | _ => none

/-- The event leaves a loop around the first selected place. -/
def EndsRound (events : List Event) (e : Event) : Prop :=
  e.kind = .leave ∧ ∃ first ∈ firstSelected? events, e.place.LoopsAround first

instance (events : List Event) (e : Event) : Decidable (e.EndsRound events) :=
  inferInstanceAs (Decidable (_ ∧ _))

/-- The variables that count with an event, in order. -/
def counted (events : List Event) (e : Event) : List Binding :=
  match e.kind with
  | .name a => if e.phase = .selected ∨ e.phase = .after then [a.binding] else []
  | .leave =>
    if e.EndsRound events then (events.filterMap (repeated? e.place)).map (·.binding) else []
  | _ => []

/-- With the event, variables may count that are not accessed in the selection. -/
def Late (events : List Event) (e : Event) : Prop :=
  e.phase = .after ∨ e.EndsRound events

instance (events : List Event) (e : Event) : Decidable (e.Late events) :=
  inferInstanceAs (Decidable (_ ∨ _))

theorem counted_of_not_late {events : List Event} {e : Event} (h : ¬ e.Late events) :
    e.counted events = e.selected?.toList := by
  obtain ⟨hphase, hends⟩ := not_or.mp h
  cases hk : e.kind with
  | name a => by_cases hsel : e.phase = .selected <;> simp [counted, selected?, hk, hsel, hphase]
  | leave => simp [counted, selected?, hk, hends]
  | enter | call | catches => simp [counted, selected?, hk]

/-- Every loop around the first selected place holds all selected places. -/
def HeldByLoops (t : SyntaxTree) (events : List Event) : Prop :=
  ∀ loop ∈ t.places, ∀ first ∈ firstSelected? events, loop.LoopsAround first →
    ∀ e ∈ events, e.EntersSelected → e.place ∈ loop.inner

theorem pairwise_read (h : Laid offset id f) :
    (stream phase depth path f).Pairwise fun d e => ∀ v, e.kind = .name ⟨v, .read⟩ →
      d.node.id ≤ e.node.id := by
  induction f generalizing path depth offset id with
  | nil => exact List.Pairwise.nil
  | cons n children rest ihc ihr =>
    obtain ⟨hstart, hid, hstop, hc, hr⟩ := h
    have hentering : ∀ {x nested}, ∀ d ∈ entering x nested ⟨n, children, path⟩, d.node.id = id := by
      intro x nested d hd
      rw [node, (Trace.place_of_mem_entering hd).2]
      exact hid
    have hleaving : ∀ {nested}, ∀ e ∈ leaving phase nested ⟨n, children, path⟩, ∀ v, e.kind ≠
        .name ⟨v, .read⟩ := by
      intro nested e he v hk
      cases (access_of_mem_leaving he hk).1
    have hbelow : ∀ p ∈ placesBelow (n :: path) children, id < p.node.id ∧
        p.node.id < id + 1 + children.size := by
      intro p hp
      have := laid_bounds hc (node_mem_of_mem_placesBelow hp)
      omega
    rw [stream]
    refine List.pairwise_append.mpr
      ⟨List.pairwise_append.mpr ⟨List.pairwise_append.mpr ⟨?_, ihc hc, ?_⟩, ?_, ?_⟩, ihr hr, ?_⟩
    · refine List.pairwise_of_forall_mem_list fun d hd e he _ _ => ?_
      rw [hentering d hd, hentering e he]
    · intro d hd e he _ _
      rw [hentering d hd]
      exact Nat.le_of_lt (hbelow _ (place_of_mem_stream he).2).1
    · exact List.pairwise_of_forall_mem_list fun _ _ e he v hk => absurd hk (hleaving e he v)
    · exact fun _ _ e he v hk => absurd hk (hleaving e he v)
    · intro d hd e he _ _
      have hrange := laid_bounds hr (node_mem_of_mem_placesBelow (place_of_mem_stream he).2)
      have hdlt : d.node.id < id + 1 + children.size := by
        simp only [List.mem_append] at hd
        rcases hd with (hd | hd) | hd
        · rw [hentering d hd]
          omega
        · exact (hbelow _ (place_of_mem_stream hd).2).2
        · rcases (Trace.place_of_mem_leaving hd).2 with heq | hchild
          · rw [node, heq]
            simp only
            omega
          · exact (hbelow _ (SyntaxTree.rootPlaces_subset _ _ _ hchild).1).2
      rw [node, node] at *
      omega

end Event

namespace Locals

variable {s : Locals} {l : List Binding}

/-! ### The order of the variables -/

theorem vars_note (h : s.vars = l.eraseDups) (b : Binding) :
    (s.note b).vars = (l ++ [b]).eraseDups := by
  rw [note, List.eraseDups_append, h]
  by_cases hb : b ∈ l <;> simp [hb, List.removeAll, List.eraseDups_cons, h]

theorem vars_foldl_replay {acc : Locals × List Binding} (h : acc.1.vars = l.eraseDups)
    (as : List PrecedingAccess) :
    (as.foldl replay acc).1.vars = (l ++ as.map (·.binding)).eraseDups := by
  induction as generalizing acc l with
  | nil => simpa using h
  | cons a as ih =>
    have hnote : (replay acc a).1.vars = (l ++ [a.binding]).eraseDups := by
      rw [← vars_note h]
      unfold replay
      simp only
      split
      · rfl
      · split <;> rfl
    rw [List.foldl_cons, ih hnote]
    simp

theorem vars_count (h : s.vars = l.eraseDups) (x : Phase) (a : Access) (p : Place) :
    (s.count x a p).vars = (l ++ if x = .selected ∨ x = .after then [a.binding]
      else []).eraseDups := by
  obtain ⟨b, mode⟩ := a
  cases x with
  | undefined | before => simpa [count] using h
  | selected => cases mode <;> simpa [count] using vars_note h b
  | after =>
    cases mode with
    | write => simpa [count] using vars_note h b
    | read =>
      simp only [count]
      split <;> simpa using vars_note h b

theorem filter_eraseDups_append {P : Binding → Bool} {xs ys : List Binding}
    (h : ∀ b ∈ ys, P b = true → b ∈ xs) :
    (xs ++ ys).eraseDups.filter P = xs.eraseDups.filter P := by
  have hnil : (ys.removeAll xs).eraseDups.filter P = [] := by
    refine List.filter_eq_nil_iff.mpr fun b hb hP => ?_
    obtain ⟨hby, hbx⟩ := List.mem_filter.mp (List.mem_eraseDups.mp hb)
    simp [h b hby hP] at hbx
  rw [List.eraseDups_append, List.filter_append, hnil, List.append_nil]

end Locals

def Place.IsPlainTarget (p : Place) : Prop :=
  p.node.role = .target ∧ ∃ q ∈ p.parent?, q.kind = .assign ∧ q.compound = false

theorem Place.reads_iff {p : Place} {v : Binding} :
    p.Reads v ↔ p.node.kind = .name ∧ p.node.binding = some v ∧ v.isVariable = true ∧
      ¬ p.IsPlainTarget := by
  have hmodes : AccessMode.read ∈ p.modes ↔ ¬ p.IsPlainTarget := by
    unfold modes IsPlainTarget
    cases p.parent? with
    | none => simp
    | some q =>
      by_cases htarget : q.kind = .assign ∧ p.node.role = .target
      · cases hc : q.compound <;> simp [htarget, hc]
      · have hread : AccessMode.read ∈ if q.kind = .incDec then [AccessMode.read, .write]
            else [.read] := by
          split <;> simp
        refine iff_of_true (by simpa [htarget] using hread) ?_
        rintro ⟨hrole, q, ⟨⟩, hassign, -⟩
        exact htarget ⟨hassign, hrole⟩
  rw [← hmodes, ← and_assoc (a := p.node.binding = some v), ← tracked?_eq_some]
  unfold Reads Accesses touches
  split
  next hk => simp [hk]
  next hk => simpa using fun h => absurd h hk

namespace Trace

open Locals

variable {t : SyntaxTree} {sel : Extent} {m : Place} {a b : Nat} {s : Trace} {v : Binding}

theorem Located.vars_eq (h : Laid 0 0 t) (hm : m ∈ t.places) (hl : Located sel m a b s)
    (hplaces : ∀ e ∈ s.events.toList, e.place ∈ t.places) {xs ys : List Event}
    (hsplit : s.events.toList = xs ++ ys) :
    (ofEvents xs).vars = (xs.flatMap (Event.counted s.events.toList)).eraseDups := by
  induction xs using List.reverseRecOn generalizing ys with
  | nil => rfl
  | append_singleton xs e ih =>
    rw [List.append_assoc, List.singleton_append] at hsplit
    have hvars := ih hsplit
    rw [List.flatMap_append, List.flatMap_singleton, ofEvents, List.foldl_concat]
    change (step (ofEvents xs) e).vars = _
    cases hk : e.kind with
    | enter =>
      simp only [step, hk, Event.counted, List.append_nil]
      split <;> exact hvars
    | name access =>
      simp only [step, hk, Event.counted]
      exact vars_count hvars e.phase access e.place
    | leave =>
      simp only [step, hk, Event.counted]
      by_cases hends : e.EndsRound s.events.toList
      · obtain ⟨first, hfirst, haround⟩ := hends.2
        have hat := hl.atLeave h hm hplaces hfirst haround hsplit hk rfl
        rw [if_pos hends, hat.loops]
        simp only [Event.node, if_true]
        rw [reenter, hat.repeated]
        exact vars_foldl_replay hvars _
      · have hstays := mt (hl.reenters_iff h hm hplaces hsplit hk).mp fun hreenters =>
          hends ⟨hk, hreenters⟩
        rw [if_neg hends, List.append_nil]
        split
        next n outer hloops =>
          rw [if_neg fun hid => hstays ⟨n, outer, hloops, hid⟩]
          exact hvars
        next => exact hvars
    | call | catches => simpa [step, hk, Event.counted] using hvars

theorem Located.exists_entersSelected (hl : Located sel m a b s) {e : Event}
    (he : e ∈ s.events.toList) (hphase : e.phase = .selected) :
    ∃ d ∈ s.events.toList, d.EntersSelected ∧ d.place = e.place := by
  obtain ⟨hamong, hplace⟩ := Event.place_of_mem_stream (hl.mem_stream he hphase)
  obtain ⟨d, hd, henter, heq⟩ := Event.exists_enter (Phase.among a b) 0 hplace
  refine ⟨d, hl.stream_subset d hd, ⟨henter, ?_⟩, heq⟩
  rw [(Event.place_of_mem_stream hd).1, heq, ← hamong]
  exact hphase

theorem Located.exists_selected_read_iff (h : Laid 0 0 t) (hm : m ∈ t.places)
    (hl : Located sel m a b s) :
    (∃ e ∈ s.events.toList, e.Accesses .selected ⟨v, .read⟩) ↔
      ∃ p ∈ t.places, (∃ e ∈ s.events.toList, e.EntersSelected ∧ e.place = p) ∧ p.Reads v := by
  have hlaid := (laid_children h hm).1
  constructor
  · rintro ⟨e, he, hphase, hk⟩
    obtain ⟨p, hp, nested, hat | hat⟩ := Event.exists_isAt (hl.mem_stream he hphase)
    · refine ⟨p, inner_subset hm p hp, ?_, Or.inl (Event.access_of_mem_entering hat hk)⟩
      rw [← (place_of_mem_entering hat).2]
      exact hl.exists_entersSelected he hphase
    · cases (Event.access_of_mem_leaving hat hk).1
  · rintro ⟨-, -, ⟨d, hd, hsel, rfl⟩, hreads⟩
    obtain ⟨hphase, hin⟩ := Event.place_of_mem_stream (hl.mem_stream hd hsel.2)
    obtain ⟨nested, hentering, -⟩ := Event.exists_mem_stream (Phase.among a b) 0 hlaid hin
    obtain ⟨more, hmore⟩ := Event.entering_of_read hreads (Phase.among a b d.place.node.id) nested
    have hread := hentering _ (hmore ▸ List.mem_cons_of_mem _ List.mem_cons_self)
    exact ⟨_, hl.stream_subset _ hread, hphase.symm.trans hsel.2, rfl⟩

theorem Located.pairwise_read (h : Laid 0 0 t) (hm : m ∈ t.places) (hl : Located sel m a b s) :
    s.events.toList.Pairwise fun d e => d.phase = .after → ¬ e.Accesses .selected ⟨v, .read⟩ := by
  apply hl.pairwise_events h hm
  · refine (Event.pairwise_read (laid_children h hm).1).imp_of_mem
      fun {d e} hd he hle hphase haccess => ?_
    rw [(Event.place_of_mem_stream hd).1, Phase.among_eq_after_iff] at hphase
    obtain ⟨hsel, hk⟩ := haccess
    rw [(Event.place_of_mem_stream he).1, Phase.among_eq_selected_iff] at hsel
    have := hle v hk
    rw [Event.node, Event.node] at this
    omega
  · intro d e hearly _ hphase
    rcases hearly with hx | hx <;> rw [hphase] at hx <;> cases hx
  · exact fun d e hearly _ _ haccess => hearly.ne_selected haccess.1

theorem Located.not_read_of_late (h : Laid 0 0 t) (hm : m ∈ t.places) (hl : Located sel m a b s)
    (hplaces : ∀ e ∈ s.events.toList, e.place ∈ t.places)
    (hheld : Event.HeldByLoops t s.events.toList) {xs ys : List Event} {d : Event}
    (hsplit : s.events.toList = xs ++ d :: ys) (hlate : d.Late s.events.toList) :
    ∀ e ∈ d :: ys, ¬ e.Accesses .selected ⟨v, .read⟩ := by
  intro e he haccess
  have hmem : ∀ x ∈ d :: ys, x ∈ s.events.toList := fun x hx => hsplit ▸ List.mem_append_right xs hx
  rcases hlate with hphase | ⟨hleave, first, hfirst, haround⟩
  · rcases List.mem_cons.mp he with rfl | hlater
    · rw [haccess.1] at hphase
      cases hphase
    · exact Event.rel_of_split (hl.pairwise_read h hm) hsplit e hlater hphase haccess
  · rcases List.mem_cons.mp he with rfl | hlater
    · rw [haccess.2] at hleave
      cases hleave
    · -- the read stands in the loop, and nothing in the loop is recorded after the loop has been left
      have hloop := hplaces d (hmem d List.mem_cons_self)
      have hin := hl.mem_inner_of_loopsAround h hm (hl.id_of_firstSelected? h hm hfirst).1
        hloop haround
      refine (Event.rel_of_split (hl.pairwise_leave h hm) hsplit e hlater hleave hin).1 ?_
      obtain ⟨x, hx, hsel, hplace⟩ := hl.exists_entersSelected (hmem e he) haccess.1
      exact hplace ▸ hheld d.place hloop first hfirst haround x hx hsel

theorem Located.arguments_eq_of_held (h : Laid 0 0 t) (hm : m ∈ t.places) (hl : Located sel m a b s)
    (hplaces : ∀ e ∈ s.events.toList, e.place ∈ t.places)
    (hheld : Event.HeldByLoops t s.events.toList) :
    (ofEvents s.events.toList).arguments sel =
      (s.events.toList.filterMap Event.selected?).eraseDups.filter fun b =>
      (ofEvents s.events.toList).IsArgument sel b := by
  obtain ⟨xs, ys, hsplit, hearly, hlater⟩ : ∃ xs ys, s.events.toList = xs ++ ys ∧
      (∀ e ∈ xs, ¬ e.Late s.events.toList) ∧ ∀ e ∈ ys, ∀ v, ¬ e.Accesses .selected ⟨v, .read⟩ := by
    cases hfind : s.events.toList.find? fun e => e.Late s.events.toList with
    | none =>
      refine ⟨_, [], (List.append_nil _).symm, fun e he => ?_, List.forall_mem_nil _⟩
      simpa using List.find?_eq_none.mp hfind e he
    | some d =>
      obtain ⟨hlate, xs, ys, hsplit, hxs⟩ := List.find?_eq_some_iff_append.mp hfind
      exact ⟨xs, d :: ys, hsplit, fun e he => by simpa using hxs e he, fun e he v =>
        hl.not_read_of_late h hm hplaces hheld hsplit (of_decide_eq_true hlate) e he⟩
  -- what is read in the selection has been met in the first part, where only accesses in the
  -- selection count
  have hmet : ∀ b, (ofEvents s.events.toList).IsArgument sel b →
      b ∈ xs.filterMap Event.selected? := by
    rintro b ⟨hb, -⟩
    obtain ⟨e, he, haccess⟩ := ((mem_collected_foldl b _ {}).1.mp hb).resolve_left List.not_mem_nil
    rw [hsplit] at he
    have hx := (List.mem_append.mp he).resolve_right fun hy => hlater e hy b haccess
    exact List.mem_filterMap.mpr ⟨e, hx, by simp [Event.selected?, haccess.2, haccess.1]⟩
  have hcounted : xs.flatMap (Event.counted s.events.toList) = xs.filterMap Event.selected? := by
    rw [List.filterMap_eq_flatMap_toList]
    exact List.flatMap_congr fun e he => Event.counted_of_not_late (hearly e he)
  have hvars : (ofEvents s.events.toList).vars =
      (xs.filterMap Event.selected? ++ ys.flatMap (Event.counted s.events.toList)).eraseDups := by
    rw [hl.vars_eq h hm hplaces (List.append_nil _).symm, ← hcounted,
      ← List.flatMap_append, ← hsplit]
  have hselected : s.events.toList.filterMap Event.selected? =
      xs.filterMap Event.selected? ++ ys.filterMap Event.selected? := by
    rw [hsplit, List.filterMap_append]
  rw [arguments, hvars, hselected]
  calc _ = (xs.filterMap Event.selected?).eraseDups.filter _ :=
        filter_eraseDups_append fun b _ hb => hmet b (of_decide_eq_true hb)
    _ = _ := (filter_eraseDups_append fun b _ hb => hmet b (of_decide_eq_true hb)).symm

/-- The loops around a legal selection hold all of it, since what is selected stands side by
side. -/
theorem Located.heldByLoops (h : Laid 0 0 t) (hm : m ∈ t.places) (hl : Located sel m a b s)
    (hclean : s.diagnostics = []) : Event.HeldByLoops t s.events.toList := by
  intro loop hloop first hfirst haround e he hsel
  obtain ⟨hfirstin, hid, hlt⟩ := hl.id_of_firstSelected? h hm hfirst
  obtain ⟨hin, hle, hlt'⟩ := hl.id_of_entersSelected he hsel
  obtain ⟨p, hp, hep⟩ := hl.exists_picked h hm hin (Phase.among_eq_selected_iff.mpr ⟨hle, hlt'⟩)
  obtain ⟨o, ho, hfo⟩ := hl.exists_picked h hm hfirstin
    (Phase.among_eq_selected_iff.mpr ⟨by omega, by omega⟩)
  have hpicked : ∀ q ∈ picked sel a b m.inner, q ∈ m.inner := fun q hq => (mem_picked.mp hq).1
  obtain rfl : first = o := by
    refine hfo.resolve_right fun hbelow => ?_
    have := inner_bounds h (inner_subset hm o (hpicked o ho)) hbelow
    have := Phase.among_eq_selected_iff.mp (mem_picked.mp ho).2.1
    omega
  -- the parent of the first is the parent of all
  obtain ⟨q, hq, hfirstq⟩ := exists_parent hm hfirstin
  obtain ⟨q', hq', hpq⟩ := exists_parent hm (hpicked p hp)
  have hparents := (hl.gathers.diagnostics.mp hclean).2
  have hsame := (hparents p hp).trans (hparents first ho).symm
  rw [parent?_of_mem_rootPlaces hfirstq, parent?_of_mem_rootPlaces hpq] at hsame
  obtain rfl := place_unique h hq' hq (Option.some.inj hsame)
  have hploop : p ∈ loop.inner := by
    rcases parent_within h hq hloop hfirstq haround.2.1 with rfl | hbelow
    · exact child_mem_inner hpq
    · exact inner_trans hbelow (child_mem_inner hpq)
  rcases hep with heq | hbelow
  · exact heq ▸ hploop
  · exact inner_trans hploop hbelow

end Trace

/-- What the arguments of a verdict are, and how they are ordered. -/
structure TakesArguments (t : SyntaxTree) (sel : Extent) (events : List Event)
    (w : Verdict) : Prop where
  nodup : w.arguments.Nodup
  mem_iff : ∀ v, v ∈ w.arguments ↔ ¬ sel.Contains v.pos ∧ v.isVariable = true ∧
    ∃ p ∈ t.places, (∃ e ∈ events, e.EntersSelected ∧ e.place = p) ∧ p.node.kind = .name ∧
      p.node.binding = some v ∧ ¬ p.IsPlainTarget
  /-- They are in the order in which the variables first count. -/
  ordered : w.arguments.Sublist (events.flatMap (Event.counted events)).eraseDups
  held_of_legal : w.Legal → Event.HeldByLoops t events
  /-- They are in the order of the first accesses in the selection if the loops around it hold all
  of it. -/
  ordered_of_held : Event.HeldByLoops t events →
    w.arguments.Sublist (events.filterMap Event.selected?).eraseDups

open Trace in
/-- For every selection with an enclosing method, the arguments are the variables that are declared
outside the selection and read by a selected name. -/
theorem arguments_exact (s : Sketch) (sel : Extent) (boundaries : Boundaries) :
    ∃ w, analyze s.layout sel boundaries = .ok w ∧ w.NamesMethod s.layout sel ∧
      (Enclosed sel s.layout →
      TakesArguments s.layout sel (ofSelection s.layout sel).events.toList w) := by
  have h : Laid 0 0 s.layout := laid_layout s
  obtain ⟨w, hw, hcases⟩ := exists_analysis (t := s.layout) sel boundaries h
  have hnames := namesMethod_of_analyze (t := s.layout) h hw
  refine ⟨w, hw, hnames, fun henclosed => ?_⟩
  rcases hcases with ⟨m, a, b, ds, hm, hl, -, -, hvalidated, hds, rfl⟩ | ⟨hnone, d, method, -, rfl⟩
  · have hplaces : ∀ e ∈ (ofSelection s.layout sel).events.toList, e.place ∈ s.layout.places :=
      place_mem_of_mem_events (t := s.layout) h
    have harguments := (verdict_variables (ofSelection s.layout sel) sel hds).2
    refine ⟨?_, fun v => ?_, ?_, fun hlegal => hl.heldByLoops h hm ?_, fun hheld => ?_⟩
    · rw [harguments]
      exact (Locals.listed_ofEvents _).nodup.filter _
    · have hreads := (Locals.mem_collected_foldl v (ofSelection s.layout sel).events.toList {}).1
      rw [or_iff_right List.not_mem_nil, hl.exists_selected_read_iff h hm] at hreads
      rw [harguments, Locals.mem_arguments_ofEvents, Locals.IsArgument, and_comm]
      refine and_congr_right fun _ => hreads.trans ?_
      constructor
      · rintro ⟨p, hp, hsel, hread⟩
        obtain ⟨hname, hbinding, hvariable, hplain⟩ := Place.reads_iff.mp hread
        exact ⟨hvariable, p, hp, hsel, hname, hbinding, hplain⟩
      · rintro ⟨hvariable, p, hp, hsel, hname, hbinding, hplain⟩
        exact ⟨p, hp, hsel, Place.reads_iff.mpr ⟨hname, hbinding, hvariable, hplain⟩⟩
    · rw [harguments, ← hl.vars_eq h hm hplaces (List.append_nil _).symm]
      exact List.filter_sublist
    · refine List.eq_nil_iff_forall_not_mem.mpr fun d hd => ?_
      have hmem : d ∈ ((ofSelection s.layout sel).verdict sel ds).diagnostics :=
        mem_verdict_diagnostics (mem_validated hvalidated d hd)
      rw [hlegal] at hmem
      cases hmem
    · rw [harguments, hl.arguments_eq_of_held h hm hplaces hheld]
      exact List.filter_sublist
  · have huncovered := hnone.resolve_left (hnames.method_ne_none henclosed)
    have hunselected := unselected_of_uncovered (t := s.layout) h huncovered
    refine ⟨List.nodup_nil, fun v => iff_of_false List.not_mem_nil ?_, List.nil_sublist _,
      fun hlegal => ?_, fun _ => List.nil_sublist _⟩
    · rintro ⟨-, -, p, -, ⟨e, he, hsel, -⟩, -⟩
      exact hunselected e he hsel.2
    · exact absurd hlegal (List.cons_ne_nil _ _)

/-- The arguments of a selection are not in the order of the first accesses in it. -/
def Sketch.ReordersArguments (s : Sketch) (sel : Extent) : Prop :=
  s.Built ∧ ∃ w, analyze s.layout sel .everywhere = .ok w ∧ w.method.isSome = true ∧
    ¬ w.arguments.Sublist ((Trace.ofSelection s.layout sel).events.toList.filterMap
    Event.selected?).eraseDups

/-- A loop that uses a variable, and a statement behind it that uses another one first. -/
def usesAround : Sketch :=
  let c : Binding := { key := 0, name := "c", kind := .parameter }
  let v : Binding := { key := 1, name := "v", kind := .parameter }
  let w : Binding := { key := 2, name := "w", kind := .parameter }
  .file [some (.method "m" true [some c, some v, some w] [
    some (.loop none (some (.ref (some c))) none (some (.block [
      some (.eval (some (.call "f" [] [some (.ref (some v))]))),
      some (.eval (some (.operation [])))]))),
    some (.eval (some (.call "g" [] [some (.ref (some w)), some (.ref (some v))])))])]

/-- The statement behind the loop uses its arguments in their order. -/
theorem usesAround_takesArguments : Trace.Enclosed ⟨25, 8⟩ usesAround.layout ∧
    ∃ w, analyze usesAround.layout ⟨25, 8⟩ .everywhere = .ok w ∧ w.Legal ∧
      w.arguments.map (·.name) = ["w", "v"] ∧ w.arguments.Sublist
        ((Trace.ofSelection usesAround.layout ⟨25, 8⟩).events.toList.filterMap
        Event.selected?).eraseDups := by
  have henclosed : Trace.Enclosed ⟨25, 8⟩ usesAround.layout := by decide +kernel
  have hrun : (analyze usesAround.layout ⟨25, 8⟩ .everywhere).map
      (fun w => (w.diagnostics, w.arguments.map (·.name))) = .ok ([], ["w", "v"]) := by
    decide +kernel
  obtain ⟨w, hw, -, htakes⟩ := arguments_exact usesAround ⟨25, 8⟩ .everywhere
  rw [hw] at hrun
  obtain ⟨hlegal, harguments⟩ := Prod.mk.inj (Except.ok.inj hrun)
  have htakes := htakes henclosed
  exact ⟨henclosed, w, hw, hlegal, harguments, htakes.ordered_of_held (htakes.held_of_legal hlegal)⟩

open Sketch in
/-- The selection begins in the loop and ends behind it. -/
theorem usesAround_reordersArguments : usesAround.ReordersArguments ⟨19, 14⟩ := by
  let v : Binding := { key := 1, name := "v", kind := .parameter, pos := 4 }
  let w : Binding := { key := 2, name := "w", kind := .parameter, pos := 6 }
  let verdict : Verdict :=
    { diagnostics := [⟨.mixedParents, "The selected statements do not belong to the same block",
      some 14, ⟨25, 8⟩⟩], arguments := [v, w], method := some 1, selected := [12, 14] }
  have horder : ((Trace.ofSelection usesAround.layout ⟨19, 14⟩).events.toList.filterMap
      Event.selected?).eraseDups = [w, v] := by decide +kernel
  refine ⟨?_, verdict, by decide +kernel, rfl, ?_⟩
  · exact .file (Built.cons
      (.method _ _ _ (Built.cons (.loop Built.absent (Built.present (.ref _)) Built.absent
      (Built.present (.block (Built.cons
        (.eval (Built.present (.call _ _ (Built.cons (.ref _) Built.nil))))
        (Built.cons (.eval (Built.present (.operation Built.nil))) Built.nil)))))
      (Built.cons (.eval (Built.present
        (.call _ _ (Built.cons (.ref _) (Built.cons (.ref _) Built.nil))))) Built.nil)))
      Built.nil)
  · rw [horder]
    decide

end Extraction
