import Extraction.Proofs.Declared
import Extraction.Proofs.Rounds
import Extraction.Proofs.Totality

/-!
# Values that leave a selection

A variable is a candidate for the return value if it is written in the selection and read after it.
It is read after the selection if some access behind the selection reads it before any writes it
there, or if the next round of a loop does: then the read stands ahead of the selection in the loop,
with no write ahead of it in the same rounds and none behind the selection in the loop.

The analysis learns this from the order of events.  An event reveals that a variable is read if it
is such a read behind the selection, or if it leaves a loop whose rounds begin with such a read.
-/

namespace Extraction

open SyntaxTree

namespace Event

/-- An access behind the selection reads the variable, and none before it writes the variable
there. -/
def ReadBehind (events : List Event) (v : Binding) : Prop :=
  ∃ xs e ys, events = xs ++ e :: ys ∧ e.Accesses .after ⟨v, .read⟩ ∧
    ∀ x ∈ xs, ¬ x.Accesses .after ⟨v, .write⟩

/-- The rounds of the loop read the variable ahead of the selection, and do not write it before
that. -/
def ReadInRounds (events : List Event) (v : Binding) (loop : Place) : Prop :=
  ∃ xs e ys, events = xs ++ e :: ys ∧ e.Accesses .before ⟨v, .read⟩ ∧ loop.InRounds e.place ∧
    ∀ x ∈ xs, x.Accesses .before ⟨v, .write⟩ → ¬ loop.InRounds x.place

/-- The value that the selection gives to the variable is read after it: behind it, or in the next
round of a loop around its first node. -/
def CarriesOut (t : SyntaxTree) (events : List Event) (v : Binding) : Prop :=
  (∃ e ∈ events, e.Accesses .selected ⟨v, .write⟩) ∧
    (ReadBehind events v ∨
      ∃ loop ∈ t.places, ∃ first, firstSelected? events = some first ∧ loop.LoopsAround first ∧
        ReadInRounds events v loop ∧
        ∀ x ∈ events, x.Accesses .after ⟨v, .write⟩ → x.place ∉ loop.inner)

end Event

namespace Locals

variable {s : Locals} {v : Binding} {e : Event}

def ReadsFirst (as : List PrecedingAccess) (v : Binding) : Prop :=
  ∃ l a r, as = l ++ a :: r ∧ a.toAccess = ⟨v, .read⟩ ∧ ∀ x ∈ l, x.toAccess ≠ ⟨v, .write⟩

theorem mem_followingReads_foldl_replay {as : List PrecedingAccess} {acc : Locals × List Binding} :
    v ∈ (as.foldl replay acc).1.followingReads ↔ v ∈ acc.1.followingReads ∨ v ∉ acc.2 ∧
      ReadsFirst as v := by
  constructor
  · induction as generalizing acc with
    | nil => exact Or.inl
    | cons a as ih =>
      intro hv
      rcases ih hv with hv | ⟨hfree, l, c, r, rfl, hc, hl⟩
      · by_cases hread : a.toAccess = ⟨v, .read⟩ ∧ v ∉ acc.2
        · exact Or.inr ⟨hread.2, [], a, as, rfl, hread.1, List.forall_mem_nil _⟩
        · left
          obtain ⟨⟨b, mode⟩, place⟩ := a
          cases mode with
          | write => simpa [replay] using hv
          | read =>
            simp only [replay] at hv
            split at hv
            · simpa using hv
            next hb =>
              simp only [note_followingReads, List.mem_insert_iff] at hv
              refine hv.resolve_left ?_
              rintro rfl
              exact hread ⟨rfl, hb⟩
      · rw [mem_killed_replay, not_or] at hfree
        exact Or.inr ⟨hfree.1, a :: l, c, r, rfl, hc, List.forall_mem_cons.mpr ⟨hfree.2, hl⟩⟩
  · rintro (hv | ⟨hfree, l, a, r, rfl, ha, hl⟩)
    · obtain ⟨vars, reads, heq, hsub⟩ := foldl_replay_eq as acc
      rw [heq]
      exact hsub v hv
    · exact mem_followingReads_replay ha hfree hl

def Reveals (s : Locals) (e : Event) (v : Binding) : Prop :=
  v ∉ s.followingWrites ∧ (e.Accesses .after ⟨v, .read⟩ ∨
    e.kind = .leave ∧ (∃ n outer, s.loops = n :: outer ∧ e.node.id = n.id) ∧
      ReadsFirst (s.preceding.filter (repeats e.place)) v)

theorem mem_followingReads_step_iff :
    v ∈ (s.step e).followingReads ↔ v ∈ s.followingReads ∨ s.Reveals e v := by
  unfold Reveals
  cases hk : e.kind with
  | enter =>
    simp only [step, hk, Event.Accesses]
    split <;> simp
  | leave =>
    simp only [step, hk, Event.Accesses]
    cases hloops : s.loops with
    | nil => simp
    | cons n outer =>
      by_cases hid : e.node.id = n.id
      · simp [hid, reenter, mem_followingReads_foldl_replay]
      · simp [hid]
  | name a =>
    obtain ⟨b, mode⟩ := a
    simp only [step, hk, Event.Accesses]
    cases hphase : e.phase <;> cases mode <;> simp [count]
    split
    next hb =>
      rw [note_followingReads]
      refine (or_iff_left ?_).symm
      rintro ⟨hfree, rfl⟩
      exact hfree hb
    next hb =>
      rw [List.mem_insert_iff, or_comm]
      refine or_congr_right ?_
      constructor
      · rintro rfl
        exact ⟨hb, rfl⟩
      · exact fun h => h.2.symm
  | call | catches => simp [step, hk, Event.Accesses]

theorem mem_followingReads_foldl (es : List Event) :
    v ∈ (es.foldl step s).followingReads ↔ v ∈ s.followingReads ∨
      ∃ xs e ys, es = xs ++ e :: ys ∧ (xs.foldl step s).Reveals e v := by
  induction es generalizing s with
  | nil => simp
  | cons e es ih =>
    rw [List.foldl_cons, ih, mem_followingReads_step_iff, or_assoc]
    refine or_congr_right ?_
    constructor
    · rintro (hreveals | ⟨xs, d, ys, rfl, hreveals⟩)
      · exact ⟨[], e, es, rfl, hreveals⟩
      · exact ⟨e :: xs, d, ys, rfl, hreveals⟩
    · rintro ⟨xs, d, ys, heq, hreveals⟩
      cases xs with
      | nil =>
        obtain ⟨rfl, rfl⟩ := List.cons.inj heq
        exact Or.inl hreveals
      | cons x xs =>
        obtain ⟨rfl, rfl⟩ := List.cons.inj heq
        exact Or.inr ⟨xs, d, ys, rfl, hreveals⟩

theorem readsFirst_iff (events : List Event) (loop : Place) :
    ReadsFirst (events.filterMap (Event.repeated? loop)) v ↔ Event.ReadInRounds events v loop := by
  constructor
  · rintro ⟨l, a, r, hsplit, ha, hl⟩
    obtain ⟨xs, rest, rfl, rfl, hrest⟩ := List.filterMap_eq_append_iff.mp hsplit
    obtain ⟨between, e, ys, rfl, hbetween, he, -⟩ := List.filterMap_eq_cons_iff.mp hrest
    obtain ⟨haccess, -, hround⟩ := Event.repeated?_eq_some.mp he
    refine ⟨xs ++ between, e, ys, by simp, ha ▸ haccess, hround, fun x hx hwrite hin => ?_⟩
    have hx' : x.repeated? loop = some ⟨⟨v, .write⟩, x.place⟩ :=
      Event.repeated?_eq_some.mpr ⟨hwrite, rfl, hin⟩
    rcases List.mem_append.mp hx with hx | hx
    · exact hl _ (List.mem_filterMap.mpr ⟨x, hx, hx'⟩) rfl
    · rw [hbetween x hx] at hx'
      cases hx'
  · rintro ⟨xs, e, ys, rfl, hread, hround, hfree⟩
    have he : e.repeated? loop = some ⟨⟨v, .read⟩, e.place⟩ :=
      Event.repeated?_eq_some.mpr ⟨hread, rfl, hround⟩
    rw [List.filterMap_append, List.filterMap_cons_some he]
    refine ⟨_, _, _, rfl, rfl, fun a ha hwrite => ?_⟩
    obtain ⟨x, hx, hx'⟩ := List.mem_filterMap.mp ha
    obtain ⟨haccess, -, hin⟩ := Event.repeated?_eq_some.mp hx'
    exact hfree x hx (hwrite ▸ haccess) hin

end Locals

namespace Trace

open Locals

variable {t : SyntaxTree} {sel : Extent} {m : Place} {a b : Nat} {s : Trace} {v : Binding}

theorem Located.mem_followingReads_iff (h : Laid 0 0 t) (hm : m ∈ t.places)
    (hl : Located sel m a b s) (hplaces : ∀ e ∈ s.events.toList, e.place ∈ t.places) :
    v ∈ (ofEvents s.events.toList).followingReads ↔ Event.ReadBehind s.events.toList v ∨
      ∃ loop ∈ t.places, ∃ first, Event.firstSelected? s.events.toList = some first ∧
        loop.LoopsAround first ∧ Event.ReadInRounds s.events.toList v loop ∧
          ∀ x ∈ s.events.toList, x.Accesses .after ⟨v, .write⟩ → x.place ∉ loop.inner := by
  have hwritten : ∀ xs : List Event,
      v ∉ (xs.foldl step {}).followingWrites ↔ ∀ x ∈ xs, ¬ x.Accesses .after ⟨v, .write⟩ := by
    intro xs
    rw [(mem_collected_foldl v xs {}).2.2, or_iff_right List.not_mem_nil]
    simp
  rw [ofEvents, mem_followingReads_foldl, or_iff_right List.not_mem_nil]
  constructor
  · rintro ⟨xs, e, ys, hsplit, hfree, hread | ⟨hleave, hreenters, hreads⟩⟩
    · exact Or.inl ⟨xs, e, ys, hsplit, hread, (hwritten xs).mp hfree⟩
    · obtain ⟨first, hfirst, haround⟩ := (hl.reenters_iff h hm hplaces hsplit hleave).mp hreenters
      have hat := hl.atLeave h hm hplaces hfirst haround hsplit hleave rfl
      refine Or.inr ⟨e.place, hplaces e (by rw [hsplit]; simp), first, hfirst, haround, ?_,
        fun x hx hwrite hin => ?_⟩
      · exact (readsFirst_iff _ _).mp (hat.repeated ▸ hreads)
      · exact hfree ((hat.written v).mpr ⟨x, hx, hwrite, hin⟩)
  · rintro (⟨xs, e, ys, hsplit, hread, hfree⟩
      | ⟨loop, hloop, first, hfirst, haround, hreads, hfree⟩)
    · exact ⟨xs, e, ys, hsplit, (hwritten xs).mpr hfree, Or.inl hread⟩
    · -- the read counts when the loop is left
      obtain ⟨hfirstin, hid, -⟩ := hl.id_of_firstSelected? h hm hfirst
      have hbounds := inner_bounds h hloop haround.2.1
      have hloopin := hl.mem_inner_of_loopsAround h hm hfirstin hloop haround
      obtain ⟨es, depth, nested, rest, hsplit, -⟩ :=
        hl.exists_events_of_loop h hm hloopin haround.1 (by omega)
      have hat := hl.atLeave h hm hplaces hfirst haround hsplit rfl rfl
      refine ⟨_, _, _, hsplit, fun hv => ?_, Or.inr ⟨rfl, ⟨_, _, hat.loops, rfl⟩, ?_⟩⟩
      · obtain ⟨x, hx, hwrite, hin⟩ := (hat.written v).mp hv
        exact hfree x hx hwrite hin
      · exact hat.repeated ▸ (readsFirst_iff _ _).mpr hreads

theorem Located.mem_candidates_iff (h : Laid 0 0 t) (hm : m ∈ t.places) (hl : Located sel m a b s)
    (hplaces : ∀ e ∈ s.events.toList, e.place ∈ t.places) :
    v ∈ (ofEvents s.events.toList).candidates ↔ Event.CarriesOut t s.events.toList v := by
  rw [mem_candidates_ofEvents, IsCandidate, hl.mem_followingReads_iff h hm hplaces,
    Event.CarriesOut, and_comm]
  refine and_congr_left' ?_
  exact (mem_collected_foldl v _ {}).2.1.trans (or_iff_right List.not_mem_nil)

theorem ambiguous_of_candidates {ds : List Diagnostic}
    (hds : (ds.any fun d => d.kind = .noEnclosingMethod) = false)
    (hmany : ¬ (ofEvents s.events.toList).candidates.length ≤ 1) :
    ∃ d ∈ (s.verdict sel ds).diagnostics, d.kind = .ambiguousReturnValue := by
  rw [verdict, hds]
  simp only [Bool.false_eq_true, if_false, candidateDiagnostics, hmany]
  exact ⟨_, List.mem_append_left _ (List.mem_append_right _ (List.mem_singleton_self _)), rfl⟩

end Trace

/-- What the verdict makes of the variables whose value leaves the selection. -/
structure ReturnsCarried (t : SyntaxTree) (events : List Event) (w : Verdict) : Prop where
  candidate_iff : ∀ v, v ∈ (Locals.ofEvents events).candidates ↔ Event.CarriesOut t events v
  /-- The only one is returned. -/
  returned_iff : ∀ v, w.returnValue = some v ↔ Event.CarriesOut t events v ∧
    ∀ u, Event.CarriesOut t events u → u = v
  /-- Of several, none is returned, and the verdict says so. -/
  ambiguous : ∀ u v, u ≠ v → Event.CarriesOut t events u → Event.CarriesOut t events v →
    w.returnValue = none ∧ ∃ d ∈ w.diagnostics, d.kind = .ambiguousReturnValue

open Trace in
/-- For every selection with an enclosing method, the candidates for the return value are the
variables whose value leaves the selection. -/
theorem candidates_exact (s : Sketch) (sel : Extent) (boundaries : Boundaries) :
    ∃ w, analyze s.layout sel boundaries = .ok w ∧ w.NamesMethod s.layout sel ∧
      (Enclosed sel s.layout →
      ReturnsCarried s.layout (ofSelection s.layout sel).events.toList w) := by
  have h : Laid 0 0 s.layout := laid_layout s
  obtain ⟨w, hw, hcases⟩ := exists_analysis (t := s.layout) sel boundaries h
  have hnames := namesMethod_of_analyze (t := s.layout) h hw
  refine ⟨w, hw, hnames, fun henclosed => ?_⟩
  rcases hcases with ⟨m, a, b, ds, hm, hl, -, -, -, hds, rfl⟩ | ⟨hnone, d, method, -, rfl⟩
  · have hcandidates := fun v =>
      hl.mem_candidates_iff (v := v) h hm (place_mem_of_mem_events (t := s.layout) h)
    have hreturn := (verdict_variables (ofSelection s.layout sel) sel hds).1
    have hreturned : ∀ v,
        (Locals.ofEvents (ofSelection s.layout sel).events.toList).returnValue = some v ↔ _ :=
      fun v => Locals.returnValue_eq_some_iff
    simp only [← Locals.mem_candidates_ofEvents, hcandidates] at hreturned
    refine ⟨hcandidates, fun v => hreturn ▸ hreturned v,
      fun u v hne hu hv => ⟨?_, ambiguous_of_candidates hds ?_⟩⟩
    · rw [hreturn, Option.eq_none_iff_forall_ne_some]
      intro c hc
      have hall := ((hreturned c).mp hc).2
      exact hne ((hall u hu).trans (hall v hv).symm)
    · intro hone
      rw [Locals.candidates_length_le_one_iff] at hone
      simp only [← Locals.mem_candidates_ofEvents, hcandidates] at hone
      exact hne (hone u v hu hv)
  · -- nothing is selected, so nothing leaves the selection
    have huncovered := hnone.resolve_left (hnames.method_ne_none henclosed)
    have hunselected := unselected_of_uncovered (t := s.layout) h huncovered
    have hidle : ∀ v, ¬ Event.CarriesOut s.layout (ofSelection s.layout sel).events.toList v := by
      rintro v ⟨⟨e, he, hsel, -⟩, -⟩
      exact hunselected e he hsel
    refine ⟨fun v => iff_of_false (fun hv => ?_) (hidle v),
      fun v => iff_of_false (by simp) fun hv => hidle v hv.1, fun u v _ hu => absurd hu (hidle u)⟩
    obtain ⟨-, hwrite⟩ := Locals.mem_candidates_ofEvents.mp hv
    obtain ⟨e, he, hsel, -⟩ :=
      ((Locals.mem_collected_foldl v _ {}).2.1.mp hwrite).resolve_left List.not_mem_nil
    exact hunselected e he hsel

/-- The next round of the loop reads what the selection has written. -/
theorem rereading_carriesOut : Trace.Enclosed ⟨17, 8⟩ rereading.layout ∧
    ∃ w, analyze rereading.layout ⟨17, 8⟩ .everywhere = .ok w ∧
      ∃ v, w.returnValue = some v ∧ v.name = "x" ∧
        Event.CarriesOut rereading.layout
          (Trace.ofSelection rereading.layout ⟨17, 8⟩).events.toList v := by
  have henclosed : Trace.Enclosed ⟨17, 8⟩ rereading.layout := by decide +kernel
  have hrun : analyze rereading.layout ⟨17, 8⟩ .everywhere = .ok rereadingVerdict := by
    decide +kernel
  obtain ⟨w, hw, -, hcarried⟩ := candidates_exact rereading ⟨17, 8⟩ .everywhere
  obtain rfl := Except.ok.inj (hrun.symm.trans hw)
  exact ⟨henclosed, _, hw, _, rfl, rfl, (((hcarried henclosed).returned_iff _).mp rfl).1⟩

theorem Locals.mem_classes_of_returnValue {events : List Event} {sel : Extent} {v : Binding}
    (h : (ofEvents events).returnValue = some v) :
    (v ∈ (ofEvents events).callerLocals sel ↔ sel.Contains v.pos ∧
      ∃ e ∈ events, e.Accesses .after ⟨v, .write⟩) ∧
      (v ∈ (ofEvents events).arguments sel ∨ v ∈ (ofEvents events).extractedLocals sel ↔
        v ∉ (ofEvents events).callerLocals sel) := by
  have hone : (ofEvents events).candidates.length ≤ 1 := by
    rw [candidates_of_returnValue h]
    exact Nat.le_refl 1
  have hwritten := (mem_candidates_ofEvents.mp (mem_candidates_of_returnValue h)).2
  rw [mem_arguments_ofEvents, mem_extractedLocals_ofEvents hone, mem_callerLocals_ofEvents]
  refine ⟨and_congr_right fun _ => ?_, ?_⟩
  · exact (mem_collected_foldl v events {}).2.2.trans (or_iff_right List.not_mem_nil)
  · constructor
    · rintro (hargument | hlocal)
      · exact fun hstays => hargument.2 hstays.1
      · exact hlocal.2.2
    · intro hleaves
      by_cases hargument : (ofEvents events).IsArgument sel v
      · exact Or.inl hargument
      · exact Or.inr ⟨hwritten, hargument, hleaves⟩

open Trace in
/-- For every selection, a returned variable is an argument or a local of the extracted method,
unless it is declared in the selection and written behind it: then it is a local of the caller
alone. -/
theorem returned_known (s : Sketch) (sel : Extent) (boundaries : Boundaries) :
    ∃ w, analyze s.layout sel boundaries = .ok w ∧ ∀ v, w.returnValue = some v →
      (v ∈ w.callerLocals ↔ sel.Contains v.pos ∧
        ∃ e ∈ (ofSelection s.layout sel).events.toList, e.Accesses .after ⟨v, .write⟩) ∧
      (v ∈ w.arguments ∨ v ∈ w.extractedLocals ↔ v ∉ w.callerLocals) := by
  obtain ⟨w, hw, hcases⟩ := exists_analysis (t := s.layout) sel boundaries (laid_layout s)
  refine ⟨w, hw, fun v hv => ?_⟩
  rcases hcases with ⟨-, -, -, ds, -, -, -, -, -, hds, rfl⟩ | ⟨-, d, method, -, rfl⟩
  · obtain ⟨hreturn, harguments⟩ := verdict_variables (ofSelection s.layout sel) sel hds
    obtain ⟨hextracted, hcaller⟩ := verdict_classes (ofSelection s.layout sel) sel hds
    rw [harguments, hextracted, hcaller]
    exact Locals.mem_classes_of_returnValue (hreturn ▸ hv)
  · cases hv

theorem handedOn_known : ∃ w, analyze handedOn.layout ⟨7, 8⟩ .everywhere = .ok w ∧
    ∃ v, w.returnValue = some v ∧
    v ∉ w.callerLocals ∧ (v ∈ w.arguments ∨ v ∈ w.extractedLocals) := by
  let x : Binding := { key := 0, name := "x", pos := 4 }
  have hrun : (analyze handedOn.layout ⟨7, 8⟩ .everywhere).map (·.returnValue) = .ok (some x) := by
    decide +kernel
  obtain ⟨w, hw, hknown⟩ := returned_known handedOn ⟨7, 8⟩ .everywhere
  rw [hw] at hrun
  obtain ⟨hcaller, hclasses⟩ := hknown x (Except.ok.inj hrun)
  have houtside : ¬ (⟨7, 8⟩ : Extent).Contains x.pos := by decide
  have hleaves : x ∉ w.callerLocals := fun hstays => houtside (hcaller.mp hstays).1
  exact ⟨w, hw, x, Except.ok.inj hrun, hleaves, hclasses.mpr hleaves⟩

/-- A legal selection returns a variable that is neither an argument nor a local of the extracted
method. -/
def Sketch.ReturnsUnknown (s : Sketch) (sel : Extent) : Prop :=
  s.Built ∧ ∃ w v, analyze s.layout sel .everywhere = .ok w ∧ w.Legal ∧ w.returnValue = some v ∧
    v ∉ w.arguments ∧ v ∉ w.extractedLocals

/-- A local is declared, used and then given a new value. -/
def renewedLocal : Sketch :=
  let x : Binding := { key := 0, name := "x" }
  .file [some (.method "m" true [] [some (.declare (some x) (some (.operation []))),
    some (.eval (some (.call "use" [] [some (.ref (some x))]))),
    some (.assign false (some x) (some (.operation [])))])]

open Sketch in
theorem renewedLocal_returnsUnknown : renewedLocal.ReturnsUnknown ⟨3, 6⟩ := by
  let w : Verdict :=
    { diagnostics := [], returnKind := .variableValue,
      callerLocals := [{ key := 0, name := "x", pos := 4 }],
      returnValue := some { key := 0, name := "x", pos := 4 }, method := some 1, selected := [3] }
  refine ⟨?_, w, _, by decide +kernel, rfl, rfl, List.not_mem_nil, List.not_mem_nil⟩
  exact .file
    (Built.cons (.method _ _ _ (Built.cons (.declare _ (Built.present (.operation Built.nil)))
    (Built.cons
    (.eval (Built.present (.call _ _ (Built.cons (.ref _) Built.nil))))
    (Built.cons (.assign _ _ (Built.present (.operation Built.nil))) Built.nil)))) Built.nil)

end Extraction
