import Extraction.Text.Boundaries

/-!
# Bisection over spans

Spans that are not empty and come one after the other are sorted by their starts and by their ends
alike.  What a bisection answers about an offset or a region is then what a look at every span would
answer.
-/

namespace Extraction.Span

/-- The spans are not empty, and each ends before the next one starts. -/
structure Separated (spans : Array Span) : Prop where
  nonempty : ∀ s ∈ spans, s.start < s.stop
  ordered : spans.toList.Pairwise fun a b => a.stop ≤ b.start

theorem bisect_divides (test : Nat → Bool) (size lo hi : Nat)
    (hmono : ∀ i j, i ≤ j → j < size → test i = true → test j = true) (hle : lo ≤ hi)
    (hsize : hi ≤ size) (hbelow : ∀ i < lo, test i = false)
    (habove : ∀ i, hi ≤ i → i < size → test i = true) :
    bisect test lo hi ≤ size ∧ (∀ i < bisect test lo hi, test i = false) ∧
      ∀ i, bisect test lo hi ≤ i → i < size → test i = true := by
  fun_induction bisect test lo hi with
  | case1 lo hi hlt mid htest ih =>
    refine ih (by omega) (by omega) hbelow fun i hi' hi'' => ?_
    exact hmono mid i hi' hi'' htest
  | case2 lo hi hlt mid htest ih =>
    refine ih (by omega) hsize (fun i hi' => Bool.eq_false_iff.mpr fun hholds => ?_) habove
    -- were the test to hold at `i`, it would hold at the middle too
    exact htest (hmono i mid (by omega) (by omega) hholds)
  | case3 lo hi hge =>
    obtain rfl : lo = hi := by omega
    exact ⟨hsize, hbelow, habove⟩

variable {spans : Array Span} {test : Span → Bool}

theorem search_divides (spans : Array Span) (test : Span → Bool)
    (hmono : ∀ i j (hij : i ≤ j) (hj : j < spans.size), test (spans[i]) = true →
    test spans[j] = true) :
    search spans test ≤ spans.size ∧
      (∀ i (hi : i < spans.size), i < search spans test → test spans[i] = false) ∧
      ∀ i (hi : i < spans.size), search spans test ≤ i → test spans[i] = true := by
  have hany : ∀ i (hi : i < spans.size), (spans[i]?).any test = test spans[i] := by
    intro i hi
    rw [Array.getElem?_eq_getElem hi, Option.any_some]
  obtain ⟨hle, hbelow, habove⟩ :=
    bisect_divides (fun i => (spans[i]?).any test) spans.size 0 spans.size
    (fun i j hij hj htest => by
      rw [hany i (by omega)] at htest
      rw [hany j hj]
      exact hmono i j hij hj htest)
    (Nat.zero_le _) (Nat.le_refl _) (fun i hi => absurd hi (Nat.not_lt_zero i))
    (fun i hi hi' => absurd hi' (Nat.not_lt.mpr hi))
  refine ⟨hle, fun i hi hlt => ?_, fun i hi hge => ?_⟩
  · rw [← hany i hi]
    exact hbelow i hlt
  · rw [← hany i hi]
    exact habove i hge hi

section Congr

variable {α : Type} {items : List α} {f g : α → Span}

theorem any_getElem?_congr (h : ∀ a ∈ items, test (f a) = test (g a)) (i : Nat) :
    ((items.map f).toArray[i]?).any test = ((items.map g).toArray[i]?).any test := by
  rw [List.getElem?_toArray, List.getElem?_toArray, List.getElem?_map, List.getElem?_map]
  cases hi : items[i]? with
  | none => rfl
  | some a => exact h a (List.mem_of_getElem? hi)

theorem search_congr (h : ∀ a ∈ items, test (f a) = test (g a)) :
    search (items.map f).toArray test = search (items.map g).toArray test := by
  simp only [search, any_getElem?_congr h, List.size_toArray, List.length_map]

/-- Whether an offset is inside a span depends on where the spans start and on which of them end
after the offset. -/
theorem splits_congr {offset : Int}
    (h : ∀ a ∈ items, (f a).start = (g a).start ∧ (offset < (f a).stop ↔ offset < (g a).stop)) :
    splits (items.map f).toArray offset = splits (items.map g).toArray offset := by
  have hsearch : search (items.map f).toArray (fun s => decide (offset ≤ s.start)) =
      search (items.map g).toArray fun s => decide (offset ≤ s.start) :=
    search_congr fun a ha => by rw [(h a ha).1]
  unfold splits
  rw [hsearch]
  split
  · rfl
  next i _ => exact any_getElem?_congr (fun a ha => decide_eq_decide.mpr (h a ha).2) i

theorem touches_congr {start stop : Int}
    (h : ∀ a ∈ items, (f a).start = (g a).start ∧ (start < (f a).stop ↔ start < (g a).stop)) :
    touches (items.map f).toArray start stop = touches (items.map g).toArray start stop := by
  have hsearch : search (items.map f).toArray (fun s => decide (start < s.stop)) =
      search (items.map g).toArray fun s => decide (start < s.stop) :=
    search_congr fun a ha => decide_eq_decide.mpr (h a ha).2
  unfold touches
  rw [hsearch]
  exact any_getElem?_congr (fun a ha => by rw [(h a ha).1]) _

end Congr

namespace Separated

theorem stop_le_start (h : Separated spans) {i j : Nat} (hij : i < j) (hj : j < spans.size) :
    (spans[i]).stop ≤ spans[j].start := by
  have := List.pairwise_iff_getElem.mp h.ordered i j (by simp; omega) (by simpa using hj) hij
  simpa using this

theorem start_lt_stop (h : Separated spans) {i : Nat} (hi : i < spans.size) :
    spans[i].start < spans[i].stop :=
  h.nonempty _ (Array.getElem_mem hi)

theorem start_le_start (h : Separated spans) {i j : Nat} (hij : i ≤ j) (hj : j < spans.size) :
    (spans[i]).start ≤ spans[j].start := by
  rcases Nat.lt_or_eq_of_le hij with hlt | rfl
  · have := h.stop_le_start hlt hj
    have := h.start_lt_stop (i := i) (by omega)
    omega
  · exact Int.le_refl _

theorem stop_le_stop (h : Separated spans) {i j : Nat} (hij : i ≤ j) (hj : j < spans.size) :
    (spans[i]).stop ≤ spans[j].stop := by
  rcases Nat.lt_or_eq_of_le hij with hlt | rfl
  · have := h.stop_le_start hlt hj
    have := h.start_lt_stop hj
    omega
  · exact Int.le_refl _

theorem splits_iff (h : Separated spans) (offset : Int) :
    splits spans offset = true ↔ ∃ s ∈ spans, s.start < offset ∧ offset < s.stop := by
  obtain ⟨hle, hbelow, habove⟩ := search_divides spans (fun s => decide (offset ≤ s.start))
    fun i j hij hj htest => by
      have := h.start_le_start hij hj
      simp only [decide_eq_true_eq] at htest ⊢
      omega
  simp only [decide_eq_true_eq, decide_eq_false_iff_not, Int.not_le] at hbelow habove
  unfold splits
  split
  next hzero =>
    refine iff_of_false (by simp) ?_
    rintro ⟨s, hs, hstart, -⟩
    obtain ⟨i, hi, rfl⟩ := Array.getElem_of_mem hs
    have := habove i hi (by omega)
    omega
  next i hsearch =>
    have hi : i < spans.size := by omega
    rw [Array.getElem?_eq_getElem hi, Option.any_some, decide_eq_true_eq]
    refine ⟨fun hstop => ⟨spans[i], Array.getElem_mem hi, hbelow i hi (by omega), hstop⟩, ?_⟩
    rintro ⟨s, hs, hstart, hstop⟩
    obtain ⟨j, hj, rfl⟩ := Array.getElem_of_mem hs
    have hji : j ≤ i := by
      refine Nat.le_of_not_lt fun hlt => ?_
      have := habove j hj (by omega)
      omega
    have := h.stop_le_stop hji hi
    omega

theorem touches_iff (h : Separated spans) (start stop : Int) :
    touches spans start stop = true ↔ ∃ s ∈ spans, s.start < stop ∧ start < s.stop := by
  obtain ⟨hle, hbelow, habove⟩ := search_divides spans (fun s => decide (start < s.stop))
    fun i j hij hj htest => by
      have := h.stop_le_stop hij hj
      simp only [decide_eq_true_eq] at htest ⊢
      omega
  simp only [decide_eq_true_eq, decide_eq_false_iff_not, Int.not_lt] at hbelow habove
  unfold touches
  constructor
  · intro htouches
    obtain ⟨s, hs, hstart⟩ := (Option.any_eq_true _ _).mp htouches
    obtain ⟨hi, rfl⟩ := Array.getElem?_eq_some_iff.mp hs
    exact ⟨_, Array.getElem_mem hi, of_decide_eq_true hstart, habove _ hi (Nat.le_refl _)⟩
  · rintro ⟨s, hs, hstart, hstop⟩
    obtain ⟨j, hj, rfl⟩ := Array.getElem_of_mem hs
    have hfirst : search spans (fun s => decide (start < s.stop)) ≤ j := by
      refine Nat.le_of_not_lt fun hlt => ?_
      have := hbelow j hj hlt
      omega
    have := h.start_le_start hfirst hj
    rw [Array.getElem?_eq_getElem (by omega), Option.any_some, decide_eq_true_eq]
    omega

/-- It is enough that each span ends before its neighbour starts, since none is empty. -/
theorem of_neighbours (hnonempty : ∀ i (hi : i < spans.size), spans[i].start < spans[i].stop)
    (hordered : ∀ i (hi : i + 1 < spans.size), spans[i].stop ≤ spans[i + 1].start) :
    Separated spans := by
  have hapart : ∀ i j (hij : i < j) (hj : j < spans.size), (spans[i]).stop ≤ spans[j].start := by
    intro i j hij hj
    induction j with
    | zero => omega
    | succ j ih =>
      have hnext := hordered j hj
      rcases Nat.lt_or_eq_of_le (Nat.le_of_lt_succ hij) with hlt | rfl
      · have hbefore := ih hlt (by omega)
        have hwidth := hnonempty j (by omega)
        omega
      · exact hnext
  constructor
  · intro s hs
    obtain ⟨i, hi, rfl⟩ := Array.getElem_of_mem hs
    exact hnonempty i hi
  · rw [List.pairwise_iff_getElem]
    intro i j hi hj hij
    simpa using hapart i j hij (by simpa using hj)

end Separated

theorem shares_iff {s : Span} {start stop : Int} (hs : s.start < s.stop) (hlt : start < stop) :
    s.start < stop ∧ start < s.stop ↔ ∃ b, start ≤ b ∧ b < stop ∧ s.start ≤ b ∧ b < s.stop := by
  constructor
  · rintro ⟨hstart, hstop⟩
    exact ⟨max start s.start, by omega, by omega, by omega, by omega⟩
  · rintro ⟨b, hstart, hstop, hfirst, hlast⟩
    omega

/-- Let no span be empty and each end before the next one starts, or where it starts.  The
bisections find an offset to be inside a span exactly if it is strictly inside one of them, and a
region that is not empty to touch a span exactly if a byte of the region is a byte of one of
them. -/
theorem bisection_exact (spans : Array Span)
    (hnonempty : ∀ i (hi : i < spans.size), spans[i].start < spans[i].stop)
    (hordered : ∀ i (hi : i + 1 < spans.size), spans[i].stop ≤ spans[i + 1].start) :
    (∀ offset : Int, splits spans offset = true ↔ ∃ s ∈ spans, s.start < offset ∧ offset < s.stop) ∧
    ∀ start stop : Int, start < stop →
      (touches spans start stop = true ↔
        ∃ s ∈ spans, ∃ b, start ≤ b ∧ b < stop ∧ s.start ≤ b ∧ b < s.stop) := by
  have h : Separated spans := .of_neighbours hnonempty hordered
  refine ⟨h.splits_iff, fun start stop hlt => ?_⟩
  rw [h.touches_iff]
  exact exists_congr fun s => and_congr_right fun hs => shares_iff (h.nonempty s hs) hlt

/-- Two spans that touch each other, and one apart from them. -/
def touchingSpans : Array Span :=
  #[⟨-2, 3⟩, ⟨3, 5⟩, ⟨9, 10⟩]

theorem touchingSpans_bisected :
    (∀ i (hi : i < touchingSpans.size), touchingSpans[i].start < touchingSpans[i].stop) ∧
    (∀ i (hi : i + 1 < touchingSpans.size), touchingSpans[i].stop ≤ touchingSpans[i + 1].start) ∧
    (splits touchingSpans 4 = true ∧ (∃ s ∈ touchingSpans, s.start < 4 ∧ 4 < s.stop) ∧
      splits touchingSpans 3 = false ∧ ¬ ∃ s ∈ touchingSpans, s.start < 3 ∧ 3 < s.stop) ∧
    touches touchingSpans 4 9 = true ∧ touches touchingSpans 5 9 = false ∧
      ¬ ∃ s ∈ touchingSpans, ∃ b, 5 ≤ b ∧ b < 9 ∧ s.start ≤ b ∧ b < s.stop := by
  have hnonempty : ∀ i (hi : i < touchingSpans.size), touchingSpans[i].start <
      touchingSpans[i].stop := by decide
  have hordered : ∀ i (hi : i + 1 < touchingSpans.size), touchingSpans[i].stop ≤
      touchingSpans[i + 1].start := by
    intro i hi
    have hsize : touchingSpans.size = 3 := rfl
    obtain rfl | rfl : i = 0 ∨ i = 1 := by omega
    · decide +revert
    · decide +revert
  obtain ⟨hsplits, htouches⟩ := bisection_exact touchingSpans hnonempty hordered
  have hinside : splits touchingSpans 4 = true := by decide +kernel
  have hbetween : splits touchingSpans 3 = false := by decide +kernel
  have hgap : touches touchingSpans 5 9 = false := by decide +kernel
  refine ⟨hnonempty, hordered,
    ⟨hinside, (hsplits 4).mp hinside, hbetween, ?_⟩, by decide +kernel, hgap, ?_⟩
  · rw [← hsplits 3, hbetween]
    exact Bool.false_ne_true
  · rw [← htouches 5 9 (by decide), hgap]
    exact Bool.false_ne_true

end Extraction.Span
