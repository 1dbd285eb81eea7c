import Extraction.Analysis.Locals

/-!
# Variables of a selection

Every variable that is counted has its place in the order, once.  A variable is therefore among the
candidates exactly if it is one.
-/

namespace Extraction

namespace Locals

/-- Every counted variable is listed, and none twice. -/
structure Listed (s : Locals) : Prop where
  nodup : s.vars.Nodup
  selectedReads : ∀ b ∈ s.selectedReads, b ∈ s.vars
  selectedWrites : ∀ b ∈ s.selectedWrites, b ∈ s.vars
  followingReads : ∀ b ∈ s.followingReads, b ∈ s.vars
  followingWrites : ∀ b ∈ s.followingWrites, b ∈ s.vars

@[simp] theorem mem_note_vars {s : Locals} {b c : Binding} :
    c ∈ (s.note b).vars ↔ c ∈ s.vars ∨ c = b := by
  unfold note
  split
  next h => exact ⟨Or.inl, fun hc => hc.elim id fun he => he ▸ h⟩
  next => simp

@[simp] theorem note_selectedReads (s : Locals) (b : Binding) :
    (s.note b).selectedReads = s.selectedReads := by
  unfold note
  split <;> rfl

@[simp] theorem note_selectedWrites (s : Locals) (b : Binding) :
    (s.note b).selectedWrites = s.selectedWrites := by
  unfold note
  split <;> rfl

@[simp] theorem note_followingReads (s : Locals) (b : Binding) :
    (s.note b).followingReads = s.followingReads := by
  unfold note
  split <;> rfl

@[simp] theorem note_followingWrites (s : Locals) (b : Binding) :
    (s.note b).followingWrites = s.followingWrites := by
  unfold note
  split <;> rfl

theorem Listed.note {s : Locals} (h : Listed s) (b : Binding) : Listed (s.note b) where
  nodup := by
    unfold Locals.note
    split
    next => exact h.nodup
    next hb =>
      refine List.nodup_append.mpr ⟨h.nodup, by simp, fun c hc d hd he => ?_⟩
      rw [he, List.mem_singleton.mp hd] at hc
      exact hb hc
  selectedReads c hc := mem_note_vars.mpr (Or.inl (h.selectedReads c (by simpa using hc)))
  selectedWrites c hc := mem_note_vars.mpr (Or.inl (h.selectedWrites c (by simpa using hc)))
  followingReads c hc := mem_note_vars.mpr (Or.inl (h.followingReads c (by simpa using hc)))
  followingWrites c hc := mem_note_vars.mpr (Or.inl (h.followingWrites c (by simpa using hc)))

theorem forall_mem_insert {vars xs : List Binding} {b : Binding} (h : ∀ c ∈ xs, c ∈ vars)
    (hb : b ∈ vars) :
    ∀ c ∈ xs.insert b, c ∈ vars := by
  intro c hc
  rcases List.mem_insert_iff.mp hc with rfl | hc
  · exact hb
  · exact h c hc

theorem Listed.count {s : Locals} (h : Listed s) (phase : Phase) (a : Access) (p : Place) :
    Listed (s.count phase a p) := by
  have hn := h.note a.binding
  have hmem : a.binding ∈ (s.note a.binding).vars := mem_note_vars.mpr (Or.inr rfl)
  cases phase with
  | undefined => exact h
  | before =>
    exact ⟨h.nodup, h.selectedReads, h.selectedWrites, h.followingReads, h.followingWrites⟩
  | selected =>
    cases hmode : a.mode with
    | read =>
      simp only [Locals.count, hmode]
      exact { hn with selectedReads := forall_mem_insert hn.selectedReads hmem }
    | write =>
      simp only [Locals.count, hmode]
      exact { hn with selectedWrites := forall_mem_insert hn.selectedWrites hmem }
  | after =>
    cases hmode : a.mode with
    | read =>
      simp only [Locals.count, hmode]
      split
      · exact hn
      · exact { hn with followingReads := forall_mem_insert hn.followingReads hmem }
    | write =>
      simp only [Locals.count, hmode]
      exact { hn with followingWrites := forall_mem_insert hn.followingWrites hmem }

theorem Listed.replay {s : Locals} (h : Listed s) (killed : List Binding) (a : PrecedingAccess) :
    Listed (Locals.replay (s, killed) a).1 := by
  have hn := h.note a.binding
  cases hmode : a.mode with
  | write =>
    simp only [Locals.replay, hmode]
    exact hn
  | read =>
    simp only [Locals.replay, hmode]
    split
    · exact hn
    · exact { hn with
        followingReads := forall_mem_insert hn.followingReads (mem_note_vars.mpr (Or.inr rfl)) }

theorem Listed.reenter {s : Locals} (h : Listed s) (loop : Place) : Listed (s.reenter loop) := by
  have hfold : ∀ (as : List PrecedingAccess) (acc : Locals × List Binding), Listed acc.1 →
      Listed (as.foldl Locals.replay acc).1 := by
    intro as
    induction as with
    | nil => exact fun _ hacc => hacc
    | cons a as ih => exact fun acc hacc => ih _ (hacc.replay acc.2 a)
  exact hfold _ _ h

theorem Listed.step {s : Locals} (h : Listed s) (e : Event) : Listed (s.step e) := by
  cases hk : e.kind with
  | enter =>
    simp only [Locals.step, hk]
    split
    · exact ⟨h.nodup, h.selectedReads, h.selectedWrites, h.followingReads, h.followingWrites⟩
    · exact h
  | leave =>
    simp only [Locals.step, hk]
    split
    · split
      · have hr := h.reenter e.place
        exact ⟨hr.nodup, hr.selectedReads, hr.selectedWrites, hr.followingReads, hr.followingWrites⟩
      · exact h
    · exact h
  | name access =>
    simp only [Locals.step, hk]
    exact h.count e.phase access e.place
  | call => simpa only [Locals.step, hk] using h
  | catches => simpa only [Locals.step, hk] using h

theorem listed_ofEvents (events : List Event) : Listed (ofEvents events) := by
  have hfold : ∀ (es : List Event) (s : Locals), Listed s → Listed (es.foldl step s) := by
    intro es
    induction es with
    | nil => exact fun _ hs => hs
    | cons e es ih => exact fun s hs => ih _ (hs.step e)
  exact hfold events {} ⟨List.nodup_nil, nofun, nofun, nofun, nofun⟩

theorem mem_candidates_ofEvents {events : List Event} {b : Binding} :
    b ∈ (ofEvents events).candidates ↔ (ofEvents events).IsCandidate b := by
  rw [candidates, List.mem_filter]
  exact ⟨fun h => of_decide_eq_true h.2,
    fun h => ⟨(listed_ofEvents events).followingReads b h.1, decide_eq_true h⟩⟩

theorem candidates_of_returnValue {s : Locals} {b : Binding} (h : s.returnValue = some b) :
    s.candidates = [b] := by
  unfold returnValue at h
  split at h
  next c hc => rw [hc, Option.some.inj h]
  next => cases h

theorem mem_candidates_of_returnValue {s : Locals} {b : Binding} (h : s.returnValue = some b) :
    b ∈ s.candidates := by
  rw [candidates_of_returnValue h]
  exact List.mem_singleton_self b

theorem returnValue_of_mem {s : Locals} {b : Binding} (hlength : s.candidates.length ≤ 1)
    (hb : b ∈ s.candidates) :
    s.returnValue = some b := by
  match h : s.candidates with
  | [] => rw [h] at hb; cases hb
  | [c] =>
    rw [h] at hb
    rw [returnValue, h, List.mem_singleton.mp hb]
  | _ :: _ :: _ =>
    rw [h] at hlength
    simp at hlength

theorem mem_arguments_ofEvents {events : List Event} {sel : Extent} {b : Binding} :
    b ∈ (ofEvents events).arguments sel ↔ (ofEvents events).IsArgument sel b := by
  rw [arguments, List.mem_filter]
  exact ⟨fun h => of_decide_eq_true h.2,
    fun h => ⟨(listed_ofEvents events).selectedReads b h.1, decide_eq_true h⟩⟩

theorem candidates_length_le_one_iff {events : List Event} :
    (ofEvents events).candidates.length ≤ 1 ↔
      ∀ b c, (ofEvents events).IsCandidate b → (ofEvents events).IsCandidate c → b = c := by
  have hnodup : (ofEvents events).candidates.Nodup := (listed_ofEvents events).nodup.filter _
  simp only [← mem_candidates_ofEvents]
  match h : (ofEvents events).candidates with
  | [] => simp
  | [x] => simp
  | x :: y :: more =>
    rw [h] at hnodup
    simp only [List.length_cons]
    constructor
    · omega
    · intro hall
      have hxy := hall x y (by simp) (by simp)
      simp [hxy] at hnodup

theorem returnValue_eq_some_iff {events : List Event} {b : Binding} :
    (ofEvents events).returnValue = some b ↔
      (ofEvents events).IsCandidate b ∧ ∀ c, (ofEvents events).IsCandidate c → c = b := by
  simp only [← mem_candidates_ofEvents]
  constructor
  · intro h
    simp [candidates_of_returnValue h]
  · rintro ⟨hb, hall⟩
    refine returnValue_of_mem (candidates_length_le_one_iff.mpr fun c d hc hd => ?_) hb
    rw [hall c (mem_candidates_ofEvents.mpr hc), hall d (mem_candidates_ofEvents.mpr hd)]

theorem returnValue_isSome_iff {events : List Event}
    (hone : (ofEvents events).candidates.length ≤ 1) :
    (ofEvents events).returnValue.isSome = true ↔ ∃ b, (ofEvents events).IsCandidate b := by
  rw [Option.isSome_iff_exists]
  constructor
  · rintro ⟨b, hb⟩
    exact ⟨b, (returnValue_eq_some_iff.mp hb).1⟩
  · rintro ⟨b, hb⟩
    exact ⟨b, returnValue_of_mem hone (mem_candidates_ofEvents.mpr hb)⟩

end Locals

end Extraction
