import Mathlib.Data.List.Perm.Subperm
import Extraction.Analysis.Verdict
import Extraction.Proofs.Enclosing
import Extraction.Proofs.Failures

/-!
# What is reported about a selection

Diagnostics come from the traversal, from its validation, from the flow and from the variables.
Whatever the tree looks like, the traversal reports at most one selected node elsewhere and at most
one node that the selection ends in, in this order, and nothing as long as nothing is selected.
-/

namespace Extraction

def Verdict.kinds (w : Verdict) : List DiagnosticKind :=
  w.diagnostics.map (·.kind)

def Phase.reportable : Phase → List DiagnosticKind
  | undefined | before => []
  | selected => [.mixedParents]
  | after => [.mixedParents, .endsMidStatement]

namespace Trace

/-- The traversal has reported no more than fits its phase, and it is in a later phase only if
something was selected. -/
structure Reports (s : Trace) : Prop where
  kinds : (s.diagnostics.map (·.kind)).Sublist s.phase.reportable
  begun : s.first = none → s.phase = .undefined ∨ s.phase = .before
  topLevel : s.first = none → s.topLevel = []
  inside : s.method = none → s.first = none

variable {sel : Extent} {s s' : Trace} {p : Place}

theorem report_eq_ok {kind : DiagnosticKind} {message : String} {n : Node}
    (h : s.report kind message n = .ok s') :
    ∃ d : Diagnostic, d.kind = kind ∧ s' = { s with diagnostics := s.diagnostics ++ [d] } := by
  obtain ⟨extent, -, ⟨⟩⟩ := bind_eq_ok.mp h
  exact ⟨_, rfl, rfl⟩

theorem has_eq_false {kind : DiagnosticKind} :
    s.has kind = false ↔ kind ∉ s.diagnostics.map (·.kind) := by
  simp [has, List.any_eq_false]

theorem sublist_report {ks : List DiagnosticKind} (h : (s.diagnostics.map (·.kind)).Sublist ks)
    (d : Diagnostic) :
    ((s.diagnostics ++ [d]).map (·.kind)).Sublist (ks ++ [d.kind]) := by
  rw [List.map_append]
  exact h.append (List.Sublist.refl _)

theorem classify_cases (hc : classify sel s p = .ok s') :
    s' = s ∨
    (s.phase = .before ∧
      s' = { s with
        phase := .selected, first := some p.node, parentOfFirst := p.parent?.map (·.id),
        last := some p.node, topLevel := s.topLevel ++ [p.node] }) ∨
    s.phase = .selected ∧
      (s' = { s with phase := .after } ∨
        (∃ d : Diagnostic, d.kind = .endsMidStatement ∧
          s' = { s with phase := .after, diagnostics := s.diagnostics ++ [d] }) ∨
        s' = { s with last := some p.node, topLevel := s.topLevel ++ [p.node] } ∨
        ∃ d : Diagnostic, d.kind = .mixedParents ∧ s.has .mixedParents = false ∧
          s' = { s with
            last := some p.node, topLevel := s.topLevel ++ [p.node],
            diagnostics := s.diagnostics ++ [d] }) := by
  unfold classify at hc
  simp only at hc
  split at hc
  next hphase =>
    split at hc
    next =>
      cases hc
      exact Or.inr (Or.inl ⟨hphase, rfl⟩)
    next =>
      cases hc
      exact Or.inl rfl
  next hphase =>
    split at hc
    next =>
      cases hc
      exact Or.inr (Or.inr ⟨hphase, Or.inl rfl⟩)
    next =>
      split at hc
      next =>
        obtain ⟨s₁, hreport, ⟨⟩⟩ := map_eq_ok.mp hc
        obtain ⟨d, hd, rfl⟩ := report_eq_ok hreport
        exact Or.inr (Or.inr ⟨hphase, Or.inr (Or.inl ⟨d, hd, rfl⟩)⟩)
      next =>
        split at hc
        next =>
          split at hc
          next =>
            cases hc
            exact Or.inr (Or.inr ⟨hphase, Or.inr (Or.inr (Or.inl rfl))⟩)
          next hstray =>
            obtain ⟨d, hd, rfl⟩ := report_eq_ok hc
            have hnew : s.has .mixedParents = false :=
              Bool.eq_false_iff.mpr fun hhas => hstray (Or.inr hhas)
            exact Or.inr (Or.inr ⟨hphase, Or.inr (Or.inr (Or.inr ⟨d, hd, hnew, rfl⟩))⟩)
        next =>
          cases hc
          exact Or.inl rfl
  next =>
    cases hc
    exact Or.inl rfl
  next =>
    cases hc
    exact Or.inl rfl

/-- Classifying a place reports a node that the selection ends in and then no more, and it reports a
stray node only if none was reported. -/
theorem Reports.classify (h : s.Reports) (hmethod : s.method ≠ none)
    (hc : classify sel s p = .ok s') :
    s'.Reports := by
  have hkinds := h.kinds
  rcases classify_cases hc with rfl | ⟨hphase, rfl⟩ | ⟨hphase, hc⟩
  · exact h
  · rw [hphase] at hkinds
    exact ⟨hkinds.trans (List.nil_sublist _), nofun, nofun, fun hnone => absurd hnone hmethod⟩
  · have hfirst : s.first ≠ none := by
      intro hnone
      have hearly := h.begun hnone
      simp [hphase] at hearly
    rw [hphase] at hkinds
    change (s.diagnostics.map (·.kind)).Sublist [.mixedParents] at hkinds
    rcases hc with rfl | ⟨d, hd, rfl⟩ | rfl | ⟨d, hd, hnew, rfl⟩
    · have hmore : [DiagnosticKind.mixedParents].Sublist [.mixedParents, .endsMidStatement] := by
        decide
      exact ⟨hkinds.trans hmore, fun hnone => absurd hnone hfirst, h.topLevel, h.inside⟩
    · have hmore := sublist_report hkinds d
      rw [hd] at hmore
      exact ⟨hmore, fun hnone => absurd hnone hfirst, h.topLevel, h.inside⟩
    · exact ⟨h.kinds, h.begun, fun hnone => absurd hnone hfirst, h.inside⟩
    · have hnone : s.diagnostics.map (·.kind) = [] := by
        have hnot := has_eq_false.mp hnew
        generalize s.diagnostics.map (·.kind) = kinds at hkinds hnot ⊢
        cases hkinds with
        | cons _ hnil => exact List.sublist_nil.mp hnil
        | cons_cons _ _ => exact absurd List.mem_cons_self hnot
      refine ⟨?_, h.begun, fun hnone => absurd hnone hfirst, h.inside⟩
      simp [List.map_eq_nil_iff.mp hnone, hd, hphase, Phase.reportable]

theorem Reports.enter (h : s.Reports) : (Trace.enter sel s p).2.Reports := by
  unfold Trace.enter
  split
  next => exact h
  next =>
    split
    next => exact ⟨List.Sublist.refl _, fun _ => Or.inr rfl, fun _ => rfl, fun _ => rfl⟩
    next =>
      split
      next =>
        split
        all_goals exact h
      next hmethod =>
        have hinside : s.method ≠ none := by
          intro hnone
          simp [hnone] at hmethod
        cases hc : Trace.classify sel s p with
        | error fault => exact ⟨h.kinds, h.begun, h.topLevel, h.inside⟩
        | ok s' =>
          have hs' := h.classify hinside hc
          simp only [enterClassified_eq]
          exact ⟨hs'.kinds, hs'.begun, hs'.topLevel, hs'.inside⟩

theorem Reports.leave (h : s.Reports) : (Trace.leave s p).Reports := by
  rcases leave_cases s p with heq | heq | heq
  · rwa [heq]
  · rw [heq]
    exact ⟨h.kinds, h.begun, h.topLevel, h.inside⟩
  · rw [heq]
    exact ⟨h.kinds, h.begun, h.topLevel, h.inside⟩

theorem reports_ofSelection (t : SyntaxTree) (sel : Extent) : (ofSelection t sel).Reports := by
  apply walk_induction (P := Reports)
  · intro s p _ h
    exact h.enter
  · intro s p _ h
    exact h.leave
  · exact ⟨List.Sublist.refl _, fun _ => Or.inl rfl, fun _ => rfl, fun _ => rfl⟩

/-- What validation can find in a traversal that selected something. -/
def reportable : List DiagnosticKind :=
  [.mixedParents, .endsMidStatement, .singleReturn, .invalidBoundary, .invalidBoundary]

theorem kinds_returnDiagnostics {ds : List Diagnostic} (h : s.returnDiagnostics = .ok ds) :
    (ds.map (·.kind)).Sublist [.singleReturn] := by
  unfold returnDiagnostics at h
  split at h
  next n _ =>
    split at h
    next =>
      obtain ⟨extent, -, ⟨⟩⟩ := bind_eq_ok.mp h
      exact List.Sublist.refl _
    next =>
      cases h
      exact List.nil_sublist _
  next =>
    cases h
    exact List.nil_sublist _

theorem kinds_boundaryDiagnostics {allowed : Bool} {message : String} {node : Option Nat}
    {start stop : Int} {ds : List Diagnostic}
    (h : boundaryDiagnostics allowed message node start stop = .ok ds) :
    (ds.map (·.kind)).Sublist [.invalidBoundary] := by
  unfold boundaryDiagnostics at h
  split at h
  next =>
    cases h
    exact List.nil_sublist _
  next =>
    obtain ⟨extent, -, ⟨⟩⟩ := bind_eq_ok.mp h
    exact List.Sublist.refl _

theorem Reports.diagnostics_eq_nil (h : s.Reports) (hnone : s.first = none) :
    s.diagnostics = [] := by
  have hkinds := h.kinds
  have hnil : s.phase.reportable = [] := by
    rcases h.begun hnone with hphase | hphase <;> rw [hphase] <;> rfl
  rw [hnil] at hkinds
  exact List.map_eq_nil_iff.mp (List.sublist_nil.mp hkinds)

theorem validated_of_first_eq_none (sel : Extent) (boundaries : Boundaries)
    (hnone : s.first = none) :
    ∃ d : Diagnostic, d.kind = .noEnclosingMethod ∧ s.validated sel boundaries =
      .ok (s.diagnostics ++ [d]) := by
  unfold validated
  split
  next hfirst =>
    rw [hnone] at hfirst
    cases hfirst
  next => exact ⟨_, rfl, rfl⟩

/-- Validation adds a single return and the two ends of the selection to what the traversal
reported. -/
theorem validated_eq_append {boundaries : Boundaries} {m first : Node} {ds : List Diagnostic}
    (hmethod : s.method = some m) (hfirst : s.first = some first)
    (h : s.validated sel boundaries = .ok ds) :
    ∃ found, ds = s.diagnostics ++ found ∧
      (found.map (·.kind)).Sublist [.singleReturn, .invalidBoundary, .invalidBoundary] := by
  simp only [Trace.validated, hfirst, hmethod, bind_eq_ok] at h
  obtain ⟨single, hsingle, start, hstart, stop, hstop, ⟨⟩⟩ := h
  refine ⟨single ++ start ++ stop, by simp, ?_⟩
  have hall := ((kinds_returnDiagnostics hsingle).append (kinds_boundaryDiagnostics hstart)).append
    (kinds_boundaryDiagnostics hstop)
  simpa [List.map_append] using hall

theorem Reports.validated {boundaries : Boundaries} {ds : List Diagnostic} (h : s.Reports)
    (hds : s.validated sel boundaries = .ok ds) :
    (s.first = none ∧ ds.map (·.kind) = [.noEnclosingMethod]) ∨
      (s.first ≠ none ∧ (ds.map (·.kind)).Sublist reportable ∧
        ∀ kind ∈ [.mixedParents, .endsMidStatement],
        kind ∈ ds.map (·.kind) ↔ s.has kind = true) := by
  cases hfirst : s.first with
  | none =>
    obtain ⟨d, hd, hvalidated⟩ := validated_of_first_eq_none sel boundaries hfirst
    rw [hds] at hvalidated
    cases hvalidated
    simp [h.diagnostics_eq_nil hfirst, hd]
  | some first =>
    cases hmethod : s.method with
    | none =>
      rw [h.inside hmethod] at hfirst
      cases hfirst
    | some m =>
      obtain ⟨found, rfl, hfound⟩ := validated_eq_append hmethod hfirst hds
      have hphase : s.phase.reportable.Sublist [.mixedParents, .endsMidStatement] := by
        cases s.phase <;> decide
      refine Or.inr ⟨nofun, ?_, fun kind hkind => ?_⟩
      · rw [List.map_append]
        exact (h.kinds.trans hphase).append hfound
      · have hearly : ∀ kind ∈ [DiagnosticKind.mixedParents, .endsMidStatement],
            kind ∉ [DiagnosticKind.singleReturn, .invalidBoundary, .invalidBoundary] := by
          decide
        have hnot : kind ∉ found.map (·.kind) := fun hmem => hearly kind hkind (hfound.subset hmem)
        rw [List.map_append, List.mem_append, or_iff_left hnot, ← not_iff_not, ← has_eq_false,
          Bool.not_eq_true]

/-- What is found about the results of the selection: an ambiguity comes at most once, and with it
at most once that there are several results. -/
def yieldable : List (List DiagnosticKind) :=
  [[], [.ambiguousReturnValue], [.ambiguousReturnValue, .multipleReturnCandidates],
    [.multipleReturnCandidates, .ambiguousReturnValue]]

theorem subperm_of_mem_yieldable {results : List DiagnosticKind} (h : results ∈ yieldable) :
    results.Subperm [.ambiguousReturnValue, .multipleReturnCandidates] := by
  revert results
  decide

def flowKinds (flow : Flow) : List DiagnosticKind :=
  (if flow.mode = .someReturn then [.partialReturn] else []) ++
    if flow.openBranches = [] then [] else [.unresolvedBranch]

theorem kinds_flowDiagnostics (sel : Extent) (flow : Flow) :
    (flowDiagnostics sel flow).map (·.kind) = flowKinds flow := by
  unfold flowDiagnostics flowKinds
  split <;> split <;> rfl

theorem flowKinds_sublist (flow : Flow) :
    (flowKinds flow).Sublist [.partialReturn, .unresolvedBranch] := by
  unfold flowKinds
  split <;> split <;> decide

theorem kinds_results (sel : Extent) (expression variableValue returns : Bool)
    (candidates : List Binding) {earlier : List Diagnostic}
    (hnew : .ambiguousReturnValue ∉ earlier.map (·.kind)) :
    (candidateDiagnostics sel candidates ++
      yieldDiagnostics sel expression variableValue returns
        (earlier ++ candidateDiagnostics sel candidates)).map (·.kind) ∈ yieldable := by
  have hany : (earlier.any fun d => d.kind = .ambiguousReturnValue) = false := by
    simpa [List.any_eq_false] using hnew
  unfold candidateDiagnostics yieldDiagnostics
  split <;> split <;> simp [hany, yieldable]

theorem enclosed_of_reportable {ds : List Diagnostic} (hds : (ds.map (·.kind)).Sublist reportable) :
    (ds.any fun d => d.kind = .noEnclosingMethod) = false := by
  have hnot : DiagnosticKind.noEnclosingMethod ∉ ds.map (·.kind) := fun hmem => by
    simpa [reportable] using hds.subset hmem
  simpa [List.any_eq_false] using hnot

theorem kinds_verdict (s : Trace) (sel : Extent) {ds : List Diagnostic}
    (hds : (ds.map (·.kind)).Sublist reportable) :
    ∃ results ∈ yieldable,
      (s.verdict sel ds).kinds = ds.map (·.kind) ++ flowKinds
      (s.verdict sel ds).flow ++ results := by
  have hnew (flow : Flow) : .ambiguousReturnValue ∉ (ds ++ flowDiagnostics sel flow).map
      (·.kind) := by
    rw [List.map_append, kinds_flowDiagnostics, List.mem_append]
    rintro (hmem | hmem)
    · simpa [reportable] using hds.subset hmem
    · simpa using (flowKinds_sublist flow).subset hmem
  have hresults := kinds_results sel s.isExpression
    (Locals.ofEvents s.events.toList).returnValue.isSome
    (decide ((Returns.ofEvents s.events.toList).flow.mode = .allReturn))
      (Locals.ofEvents s.events.toList).candidates
    (hnew (Returns.ofEvents s.events.toList).flow)
  refine ⟨_, hresults, ?_⟩
  simp [verdict, enclosed_of_reportable hds, Verdict.kinds, kinds_flowDiagnostics]

theorem verdict_of_not_enclosed {ds : List Diagnostic}
    (hds : ds.map (·.kind) = [.noEnclosingMethod]) :
    (s.verdict sel ds).kinds = [.noEnclosingMethod] := by
  have hany : (ds.any fun d => d.kind = .noEnclosingMethod) = true := by
    have hmem : DiagnosticKind.noEnclosingMethod ∈ ds.map (·.kind) :=
      hds ▸ List.mem_singleton_self _
    simpa [List.any_eq_true] using hmem
  simp [verdict, hany, Verdict.kinds, hds]

theorem mem_validated {boundaries : Boundaries} {ds : List Diagnostic}
    (h : s.validated sel boundaries = .ok ds) :
    ∀ d ∈ s.diagnostics, d ∈ ds := by
  intro d hd
  unfold validated at h
  split at h
  next =>
    simp only [bind_eq_ok] at h
    obtain ⟨single, -, start, -, stop, -, ⟨⟩⟩ := h
    simp [hd]
  next =>
    cases h
    simp [hd]

theorem mem_verdict_diagnostics {ds : List Diagnostic} {d : Diagnostic} (hd : d ∈ ds) :
    d ∈ (s.verdict sel ds).diagnostics := by
  simp only [verdict]
  split
  · exact hd
  · simp [hd]

/-- What the traversal and validation find, the verdict repeats, and nothing adds to it. -/
theorem mem_kinds_verdict {ds : List Diagnostic} (hds : (ds.map (·.kind)).Sublist reportable)
    {kind : DiagnosticKind} (hkind : kind ∈ reportable) :
    kind ∈ (s.verdict sel ds).kinds ↔ kind ∈ ds.map (·.kind) := by
  obtain ⟨results, hresults, hkinds⟩ := kinds_verdict s sel hds
  have hapart : ∀ kind ∈ reportable, kind ∉ [DiagnosticKind.partialReturn, .unresolvedBranch] ∧
      kind ∉ [DiagnosticKind.ambiguousReturnValue, .multipleReturnCandidates] := by
    decide
  have hflow : kind ∉ flowKinds (s.verdict sel ds).flow := fun hmem =>
    (hapart kind hkind).1 ((flowKinds_sublist _).subset hmem)
  have hyield : kind ∉ results := fun hmem =>
    (hapart kind hkind).2 ((subperm_of_mem_yieldable hresults).subset hmem)
  simp [hkinds, hflow, hyield]

end Trace

end Extraction
