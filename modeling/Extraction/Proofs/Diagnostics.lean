import Extraction.Proofs.Totality

/-!
# The diagnostics of a verdict

The kinds of all diagnostics come in a fixed order, each once, apart from the two ends of the
selection.
-/

namespace Extraction

variable {t : SyntaxTree} {sel : Extent} {boundaries : Boundaries} {w : Verdict}

/-- A selection outside every method has that one diagnostic.  For any other, what the traversal
found stands before what is found about the flow, and this before what is found about the
results. -/
theorem kinds_of_analyze (h : analyze t sel boundaries = .ok w) :
    w.kinds = [.noEnclosingMethod] ∨
      ∃ found results, found.Sublist Trace.reportable ∧ results ∈ Trace.yieldable ∧
        w.kinds = found ++ Trace.flowKinds w.flow ++ results := by
  obtain ⟨-, ds, hds, rfl⟩ := Trace.analyze_eq_ok.mp h
  rcases (Trace.reports_ofSelection t sel).validated hds with ⟨-, hnone⟩ | ⟨-, hfound, -⟩
  · exact Or.inl (Trace.verdict_of_not_enclosed hnone)
  · obtain ⟨results, hresults, hkinds⟩ := Trace.kinds_verdict (Trace.ofSelection t sel) sel hfound
    exact Or.inr ⟨_, results, hfound, hresults, hkinds⟩

namespace Trace

theorem mem_flowKinds (flow : Flow) :
    .partialReturn ∈ flowKinds flow ∨ .unresolvedBranch ∈ flowKinds flow ↔ ¬ flow.Extractable := by
  unfold flowKinds Flow.Extractable
  split <;> split <;> simp [*]

theorem ambiguous_of_mem_yieldable {results : List DiagnosticKind} (h : results ∈ yieldable) :
    .multipleReturnCandidates ∈ results → .ambiguousReturnValue ∈ results := by
  revert results
  decide

end Trace

/-- The diagnostics of a verdict agree with each other and with the flow of the selection. -/
theorem kinds_consistent (h : analyze t sel boundaries = .ok w) :
    (w.Legal ↔ w.kinds = []) ∧
    (∀ kind, kind ≠ .invalidBoundary → w.kinds.count kind ≤ 1) ∧
    w.kinds.count .invalidBoundary ≤ 2 ∧
    (.noEnclosingMethod ∈ w.kinds → w.kinds = [.noEnclosingMethod]) ∧
    (.multipleReturnCandidates ∈ w.kinds → .ambiguousReturnValue ∈ w.kinds) ∧
    (.partialReturn ∈ w.kinds ∨ .unresolvedBranch ∈ w.kinds ↔
      ¬ w.flow.Extractable ∧ .noEnclosingMethod ∉ w.kinds) := by
  have hlegal : w.Legal ↔ w.kinds = [] := by
    simp [Verdict.Legal, Verdict.kinds]
  rcases kinds_of_analyze h with hnone | ⟨found, results, hfound, hresults, hkinds⟩
  · refine ⟨hlegal, fun kind _ => ?_, ?_, fun _ => hnone, ?_, ?_⟩
    · rw [hnone]
      exact List.count_le_length
    · simp [hnone]
    · simp [hnone]
    · simp [hnone]
  · have hflow := Trace.flowKinds_sublist w.flow
    have hyield := Trace.subperm_of_mem_yieldable hresults
    have hall : w.kinds.Subperm (Trace.reportable ++ [.partialReturn, .unresolvedBranch] ++
        [.ambiguousReturnValue, .multipleReturnCandidates]) := by
      rw [hkinds]
      exact (hfound.append hflow).subperm.append hyield
    have henclosed : .noEnclosingMethod ∉ w.kinds := fun hmem => by
      simpa [Trace.reportable] using hall.subset hmem
    refine ⟨hlegal, fun kind hkind => ?_, ?_, fun hmem => absurd hmem henclosed, fun hmem => ?_, ?_⟩
    · apply Nat.le_trans (hall.count_le kind)
      cases kind <;> simp [Trace.reportable] at hkind ⊢
    · exact hall.count_le _
    · have hmultiple : .multipleReturnCandidates ∈ results := by
        rw [hkinds, List.mem_append, List.mem_append] at hmem
        rcases hmem with (hmem | hmem) | hmem
        · simpa [Trace.reportable] using hfound.subset hmem
        · simpa using hflow.subset hmem
        · exact hmem
      rw [hkinds]
      exact List.mem_append_right _ (Trace.ambiguous_of_mem_yieldable hresults hmultiple)
    · have hmem {kind : DiagnosticKind} (hnot : kind ∉ Trace.reportable)
          (hnot' : kind ∉ [DiagnosticKind.ambiguousReturnValue, .multipleReturnCandidates]) :
          kind ∈ w.kinds ↔ kind ∈ Trace.flowKinds w.flow := by
        have hfound' : kind ∉ found := fun hmem => hnot (hfound.subset hmem)
        have hresults' : kind ∉ results := fun hmem => hnot' (hyield.subset hmem)
        simp [hkinds, hfound', hresults']
      rw [hmem (by decide) (by decide), hmem (by decide) (by decide), Trace.mem_flowKinds]
      exact (and_iff_left henclosed).symm

/-- A conditional return and a jump out of the method, then a block that begins before both of
them. -/
def straying : List Addition :=
  [⟨-1, { kind := .file }, 0, 60⟩, ⟨0, { kind := .method }, 0, 60⟩,
    ⟨1, { kind := .block, role := .body }, 0, 60⟩, ⟨2, { kind := .ifStmt }, 10, 30⟩,
    ⟨3, { kind := .block, role := .thenBranch }, 12, 20⟩,
    ⟨4, { kind := .returnStmt }, 14, 18⟩, ⟨2, { kind := .breakStmt }, 30, 35⟩,
      ⟨2, { kind := .block }, 5, 40⟩,
    ⟨7, { kind := .exprStmt }, 36, 38⟩]

theorem straying_diagnosed :
    ∃ t w, SyntaxTree.grow (straying.map fun e => (e.parent, e.node)) = .ok t ∧
    analyze t ⟨9, 41⟩ ⟨fun _ => false, fun _ _ => false⟩ = .ok w ∧
    w.kinds = [.mixedParents, .invalidBoundary, .invalidBoundary, .partialReturn,
      .unresolvedBranch] ∧
    ¬ w.Legal ∧ ¬ w.flow.Extractable ∧ w.kinds.count .invalidBoundary ≤ 2 := by
  have hrun : ((SyntaxTree.grow (straying.map fun e => (e.parent, e.node))).bind fun t =>
      (analyze t ⟨9, 41⟩ ⟨fun _ => false, fun _ _ => false⟩).map Verdict.kinds) =
        .ok [.mixedParents, .invalidBoundary, .invalidBoundary, .partialReturn,
        .unresolvedBranch] := by
    decide +kernel
  obtain ⟨t, ht, hrun⟩ := bind_eq_ok.mp hrun
  obtain ⟨w, hw, hkinds⟩ := map_eq_ok.mp hrun
  obtain ⟨hlegal, -, hboundary, -, -, hflow⟩ := kinds_consistent hw
  have hpartial : .partialReturn ∈ w.kinds := by
    rw [hkinds]
    decide
  refine ⟨t, w, ht, hw, hkinds, ?_, (hflow.mp (Or.inl hpartial)).1, hboundary⟩
  rw [hlegal, hkinds]
  decide

end Extraction
