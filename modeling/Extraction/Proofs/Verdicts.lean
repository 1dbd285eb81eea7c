import Extraction.Proofs.Legality
import Extraction.Proofs.Reported

/-!
# Verdicts on selections

Every selection of a laid-out tree has a verdict.  Its method is the innermost function that
encloses the selection, and it is legal exactly if the selection is admissible.
-/

namespace Extraction

namespace Trace

open SyntaxTree

variable {sel : Extent} {path : List Node} {f : SyntaxTree} {offset : Int} {id a b : Nat}

theorem verdict_selected (s : Trace) (sel : Extent) (ds : List Diagnostic) :
    (s.verdict sel ds).selected = s.topLevel.map (·.id) := by
  rw [verdict]
  split <;> rfl

theorem verdict_method (s : Trace) (sel : Extent) (ds : List Diagnostic) :
    (s.verdict sel ds).method = s.method.map (·.id) := by
  rw [verdict]
  split <;> rfl

theorem verdict_flow (s : Trace) (sel : Extent) {ds : List Diagnostic}
    (hds : (ds.any fun d => d.kind = .noEnclosingMethod) = false) :
    (s.verdict sel ds).flow = (Returns.ofEvents s.events.toList).flow := by
  rw [verdict, hds]
  rfl

theorem verdict_variables (s : Trace) (sel : Extent) {ds : List Diagnostic}
    (hds : (ds.any fun d => d.kind = .noEnclosingMethod) = false) :
    (s.verdict sel ds).returnValue = (Locals.ofEvents s.events.toList).returnValue ∧
      (s.verdict sel ds).arguments = (Locals.ofEvents s.events.toList).arguments sel := by
  rw [verdict, hds]
  exact ⟨rfl, rfl⟩

theorem Located.verdict_method {s : Trace} {m : Place} (hl : Located sel m a b s)
    (ds : List Diagnostic) :
    (s.verdict sel ds).method = some m.node.id := by
  rw [Trace.verdict_method, hl.method]
  rfl

theorem analyze_eq_ok {t : SyntaxTree} {boundaries : Boundaries} {w : Verdict} :
    analyze t sel boundaries = .ok w ↔ (ofSelection t sel).fault = none ∧
      ∃ ds, (ofSelection t sel).validated sel boundaries = .ok ds ∧
      (ofSelection t sel).verdict sel ds = w := by
  simp only [analyze]
  cases hfault : (ofSelection t sel).fault with
  | some fault => simp
  | none => simp [map_eq_ok]

theorem analyze_of_validated {t : SyntaxTree} {boundaries : Boundaries} {ds : List Diagnostic}
    (hfault : (ofSelection t sel).fault = none)
    (hds : (ofSelection t sel).validated sel boundaries = .ok ds) :
    analyze t sel boundaries = .ok ((ofSelection t sel).verdict sel ds) :=
  analyze_eq_ok.mpr ⟨hfault, ds, hds, rfl⟩

theorem exists_located_of_analyze {t : SyntaxTree} {boundaries : Boundaries} {w : Verdict}
    (h : Laid 0 0 t.first) (hw : analyze t sel boundaries = .ok w) (hselected : w.selected ≠ []) :
    ∃ m a b ds, m ∈ places t.first ∧ Located sel m a b (ofSelection t sel) ∧
      (ds.any fun d => d.kind = .noEnclosingMethod) = false ∧
      w = (ofSelection t sel).verdict sel ds := by
  obtain ⟨-, ds, hvalidated, rfl⟩ := analyze_eq_ok.mp hw
  have hreports := reports_ofSelection t sel
  have hfirst : (ofSelection t sel).first ≠ none := by
    intro hnone
    rw [verdict_selected, hreports.topLevel hnone] at hselected
    exact hselected rfl
  have hboth : Enclosed sel t.first ∧ ∃ n ∈ t.first.toList, sel.Covers n.start n.stop := by
    apply Classical.byContradiction
    intro hnot
    exact hfirst (ofSelection_first_eq_none h hnot).2
  obtain ⟨m, a, b, hm, -, hl⟩ := exists_located h hboth.1 hboth.2
  rcases hreports.validated hvalidated with ⟨hnone, -⟩ | ⟨-, hfound, -⟩
  · exact absurd hnone hfirst
  · exact ⟨m, a, b, ds, hm, hl, enclosed_of_reportable hfound, rfl⟩

/-- Every analysis of a laid-out tree has a verdict.  Either a method is located and the verdict is
that of its trace, or nothing is selected and the verdict says no more than that. -/
theorem exists_analysis {t : SyntaxTree} (sel : Extent) (boundaries : Boundaries)
    (h : Laid 0 0 t.first) :
    ∃ w, analyze t sel boundaries = .ok w ∧
      ((∃ m a b ds, m ∈ places t.first ∧ Located sel m a b (ofSelection t sel) ∧
          Enclosed sel t.first ∧
          (∃ n ∈ t.first.toList, sel.Covers n.start n.stop) ∧
            (ofSelection t sel).validated sel boundaries = .ok ds ∧
          (ds.any fun d => d.kind = .noEnclosingMethod) = false ∧
          w = (ofSelection t sel).verdict sel ds) ∨
        ((w.method = none ∨ ∀ n ∈ t.first.toList, ¬ sel.Covers n.start n.stop) ∧
          ∃ (d : Diagnostic) (method : Option Nat), d.kind = .noEnclosingMethod ∧
            w = { diagnostics := [d], method })) := by
  have hreports := reports_ofSelection t sel
  by_cases hboth : Enclosed sel t.first ∧ ∃ n ∈ t.first.toList, sel.Covers n.start n.stop
  · obtain ⟨m, a, b, hm, -, hl⟩ := exists_located h hboth.1 hboth.2
    obtain ⟨first, more, hpicked⟩ := List.exists_cons_of_ne_nil (hl.picked_ne_nil h hm hboth.2)
    have hfirst : (ofSelection t sel).first = some first.node := by
      rw [hl.gathers.first, hpicked]; rfl
    have hcovers := hl.selected_covers
      (hpicked ▸ List.mem_cons_self : first ∈ picked sel a b m.inner)
    obtain ⟨ds, hds, -⟩ := validated_eq_ok boundaries hl.method hfirst (by
      intro n hn
      rw [hl.gathers.topLevel] at hn
      obtain ⟨p, hp, rfl⟩ := List.mem_map.mp hn
      exact start_le_stop h (inner_subset hm p (mem_picked.mp hp).1)) hcovers.1
    refine ⟨(ofSelection t sel).verdict sel ds, analyze_of_validated hl.fault hds,
      Or.inl ⟨m, a, b, ds, hm, hl, hboth.1, hboth.2, hds, ?_, rfl⟩⟩
    rcases hreports.validated hds with ⟨hnone, -⟩ | ⟨-, hfound, -⟩
    · rw [hfirst] at hnone
      cases hnone
    · exact enclosed_of_reportable hfound
  · obtain ⟨hfault, hnone⟩ := ofSelection_first_eq_none h hboth
    obtain ⟨d, hd, hvalidated⟩ := validated_of_first_eq_none sel boundaries hnone
    rw [hreports.diagnostics_eq_nil hnone, List.nil_append] at hvalidated
    have hverdict : (ofSelection t sel).verdict sel [d] =
        { diagnostics := [d], method := (ofSelection t sel).method.map (·.id) } := by
      rw [verdict, if_pos (by simp [hd]), hreports.topLevel hnone]
      rfl
    refine ⟨(ofSelection t sel).verdict sel [d], analyze_of_validated hfault hvalidated,
      Or.inr ⟨?_, d, _, hd, hverdict⟩⟩
    by_cases hcovered : ∃ n ∈ t.first.toList, sel.Covers n.start n.stop
    · have hfree : ¬ Enclosed sel t.first := fun henclosed => hboth ⟨henclosed, hcovered⟩
      rw [hverdict, ofSelection_of_not_enclosed hfree]
      exact Or.inl rfl
    · exact Or.inr fun n hn hcover => hcovered ⟨n, hn, hcover⟩

end Trace

/-- The verdict names the innermost function that encloses the selection, and none if no such
function is in reach. -/
structure Verdict.NamesMethod (w : Verdict) (t : SyntaxTree) (sel : Extent) : Prop where
  found : Trace.Enclosed sel t → ∃ m ∈ t.places, Trace.enclosesSelection sel m = true ∧
    (∀ p ∈ m.inner, Trace.enclosesSelection sel p = false) ∧ w.method = some m.node.id
  missing : ¬ Trace.Enclosed sel t → w.method = none

theorem Verdict.NamesMethod.method_ne_none {w : Verdict} {t : SyntaxTree} {sel : Extent}
    (h : w.NamesMethod t sel) (henclosed : Trace.Enclosed sel t) : w.method ≠ none := by
  obtain ⟨m, -, -, -, hmethod⟩ := h.found henclosed
  simp [hmethod]

theorem Trace.namesMethod_of_analyze {t : SyntaxTree} {sel : Extent} {boundaries : Boundaries}
    {w : Verdict} (h : SyntaxTree.Laid 0 0 t.first) (hw : analyze t sel boundaries = .ok w) :
    w.NamesMethod t.first sel := by
  obtain ⟨-, ds, -, rfl⟩ := analyze_eq_ok.mp hw
  refine ⟨fun henclosed => ?_, fun hfree => ?_⟩
  · obtain ⟨m, a, b, hm, hinnermost, hl⟩ := exists_innermost h henclosed
    exact ⟨m, hm, hl.encloses, hinnermost, hl.verdict_method ds⟩
  · rw [verdict_method, ofSelection_of_not_enclosed hfree]
    rfl

namespace Trace

open SyntaxTree

variable {s : Sketch} {sel : Extent} {a b : Nat} {m : Place}

theorem Located.selected_eq (hm : m ∈ s.layout.places)
    (hl : Located sel m a b (ofSelection s.layout sel)) (hcut : s.layout.Uncut sel)
    (ds : List Diagnostic) :
    ((ofSelection s.layout sel).verdict sel ds).selected = (s.layout.maximalCovered sel).map
      (·.node.id) := by
  have h : Laid 0 0 s.layout := laid_layout s
  have hmax : s.layout.maximalCovered sel = picked sel a b m.inner :=
    hl.maximalCovered_eq h hm ((hl.uncut_iff h hm).mp hcut)
  rw [verdict_selected, hl.gathers.topLevel, hmax, List.map_map]
  rfl

theorem maximalCovered_eq_nil {t : SyntaxTree}
    (hnone : ∀ n ∈ t.toList, ¬ sel.Covers n.start n.stop) :
    t.maximalCovered sel = [] := by
  apply List.filter_eq_nil_iff.mpr
  intro p hp hcond
  exact hnone _ (node_mem_of_mem_placesBelow hp) (of_decide_eq_true hcond).1

theorem selected_of_analyze {boundaries : Boundaries} {w : Verdict}
    (hw : analyze s.layout sel boundaries = .ok w) (henclosed : Enclosed sel s.layout)
    (hcut : s.layout.Uncut sel) :
    w.selected = (s.layout.maximalCovered sel).map (·.node.id) := by
  have h : Laid 0 0 s.layout := laid_layout s
  have hmethod := (namesMethod_of_analyze (t := s.layout) h hw).method_ne_none henclosed
  obtain ⟨w', hw', hcases⟩ := exists_analysis (t := s.layout) sel boundaries h
  obtain rfl : w = w' := Except.ok.inj (hw.symm.trans hw')
  rcases hcases with ⟨m, a, b, ds, hm, hl, -, -, -, -, rfl⟩ | ⟨hnone, d, method, -, rfl⟩
  · exact hl.selected_eq hm hcut ds
  · rw [maximalCovered_eq_nil (t := s.layout) (hnone.resolve_left hmethod)]
    rfl

end Trace

/-- Every selection of every tree has a verdict, which is legal exactly if the selection is
admissible.  If a function encloses the selection and a node is covered, the verdict has the flow of
the selection and returns its only candidate. -/
theorem legal_iff_admissible (s : Sketch) (sel : Extent) (boundaries : Boundaries) :
    ∃ w, analyze s.layout sel boundaries = .ok w ∧ (w.Legal ↔ Admissible s.layout sel boundaries) ∧
      (Trace.Enclosed sel s.layout → (∃ n ∈ s.layout.toList, sel.Covers n.start n.stop) →
        w.flow = (Returns.ofEvents (Trace.ofSelection s.layout sel).events.toList).flow ∧
          ∀ b, w.returnValue = some b ↔
            (Locals.ofEvents (Trace.ofSelection s.layout sel).events.toList).IsCandidate b ∧
            ∀ c, (Locals.ofEvents (Trace.ofSelection s.layout sel).events.toList).IsCandidate c →
              c = b) := by
  have h : SyntaxTree.Laid 0 0 s.layout := SyntaxTree.laid_layout s
  obtain ⟨w, hw, hcases⟩ := Trace.exists_analysis (t := s.layout) sel boundaries h
  refine ⟨w, hw, ?_⟩
  rcases hcases with ⟨m, a, b, ds, hm, hl, henclosed, hcovered, hds, hany, rfl⟩
    | ⟨hnone, d, method, -, rfl⟩
  · obtain ⟨ds', hds', hiff⟩ := hl.legal_iff (t := s.layout) boundaries rfl h henclosed hcovered hm
    obtain rfl : ds = ds' := Except.ok.inj (hds.symm.trans hds')
    refine ⟨hiff, fun _ _ => ⟨Trace.verdict_flow _ _ hany, fun b => ?_⟩⟩
    rw [(Trace.verdict_variables _ _ hany).1]
    exact Locals.returnValue_eq_some_iff
  · have hfree : Trace.Enclosed sel s.layout →
        ¬ ∃ n ∈ s.layout.toList, sel.Covers n.start n.stop := by
      rintro henclosed ⟨n, hn, hcover⟩
      have hmethod := (Trace.namesMethod_of_analyze (t := s.layout) h hw).method_ne_none henclosed
      exact hnone.resolve_left hmethod n hn hcover
    refine ⟨iff_of_false (List.cons_ne_nil _ _) fun hadm => hfree hadm.enclosed hadm.covered,
      fun henclosed hcovered => ?_⟩
    exact absurd hcovered (hfree henclosed)

/-- A variable is declared, given a value and used. -/
def handedOn : Sketch :=
  let x : Binding := { key := 0, name := "x" }
  .file [some (.method "m" true [] [some (.declare (some x) none),
    some (.assign false (some x) (some (.operation []))),
    some (.eval (some (.call "use" [] [some (.ref (some x))])))])]

/-- The assignment can be extracted, and its value is returned. -/
theorem handedOn_admissible : ∃ w, analyze handedOn.layout ⟨7, 8⟩ .everywhere = .ok w ∧ w.Legal ∧
    w.returnValue.map (·.name) = some "x" ∧ Admissible handedOn.layout ⟨7, 8⟩ .everywhere := by
  have hrun : (analyze handedOn.layout ⟨7, 8⟩ .everywhere).map
      (fun w => (w.diagnostics, w.returnValue.map (·.name))) = .ok ([], some "x") := by
    decide +kernel
  obtain ⟨w, hw, hlegal, -⟩ := legal_iff_admissible handedOn ⟨7, 8⟩ .everywhere
  rw [hw] at hrun
  obtain ⟨hdiagnostics, hreturn⟩ := Prod.mk.inj (Except.ok.inj hrun)
  exact ⟨w, hw, hdiagnostics, hreturn, hlegal.mp hdiagnostics⟩

end Extraction
