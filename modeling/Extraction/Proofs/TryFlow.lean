import Extraction.Proofs.FlowRules
import Extraction.Proofs.Legality
import Extraction.Proofs.Paths
import Mathlib.Data.Set.Insert

/-!
# Flows as summaries of outcomes

A flow summarizes a set of outcomes if it excludes none of them.  The outcomes of a `try` statement
are those of its body and its handlers, each followed by the final block, whose abrupt outcomes
replace them.  If the flows of the parts summarize their outcomes, then so does the flow of the
statement, with one exception: a final block that returns on some paths only is not taken into the
mode.
-/

namespace Extraction

/-- The mode does not exclude a return; an unknown mode excludes nothing. -/
def ReturnMode.AdmitsReturn (m : ReturnMode) : Prop :=
  m ≠ .noReturn ∧ m ≠ .throws

theorem ReturnMode.admitsReturn_merge {a b : ReturnMode} :
    (a.merge b).AdmitsReturn ↔ a.AdmitsReturn ∨ b.AdmitsReturn := by
  cases a <;> cases b <;> simp [ReturnMode.merge, AdmitsReturn]
  split <;> simp

namespace Flow

/-- The flow excludes none of the outcomes. -/
structure Summarizes (f : Flow) (outcomes : Set Ending) : Prop where
  completes : .normal ∈ outcomes → f.mode.Completes
  admitsReturn : .returned ∈ outcomes → f.mode.AdmitsReturn
  open_of_jumped : ∀ b, .jumped b ∈ outcomes → b ∈ f.openBranches

theorem Summarizes.mono {f : Flow} {outcomes fewer : Set Ending} (h : f.Summarizes outcomes)
    (hsub : fewer ⊆ outcomes) : f.Summarizes fewer where
  completes hnormal := h.completes (hsub hnormal)
  admitsReturn hreturned := h.admitsReturn (hsub hreturned)
  open_of_jumped b hb := h.open_of_jumped b (hsub hb)

theorem admitsReturn_alternatives {flows : List Flow} :
    (alternatives flows).mode.AdmitsReturn ↔ ∃ f ∈ flows, f.mode.AdmitsReturn := by
  have hfold : ∀ (rest : List Flow) (f : Flow),
      (rest.foldl merge f).mode.AdmitsReturn ↔ f.mode.AdmitsReturn ∨
      ∃ g ∈ rest, g.mode.AdmitsReturn := by
    intro rest
    induction rest with
    | nil => simp
    | cons g rest ih =>
      intro f
      rw [List.foldl_cons, ih, merge, ReturnMode.admitsReturn_merge]
      simp [or_assoc]
  cases flows with
  | nil => simp [alternatives, ReturnMode.AdmitsReturn]
  | cons f rest => simp [alternatives, hfold]

theorem summarizes_alternatives {fs : List FlowNode} {outcomes : FlowNode → Set Ending}
    (h : ∀ f ∈ fs, f.flow.Summarizes (outcomes f)) :
    (alternatives (fs.map (·.flow))).Summarizes {o | ∃ f ∈ fs, o ∈ outcomes f} where
  completes := by
    rintro ⟨f, hf, ho⟩
    exact completes_alternatives ⟨f.flow, List.mem_map_of_mem hf, (h f hf).completes ho⟩
  admitsReturn := by
    rintro ⟨f, hf, ho⟩
    exact admitsReturn_alternatives.mpr ⟨f.flow, List.mem_map_of_mem hf, (h f hf).admitsReturn ho⟩
  open_of_jumped := by
    rintro b ⟨f, hf, ho⟩
    exact mem_openBranches_alternatives.mpr ⟨f.flow, List.mem_map_of_mem hf,
      (h f hf).open_of_jumped b ho⟩

end Flow

/-- The outcomes of a fragment that ends with `o` and is followed by a final block. -/
def Ending.followedBy (o : Ending) (final : Set Ending) : Set Ending :=
  {r | r = o ∧ .normal ∈ final ∨ r ∈ final ∧ r ≠ .normal}

namespace FlowNode

def attempts (parts : List FlowNode) : List FlowNode :=
  parts.filter fun f => !(f.node.kind == .finallyClause) &&
    (f.node.role == .body || f.node.kind == .catchClause)

def final? (parts : List FlowNode) : Option FlowNode :=
  (parts.filter fun f => f.node.kind == .finallyClause).getLast?

/-- The outcomes of a `try` statement whose parts have the given ones. -/
def tryOutcomes (outcomes : FlowNode → Set Ending) (parts : List FlowNode) : Set Ending :=
  {r | ∃ f ∈ attempts parts, ∃ o ∈ outcomes f,
    match final? parts with
    | none => r = o
    | some final => r ∈ o.followedBy (outcomes final)}

theorem mem_of_final? {parts : List FlowNode} {final : FlowNode} (h : final? parts = some final) :
    final ∈ parts :=
  (List.mem_filter.mp (List.mem_of_getLast? h)).1

end FlowNode

namespace Flow

open FlowNode

variable {parts : List FlowNode} {outcomes : FlowNode → Set Ending}

theorem ofTry_eq_of_none (h : final? parts = none) :
    ofTry parts = alternatives ((attempts parts).map (·.flow)) := by
  simp only [ofTry]
  rw [show (parts.filter fun f => f.node.kind == .finallyClause).getLast? = none from h]
  rfl

theorem ofTry_eq_of_some {final : FlowNode} (h : final? parts = some final) :
    ofTry parts =
      let flow := alternatives ((attempts parts).map (·.flow))
      if final.flow.mode = .allReturn ∨ final.flow.mode = .throws then final.flow
      else
        { flow with openBranches := joinBranches flow.openBranches final.flow.openBranches } := by
  simp only [ofTry]
  rw [show (parts.filter fun f => f.node.kind == .finallyClause).getLast? = some final from h]
  rfl

theorem tryOutcomes_of_none (h : final? parts = none) :
    tryOutcomes outcomes parts = {o | ∃ f ∈ attempts parts, o ∈ outcomes f} := by
  simp [tryOutcomes, h]

theorem tryOutcomes_of_some {final : FlowNode} (h : final? parts = some final) :
    tryOutcomes outcomes parts =
      {r | (∃ f ∈ attempts parts, r ∈ outcomes f) ∧ .normal ∈ outcomes final ∨
        (∃ f ∈ attempts parts, (outcomes f).Nonempty) ∧ r ∈ outcomes final ∧ r ≠ .normal} := by
  ext r
  simp only [tryOutcomes, h, Ending.followedBy, Set.mem_ofPred_eq]
  constructor
  · rintro ⟨f, hf, o, ho, ⟨rfl, hnormal⟩ | hr⟩
    · exact Or.inl ⟨⟨f, hf, ho⟩, hnormal⟩
    · exact Or.inr ⟨⟨f, hf, o, ho⟩, hr⟩
  · rintro (⟨⟨f, hf, hr⟩, hnormal⟩ | ⟨⟨f, hf, o, ho⟩, hr⟩)
    · exact ⟨f, hf, r, hr, Or.inl ⟨rfl, hnormal⟩⟩
    · exact ⟨f, hf, o, ho, Or.inr hr⟩

/-- The final block decides the outcome if its flow excludes normal completion. -/
theorem summarizes_of_final_replaces {final : FlowNode} (hfinal : final? parts = some final)
    (h : final.flow.Summarizes (outcomes final)) (hmode : ¬ final.flow.mode.Completes) :
    final.flow.Summarizes (tryOutcomes outcomes parts) := by
  refine h.mono ?_
  rw [tryOutcomes_of_some hfinal]
  rintro r (⟨-, hnormal⟩ | ⟨-, hr, -⟩)
  · exact absurd (h.completes hnormal) hmode
  · exact hr

/-- A final block that may complete adds its jumps, and its returns only where a part before it may
return. -/
theorem summarizes_of_final_adds {final : FlowNode} (hfinal : final? parts = some final)
    (h : ∀ f ∈ parts, f.flow.Summarizes (outcomes f)) :
    let flow := alternatives ((attempts parts).map (·.flow))
    ({ flow with openBranches := joinBranches flow.openBranches final.flow.openBranches } :
        Flow).Summarizes (tryOutcomes outcomes parts) ↔
      ((∃ f ∈ attempts parts, (outcomes f).Nonempty) → .returned ∈ outcomes final →
        ∃ f ∈ attempts parts, f.flow.mode.AdmitsReturn) := by
  intro flow
  have hattempts : flow.Summarizes {o | ∃ f ∈ attempts parts, o ∈ outcomes f} :=
    summarizes_alternatives fun f hf => h f (List.mem_filter.mp hf).1
  have hreturn : flow.mode.AdmitsReturn ↔ ∃ f ∈ attempts parts, f.flow.mode.AdmitsReturn := by
    simp [flow, admitsReturn_alternatives]
  rw [← hreturn, tryOutcomes_of_some hfinal]
  constructor
  · intro hs hsome hret
    exact hs.admitsReturn (Or.inr ⟨hsome, hret, by simp⟩)
  · intro hs
    refine ⟨?_, ?_, ?_⟩
    · rintro (⟨ho, -⟩ | ⟨-, -, hne⟩)
      · exact hattempts.completes ho
      · exact absurd rfl hne
    · rintro (⟨ho, -⟩ | ⟨hsome, hret, -⟩)
      · exact hattempts.admitsReturn ho
      · exact hs hsome hret
    · rintro b (⟨ho, -⟩ | ⟨-, hb, -⟩)
      · exact (mem_joinBranches _ _ _).mpr (Or.inl (hattempts.open_of_jumped b ho))
      · exact (mem_joinBranches _ _ _).mpr
          (Or.inr ((h final (mem_of_final? hfinal)).open_of_jumped b hb))

end Flow

open FlowNode Extraction.Flow Sketch

/-- The final block is reached and returns, though not by all its paths, and no part before it may
return. -/
def FlowNode.ReturnsFinally (outcomes : FlowNode → Set Ending) (parts : List FlowNode) : Prop :=
  ∃ final, final? parts = some final ∧ final.flow.mode ≠ .allReturn ∧ .returned ∈ outcomes final ∧
    (∃ f ∈ attempts parts, (outcomes f).Nonempty) ∧ ∀ f ∈ attempts parts, ¬ f.flow.mode.AdmitsReturn

/-- If the flows of the parts summarize their outcomes, then the flow of a `try` statement
summarizes the outcomes of the statement, unless its only returns are those of a final block that
does not always return. -/
theorem try_summarizes_iff {p : Place} (hp : p.node.kind = .tryStmt) {parts : List FlowNode}
    {outcomes : FlowNode → Set Ending} (h : ∀ f ∈ parts, f.flow.Summarizes (outcomes f)) :
    (Flow.ofStatement p parts).Summarizes
      (tryOutcomes outcomes parts) ↔ ¬ ReturnsFinally outcomes parts := by
  have hflow : Flow.ofStatement p parts = ofTry parts := by
    simp only [Flow.ofStatement, hp]
  rw [hflow]
  cases hfinal : final? parts with
  | none =>
    rw [ofTry_eq_of_none hfinal, tryOutcomes_of_none hfinal]
    refine iff_of_true (summarizes_alternatives fun f hf => h f (List.mem_filter.mp hf).1) ?_
    rintro ⟨final, hsome, -⟩
    rw [hfinal] at hsome
    cases hsome
  | some final =>
    have hsummary := h final (mem_of_final? hfinal)
    rw [ofTry_eq_of_some hfinal]
    simp only
    split
    next hreplaces =>
      refine iff_of_true (summarizes_of_final_replaces hfinal hsummary ?_) ?_
      · rintro ⟨hall, hthrows⟩
        exact hreplaces.elim hall hthrows
      · rintro ⟨final', hsome, hmode, hreturned, -⟩
        obtain rfl := Option.some.inj (hfinal.symm.trans hsome)
        exact hreplaces.elim hmode (hsummary.admitsReturn hreturned).2
    next hadds =>
      refine (summarizes_of_final_adds hfinal h).trans ?_
      constructor
      · rintro hreturns ⟨final', hsome, -, hreturned, hreached, hnone⟩
        obtain rfl := Option.some.inj (hfinal.symm.trans hsome)
        obtain ⟨f, hf, hadmits⟩ := hreturns hreached hreturned
        exact hnone f hf hadmits
      · intro hreturns hreached hreturned
        by_contra hnone
        refine hreturns ⟨final, hfinal, fun hmode => hadds (Or.inl hmode), hreturned, hreached, ?_⟩
        exact fun f hf hadmits => hnone ⟨f, hf, hadmits⟩

/-- A `try` statement whose final block returns if a parameter holds. -/
def returningFinally (body : Sketch) : Sketch :=
  let c : Binding := { key := 0, name := "c", kind := .parameter }
  .file [some (.method "m" true [some c] [some (.tryStmt (some (.block [some body])) []
    (some
    (.block [some (.conditional (some (.ref (some c)))
      (some (.block [some (.ret none)])) none)])))])]

/-- The outcomes of the parts of the statement, given those of its body. -/
def returningFinallyOutcomes (body : Set Ending) (f : FlowNode) : Set Ending :=
  if f.node.kind = .finallyClause then {.normal, .returned} else body

theorem returningFinally_parts {parts : List FlowNode} {body : Set Ending} {flow : Flow}
    (h : flow.Summarizes body)
    (hparts : ∀ f ∈ parts, f.flow = if f.node.kind = .finallyClause then ⟨.someReturn, []⟩
    else flow) :
    ∀ f ∈ parts, f.flow.Summarizes (returningFinallyOutcomes body f) := by
  intro f hf
  rw [hparts f hf, returningFinallyOutcomes]
  split
  · constructor <;> simp [ReturnMode.Completes, ReturnMode.AdmitsReturn]
  · exact h

/-- A body that returns itself makes up for the final block. -/
theorem returningFinally_summarizes :
    ∃ p ∈ (returningFinally (.ret none)).layout.places, p.node.kind = .tryStmt ∧
    (∀ f ∈ FlowNode.parts p.below p.children, f.flow.Summarizes
      (returningFinallyOutcomes {.returned} f)) ∧
    p.flow = ⟨.allReturn, []⟩ ∧
    p.flow.Summarizes (tryOutcomes (returningFinallyOutcomes {.returned})
        (FlowNode.parts p.below p.children)) := by
  let p : Place := (returningFinally (.ret none)).layout.places.get ⟨4, by decide⟩
  have hbody : Flow.Summarizes ⟨.allReturn, []⟩ {.returned} := by
    constructor <;> simp [ReturnMode.AdmitsReturn]
  have hparts : ∀ f ∈ FlowNode.parts p.below p.children, f.flow.Summarizes
    (returningFinallyOutcomes {.returned} f) :=
    returningFinally_parts hbody (by decide +kernel)
  refine ⟨p, List.get_mem _ _, rfl, hparts, by decide +kernel,
    (try_summarizes_iff (p := p) rfl hparts).mpr ?_⟩
  rintro ⟨-, -, -, -, -, hnone⟩
  have hreturns : ∃ f ∈ attempts (FlowNode.parts p.below p.children), f.flow.mode = .allReturn := by
    decide +kernel
  obtain ⟨f, hf, hmode⟩ := hreturns
  refine hnone f hf ?_
  simp [hmode, ReturnMode.AdmitsReturn]

/-- A legal selection of one `try` statement, with a flow that excludes a return: the flows of the
parts are summaries of outcomes with a return among them. -/
def Sketch.MissesReturn (s : Sketch) (sel : Extent) : Prop :=
  s.Built ∧ ∃ w, analyze s.layout sel .everywhere = .ok w ∧ w.Legal ∧ w.flow.mode = .noReturn ∧
    ∃ p ∈ s.layout.places, w.selected = [p.node.id] ∧ p.node.kind = .tryStmt ∧ p.flow = w.flow ∧
      ∃ outcomes, (∀ f ∈ FlowNode.parts p.below p.children, f.flow.Summarizes (outcomes f)) ∧
        .returned ∈ tryOutcomes outcomes (FlowNode.parts p.below p.children) ∧
          ¬ p.flow.Summarizes (tryOutcomes outcomes (FlowNode.parts p.below p.children))

theorem returningFinally_missesReturn :
    (returningFinally (.eval (some (.operation [])))).MissesReturn ⟨5, 20⟩ := by
  let s : Sketch := returningFinally (.eval (some (.operation [])))
  let w : Verdict := { diagnostics := [], method := some 1, selected := [4],
                       arguments := [{ key := 0, name := "c", kind := .parameter, pos := 2 }] }
  let p : Place := s.layout.places.get ⟨4, by decide⟩
  have hbody : Flow.Summarizes {} {.normal} := by
    constructor <;> simp [ReturnMode.Completes]
  have hparts : ∀ f ∈ FlowNode.parts p.below p.children, f.flow.Summarizes
    (returningFinallyOutcomes {.normal} f) :=
    returningFinally_parts hbody (by decide +kernel)
  have hreturned :
      .returned ∈ tryOutcomes (returningFinallyOutcomes {.normal})
          (FlowNode.parts p.below p.children) := by
    have hbefore : ∃ f ∈ attempts (FlowNode.parts p.below p.children), f.node.kind ≠
        .finallyClause := by
      decide +kernel
    obtain ⟨f, hf, hkind⟩ := hbefore
    have hafter : ∃ g ∈ final? (FlowNode.parts p.below p.children), g.node.kind =
        .finallyClause := by
      decide +kernel
    obtain ⟨g, hg, hfinally⟩ := hafter
    rw [tryOutcomes_of_some hg]
    refine Or.inr ⟨⟨f, hf, .normal, ?_⟩, ?_, by simp⟩
    · simp [returningFinallyOutcomes, hkind]
    · simp [returningFinallyOutcomes, hfinally]
  refine ⟨?_, w, by decide +kernel, rfl, rfl, p, List.get_mem _ _, rfl,
    rfl, by decide +kernel, _, hparts, hreturned, ?_⟩
  · exact .file (Built.cons (.method _ _ _ (Built.cons (.tryStmt
      (Built.present (.block (Built.cons (.eval (Built.present (.operation Built.nil))) Built.nil)))
      Built.nil
      (Built.present (.block (Built.cons (.conditional (Built.present (.ref _))
        (Built.present (.block (Built.cons (.ret Built.absent) Built.nil))) Built.absent)
        Built.nil)))) Built.nil))
      Built.nil)
  · exact fun h => (h.admitsReturn hreturned).1 (by decide +kernel)

end Extraction
