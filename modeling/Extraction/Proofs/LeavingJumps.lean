import Mathlib.Data.List.Basic
import Extraction.Proofs.OpenBranches
import Extraction.Proofs.Topmost

/-!
# Jumps that leave a selection

The open branches of a verdict are the jumps out of the selection and the jumps into it: a selected
jump whose target is not selected, and a label that is selected while a jump to it is not.
-/

namespace Extraction

namespace Returns

open SyntaxTree

def labelsIn (phase : Nat → Phase) (path : List Node) (f : SyntaxTree) : List String :=
  (exposed path f).filterMap fun p =>
    if phase p.node.id = .selected ∧ p.node.kind = .labeled then some p.node.label else none

/-- The labels that the jumps of a forest outside the selection go to. -/
def gotosOutside (phase : Nat → Phase) (path : List Node) (f : SyntaxTree) : List String :=
  (exposed path f).filterMap fun p =>
    if phase p.node.id ≠ .selected ∧ p.node.kind = .gotoStmt then some p.node.label else none

def expecting (s : Returns) (labels : List String) : Returns :=
  s.receiving (labels.foldl (fun known l => known.insert l) s.incoming)

theorem mem_incoming_expecting (s : Returns) (ls : List String) (l : String) :
    l ∈ (s.expecting ls).incoming ↔ l ∈ ls ∨ l ∈ s.incoming :=
  mem_foldl_insert ls s.incoming l

theorem expecting_expecting (s : Returns) (ls ms : List String) :
    (s.expecting ls).expecting ms = s.expecting (ls ++ ms) := by
  simp [expecting, receiving]

theorem expecting_attach (s : Returns) (ls : List String) (f : Forest FlowNode) :
    (s.expecting ls).attach f = (s.attach f).expecting ls := by
  obtain ⟨stack, roots, known, incoming⟩ := s
  cases stack <;> rfl

theorem expecting_noting (s : Returns) (ls ms : List String) :
    (s.expecting ls).noting ms = (s.noting ms).expecting ls :=
  rfl

theorem attach_noting_expecting (s : Returns) (f g : Forest FlowNode) (ls ms is js : List String) :
    ((((((s.attach f).noting ls).expecting is).attach g).noting ms).expecting js) =
      ((s.attach (f ++ g)).noting (ls ++ ms)).expecting (is ++ js) := by
  rw [expecting_attach, expecting_noting, expecting_expecting, noting_attach, noting_noting,
    attach_attach]

variable {phase : Nat → Phase} {path : List Node} {f : SyntaxTree} {n : Node}
  {children rest : SyntaxTree}

def Adds (phase : Nat → Phase) (path : List Node) (f : SyntaxTree) : Prop :=
  ∃ done : Forest FlowNode,
    done.roots = ((exposed path f).filter fun p => p.Topmost phase).flatMap Place.parts ∧
      ∀ s : Returns, (Event.stream phase 0 path f).foldl step s =
        ((s.attach done).noting (labelsIn phase path f)).expecting (gotosOutside phase path f)

theorem adds_selected (hpath : ∀ k ∈ path, phase k.id ≠ .selected) (hn : phase n.id = .selected)
    (hclosed : ∀ r ∈ placesBelow (n :: path) children, phase r.node.id = .selected)
    (hrest : Adds phase path rest) :
    Adds phase path (.cons n children rest) := by
  have hall := selected_tree hclosed hn
  have hexposed : ∀ p ∈ exposed path (.cons n children .nil), phase p.node.id = .selected :=
    fun p hp =>
    hall p.node (node_mem_of_mem_placesBelow (exposed_subset _ _ p hp))
  have hsplit : exposed path (.cons n children rest) = exposed path (.cons n children .nil) ++
      exposed path rest := by
    simp [exposed]
  have hlabels : labelsIn phase path (.cons n children rest) =
      labelsOf path (.cons n children .nil) ++ labelsIn phase path rest := by
    rw [labelsIn, hsplit, List.filterMap_append, labelsOf, labelsIn]
    congr 1
    apply List.filterMap_congr
    intro p hp
    rw [if_congr (and_iff_right (hexposed p hp)) rfl rfl]
  have hgotos : gotosOutside phase path (.cons n children rest) = gotosOutside phase path rest := by
    rw [gotosOutside, hsplit, List.filterMap_append, List.filterMap_eq_nil_iff.mpr]
    · rfl
    · intro p hp
      simp [hexposed p hp]
  obtain ⟨done, hdone, hfold⟩ := foldl_stream_selected path hall
  obtain ⟨later, hlater, hfoldr⟩ := hrest
  refine ⟨done ++ later, ?_, fun s => ?_⟩
  · rw [Forest.roots_append, hdone, hlater, filter_topmost_selected hpath hn]
    rfl
  · rw [show Forest.cons n children rest = Forest.cons n children .nil ++ rest from rfl,
      Event.stream_append, List.foldl_append, hfold, hfoldr, Forest.cons_append, Forest.nil_append,
      hlabels, hgotos, noting_attach,
      noting_noting, attach_attach]

theorem adds_unselected (hn : phase n.id ≠ .selected) (hchildren : Adds phase (n :: path) children)
    (hrest : Adds phase path rest) : Adds phase path (.cons n children rest) := by
  obtain ⟨later, hlater, hfoldr⟩ := hrest
  have hlabels : labelsIn phase path (.cons n children rest) =
      (if n.kind.isScope then [] else labelsIn phase (n :: path) children) ++
      labelsIn phase path rest := by
    rw [labelsIn, exposed, List.filterMap_cons, List.filterMap_append]
    cases n.kind.isScope <;> simp [labelsIn, hn]
  have hgotos : gotosOutside phase path (.cons n children rest) =
      (if n.kind = .gotoStmt then [n.label] else []) ++
        ((if n.kind.isScope then [] else gotosOutside phase (n :: path) children) ++
        gotosOutside phase path rest) := by
    rw [gotosOutside, exposed, List.filterMap_cons, List.filterMap_append]
    cases n.kind.isScope <;> by_cases hk : n.kind = .gotoStmt <;> simp [gotosOutside, hn, hk]
  have henter : ∀ s : Returns,
      (Event.entering (phase n.id) false ⟨n, children, path⟩).foldl step s =
      s.expecting (if n.kind = .gotoStmt then [n.label] else []) := by
    intro s
    rw [foldl_entering, if_neg hn]
    by_cases hk : n.kind = .gotoStmt
    · simp [hk, passing, Kind.isStatement, expecting, receiving]
    · simp [hk, passing, expecting, receiving]
  have hleave : ∀ s : Returns,
      (Event.leaving phase false ⟨n, children, path⟩).foldl step s = s := by
    intro s
    rw [foldl_leaving, if_neg fun h => hn h.2]
  cases hscope : n.kind.isScope with
  | true =>
    have hnested : (0 : Int) < 0 + Place.nesting ⟨n, children, path⟩ := by
      simp [Place.nesting, hscope]
    refine ⟨later, ?_, fun s => ?_⟩
    · rw [hlater, filter_topmost_unselected hn, hscope]
      rfl
    · rw [Event.foldl_stream_cons, henter, foldl_stream_nested _ _ _ _ hnested, hleave, hfoldr,
        hlabels, hgotos, hscope, expecting_attach, expecting_noting, expecting_expecting]
      rfl
  | false =>
    obtain ⟨below, hbelow, hfoldc⟩ := hchildren
    have hdepth : (0 : Int) + Place.nesting ⟨n, children, path⟩ = 0 := by
      simp [Place.nesting, hscope]
    refine ⟨below ++ later, ?_, fun s => ?_⟩
    · rw [Forest.roots_append, hbelow, hlater, filter_topmost_unselected hn, hscope,
        List.flatMap_append]
      rfl
    · rw [Event.foldl_stream_cons, henter, hdepth, hfoldc, hleave, hfoldr, hlabels, hgotos, hscope,
        attach_noting_expecting, expecting_attach, expecting_noting, expecting_expecting]
      rfl

theorem adds_topmost (hpath : ∀ k ∈ path, phase k.id ≠ .selected)
    (hclosed : ∀ p ∈ placesBelow path f, phase p.node.id = .selected →
    ∀ r ∈ p.inner, phase r.node.id = .selected) :
    Adds phase path f := by
  induction f generalizing path with
  | nil => exact ⟨.nil, rfl, fun s => by rw [attach_nil]; rfl⟩
  | cons n children rest ihc ihr =>
    simp only [placesBelow, List.mem_cons, List.mem_append] at hclosed
    have hrest := ihr hpath fun p hp => hclosed p (Or.inr (Or.inr hp))
    by_cases hn : phase n.id = .selected
    · exact adds_selected hpath hn (hclosed _ (Or.inl rfl) hn) hrest
    · exact adds_unselected hn
        (ihc (List.forall_mem_cons.mpr ⟨hn, hpath⟩) fun p hp =>
        hclosed p (Or.inr (Or.inl hp))) hrest

theorem mem_labelsIn {l : String} : l ∈ labelsIn phase path f ↔
    ∃ p ∈ exposed path f, phase p.node.id = .selected ∧ p.node.kind = .labeled ∧
    p.node.label = l := by
  simp [labelsIn, List.mem_filterMap, and_assoc]

theorem mem_gotosOutside {l : String} : l ∈ gotosOutside phase path f ↔
    ∃ p ∈ exposed path f, phase p.node.id ≠ .selected ∧ p.node.kind = .gotoStmt ∧
    p.node.label = l := by
  simp [gotosOutside, List.mem_filterMap, and_assoc]

theorem mem_openBranches_flow (s : Returns) (b : BranchTarget) :
    b ∈ s.flow.openBranches ↔
      (∃ g ∈ s.roots.roots, b ∈ g.flow.openBranches) ∧
        ¬ (b.kind = .gotoBranch ∧ b.label ∈ s.labels) ∨
        b.kind = .gotoBranch ∧ b.label ∈ s.incoming ∧ b.label ∈ s.labels := by
  obtain ⟨kind, label⟩ := b
  have hlabel : ∀ ls : List String, (⟨kind, label⟩ : BranchTarget) ∈ ls.map
      (fun l => ⟨.gotoBranch, l⟩) ↔ kind = .gotoBranch ∧ label ∈ ls := by
    intro ls
    simp only [List.mem_map, BranchTarget.mk.injEq]
    grind
  rw [flow, Flow.mem_joinBranches, Flow.mem_resolve, Flow.mem_sequence, hlabel, hlabel]
  simp

end Returns

namespace SyntaxTree

variable {phase : Nat → Phase} {path : List Node} {f : SyntaxTree} {offset : Int} {id : Nat}
  {b : BranchTarget}

theorem exists_open_topmost (hlaid : Laid offset id f) (hpath : ∀ k ∈ path, phase k.id ≠ .selected)
    (hclosed : ∀ p ∈ placesBelow path f, phase p.node.id = .selected →
    ∀ r ∈ p.inner, phase r.node.id = .selected)
    (horderly : ∀ t ∈ exposed path f, phase t.node.id = .selected →
      Orderly t.ancestors (.cons t.node t.children .nil)) :
    (∃ t ∈ (exposed path f).filter fun p => p.Topmost phase,
      ∃ g ∈ t.parts, b ∈ g.flow.openBranches) ↔
      Jumps (fun p => phase p.node.id = .selected) path f b := by
  induction f generalizing path offset id with
  | nil => simp [exposed, not_jumps_nil]
  | cons n children rest ihc ihr =>
    obtain ⟨hstart, hid, hstop, hc, hr⟩ := hlaid
    simp only [placesBelow, List.mem_cons, List.mem_append] at hclosed
    simp only [exposed, List.mem_cons, List.mem_append] at horderly
    have hrest := ihr hr hpath (fun p hp => hclosed p (Or.inr (Or.inr hp))) fun t ht =>
      horderly t (Or.inr (Or.inr ht))
    have hlone : Laid offset id (.cons n children .nil) := ⟨hstart, hid, hstop, hc, trivial⟩
    by_cases hn : phase n.id = .selected
    · -- all places of the tree count, so its jumps are those of an orderly tree
      have hall := selected_tree (hclosed _ (Or.inl rfl) hn) hn
      have htree : (∃ g ∈ Place.parts ⟨n, children, path⟩, b ∈ g.flow.openBranches) ↔
          Jumps (fun p => phase p.node.id = .selected) path (.cons n children .nil) b := by
        refine Iff.trans ((horderly _ (Or.inl rfl) hn).exists_open_iff hlone)
          (jumps_congr fun p hp => ?_)
        exact iff_of_true trivial
          (hall p.node (node_mem_of_mem_placesBelow (exposed_subset _ _ p hp)))
      rw [filter_topmost_selected hpath hn]
      simp only [List.mem_cons, exists_eq_or_imp]
      rw [hrest, htree, jumps_cons hlone, jumps_cons ⟨hstart, hid, hstop, hc, hr⟩,
        or_iff_left (not_jumps_nil _ _ _)]
    · rw [filter_topmost_unselected hn, jumps_cons ⟨hstart, hid, hstop, hc, hr⟩]
      simp only [List.mem_append, or_and_right, exists_or, hrest]
      refine or_congr_left ?_
      cases hscope : n.kind.isScope with
      | true => simp [hn]
      | false =>
        have hbelow := ihc hc (List.forall_mem_cons.mpr ⟨hn, hpath⟩)
          (fun p hp => hclosed p (Or.inr (Or.inl hp)))
          fun t ht => horderly t (Or.inr (Or.inl (by rwa [hscope])))
        simpa [hn] using hbelow

end SyntaxTree

namespace Trace

open SyntaxTree

variable {sel : Extent} {t : SyntaxTree} {a b : Nat} {m : Place} {s : Trace}

/-- The statements and labels of a selection.  What is recorded outside the method adds none. -/
theorem Located.returns_selected (h : Laid 0 0 t) (hm : m ∈ t.places) (hl : Located sel m a b s) :
    (Returns.ofEvents s.events.toList).roots.roots =
        ((exposed m.below m.children).filter fun p => p.Topmost (Phase.among a b)).flatMap
          Place.parts ∧
      ∀ l, l ∈ (Returns.ofEvents s.events.toList).labels ↔
          l ∈ Returns.labelsIn (Phase.among a b) m.below m.children := by
  obtain ⟨before, after, hevents, hbefore, -, hafter⟩ := hl.events
  obtain ⟨done, hdone, hfold⟩ := Returns.adds_topmost (hl.below_unselected h hm)
    fun p hp hsel r hr => hl.selected_inner h hm hp hsel hr
  obtain ⟨i, hi⟩ := Returns.foldl_unselected (fun e he => (hbefore e he).1.ne_selected) {}
  obtain ⟨j, hj⟩ := Returns.foldl_unselected (fun e he => (hafter e he).1.ne_selected)
    ((((Returns.receiving {} i).attach done).noting
      (Returns.labelsIn (Phase.among a b) m.below m.children)).expecting
      (Returns.gotosOutside (Phase.among a b) m.below m.children))
  have hreturns : Returns.ofEvents s.events.toList = ((Returns.attach {} done).noting
      (Returns.labelsIn (Phase.among a b) m.below m.children)).receiving j := by
    rw [Returns.ofEvents, hevents, List.foldl_append, List.foldl_append, hi, hfold, hj,
      Returns.receiving_attach]
    rfl
  rw [hreturns]
  refine ⟨hdone, fun l => (Returns.mem_labels_noting _ _ l).trans (or_iff_left ?_)⟩
  exact List.not_mem_nil

theorem Located.returns_incoming (h : Laid 0 0 t) (hm : m ∈ t.places) (hl : Located sel m a b s)
    (houter : ∀ k ∈ m.ancestors, k.kind.isFunction = false) (l : String) :
    l ∈ (Returns.ofEvents s.events.toList).incoming ↔
      l ∈ Returns.gotosOutside (Phase.among a b) m.below m.children := by
  obtain ⟨before, after, hevents, -, hfirst, hafter⟩ := hl.events
  obtain ⟨done, hdone, hfold⟩ := Returns.adds_topmost (hl.below_unselected h hm)
    fun p hp hsel r hr => hl.selected_inner h hm hp hsel hr
  have hlast : ∀ s : Returns, after.foldl Returns.step s = s := by
    intro s
    refine Event.foldl_eq_self s fun e he s => ?_
    obtain ⟨hearly, henter, -⟩ := hafter e he
    rw [Returns.step_eq, if_neg fun hcounts => hearly.ne_selected hcounts.1,
      if_neg fun harrives => henter harrives.2.1]
  have hreturns : Returns.ofEvents s.events.toList = ((Returns.attach {} done).noting
      (Returns.labelsIn (Phase.among a b) m.below m.children)).expecting
        (Returns.gotosOutside (Phase.among a b) m.below m.children) := by
    rw [Returns.ofEvents, hevents, hfirst houter, List.nil_append, List.foldl_append, hfold, hlast]
  rw [hreturns]
  refine (Returns.mem_incoming_expecting _ _ l).trans (or_iff_left ?_)
  exact List.not_mem_nil

end Trace

open SyntaxTree Sketch

/-- Whether the selection leaves a jump open in the method: a selected jump, not inside a nested
scope, that neither a selected place around it nor a selected label takes, or a jump from outside
the selection to a selected label.  The labels are those among the given places. -/
def Verdict.LeavesOpen (w : Verdict) (m : Place) (labels : List Place) (b : BranchTarget) : Prop :=
  (∃ j ∈ exposed m.below m.children, j.IsSelected w ∧ Ending.jumped b ∈ j.settles ∧
      (∀ p ∈ exposed m.below m.children, p.IsSelected w → j ∈ p.inner → ¬ p.Resolves b) ∧
        ∀ l ∈ labels, l.IsSelected w → ¬ b.LandsOn l) ∨
    ∃ j ∈ exposed m.below m.children, ¬ j.IsSelected w ∧ Ending.jumped b ∈ j.settles ∧
      ∃ l ∈ labels, l.IsSelected w ∧ b.LandsOn l

theorem Place.jumped_goto {p : Place} {label : String} :
    Ending.jumped ⟨.gotoBranch, label⟩ ∈ p.settles ↔ p.node.kind = .gotoStmt ∧
      p.node.label = label := by
  unfold settles
  cases hk : p.node.kind with
  | gotoStmt => simp [eq_comm]
  | _ => simp

theorem Trace.Located.mem_open_iff {sel : Extent} {t : SyntaxTree} {a b : Nat} {m : Place}
    {s : Trace} (h : Laid 0 0 t) (hm : m ∈ t.places) (hl : Located sel m a b s)
    (houter : ∀ k ∈ m.ancestors, k.kind.isFunction = false)
    (horderly : ∀ p ∈ exposed m.below m.children, Phase.among a b p.node.id = .selected →
      Orderly p.ancestors (.cons p.node p.children .nil)) (ds : List Diagnostic)
      (target : BranchTarget) :
    target ∈ (Returns.ofEvents s.events.toList).flow.openBranches ↔
      (s.verdict sel ds).LeavesOpen m (exposed m.below m.children) target := by
  obtain ⟨hroots, hlabels⟩ := hl.returns_selected h hm
  have hincoming := hl.returns_incoming h hm houter
  have hselected : ∀ p ∈ exposed m.below m.children,
      Phase.among a b p.node.id = .selected ↔ p.IsSelected (s.verdict sel ds) := fun p hp =>
    (hl.isSelected_iff h hm (exposed_subset _ _ p hp)).symm
  have hopen : (∃ g ∈ (Returns.ofEvents s.events.toList).roots.roots,
      target ∈ g.flow.openBranches) ↔
      Jumps (fun p => p.IsSelected (s.verdict sel ds)) m.below m.children target := by
    rw [← jumps_congr hselected,
      ← exists_open_topmost (laid_children h hm).1 (hl.below_unselected h hm)
      (fun p hp hsel r hr => hl.selected_inner h hm hp hsel hr) horderly, hroots]
    simp only [List.mem_flatMap]
    grind
  have hlands : target.kind = .gotoBranch ∧
      target.label ∈ (Returns.ofEvents s.events.toList).labels ↔
      ∃ l ∈ exposed m.below m.children, l.IsSelected (s.verdict sel ds) ∧ target.LandsOn l := by
    rw [hlabels, Returns.mem_labelsIn]
    constructor
    · rintro ⟨hkind, l, hle, hsel, hlabel⟩
      exact ⟨l, hle, (hselected l hle).mp hsel, hkind, hlabel⟩
    · rintro ⟨l, hle, hsel, hkind, hlabel⟩
      exact ⟨hkind, l, hle, (hselected l hle).mpr hsel, hlabel⟩
  have hcoming : target.kind = .gotoBranch →
      (target.label ∈ (Returns.ofEvents s.events.toList).incoming ↔
      ∃ j ∈ exposed m.below m.children, ¬ j.IsSelected (s.verdict sel ds) ∧
          Ending.jumped target ∈ j.settles) := by
    obtain ⟨kind, label⟩ := target
    rintro rfl
    rw [hincoming, Returns.mem_gotosOutside]
    refine exists_congr fun j => and_congr_right fun hj => ?_
    rw [Place.jumped_goto]
    exact and_congr_left' (not_congr (hselected j hj))
  rw [Returns.mem_openBranches_flow, hopen, hlands]
  constructor
  · rintro (⟨⟨j, hj, hsel, hjump, haround⟩, hland⟩ | ⟨hkind, hin, hlabel⟩)
    · exact Or.inl ⟨j, hj, hsel, hjump, haround, fun l hle hlsel hb => hland ⟨l, hle, hlsel, hb⟩⟩
    · obtain ⟨j, hj, hsel, hjump⟩ := (hcoming hkind).mp hin
      exact Or.inr ⟨j, hj, hsel, hjump, hlands.mp ⟨hkind, hlabel⟩⟩
  · rintro (⟨j, hj, hsel, hjump, haround, hland⟩ | ⟨j, hj, hsel, hjump, l, hle, hlsel, hb⟩)
    · exact Or.inl ⟨⟨j, hj, hsel, hjump, haround⟩, fun ⟨l, hle, hlsel, hb⟩ => hland l hle hlsel hb⟩
    · exact Or.inr ⟨hb.1, (hcoming hb.1).mpr ⟨j, hj, hsel, hjump⟩,
        (hlands.mpr ⟨l, hle, hlsel, hb⟩).2⟩

/-- A loop with a label, left by a jump to the label under some condition, and a loop inside it that
is left at once. -/
def labeledLoop : Sketch :=
  .file [some (.method "m" true []
    [some (.labeled "L" (some (.loop none (some (.operation [])) none (some (.block
    [some (.conditional (some (.operation [])) (some (.jump .breakStmt "L")) none),
      some (.loop none none none (some (.block [some (.jump .breakStmt "")])))])))))])]

def labeledLoopVerdict : Verdict where
  diagnostics :=
    [⟨.unresolvedBranch, "The selection contains a jump whose target is outside it (break L)",
      none, ⟨8, 12⟩⟩]
  method := some 1
  selected := [7, 10]
  flow := ⟨.noReturn, [⟨.breakBranch, "L"⟩]⟩

/-- The open branches differ from the jumps that the selection in the outermost method leaves open,
if labels inside nested functions count too. -/
def Sketch.Misreported (s : Sketch) (sel : Extent) : Prop :=
  s.Built ∧ (∀ p ∈ s.layout.places, p.Shaped) ∧
    (∀ p ∈ s.layout.places, ∀ c ∈ rootPlaces p.below p.children,
      c.node.role = .init ∨ c.node.role = .cond ∨ c.node.role = .post → c.JumpFree) ∧
    ∃ w, analyze s.layout sel .everywhere = .ok w ∧ ∃ m ∈ s.layout.places,
      w.method = some m.node.id ∧ (∀ k ∈ m.ancestors, k.kind.isFunction = false) ∧
      (∀ p ∈ exposed m.below m.children, p.IsSelected w →
        p.node.kind ≠ .tryStmt ∧ p.node.kind ≠ .catchClause ∧ p.node.kind ≠ .finallyClause) ∧
      ∃ b, ¬ (b ∈ w.flow.openBranches ↔ w.LeavesOpen m m.inner b)

/-- The operand of a return that jumps. -/
def breakingReturn : Sketch :=
  .file [some (.method "m" true [] [some (.ret (some (.operation [some (.jump .breakStmt "")])))])]

/-- A jump to a label that stands inside a nested function only. -/
def hiddenLabel : Sketch :=
  .file [some (.method "m" true []
    [some (.eval (some (.lambda true [some (.labeled "L" (some (.eval none)))]))),
    some (.jump .gotoStmt "L")])]

end Extraction
