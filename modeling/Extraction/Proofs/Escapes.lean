import Mathlib.Data.List.Sort
import Extraction.Proofs.Topmost

/-!
# What escapes a selection

The types that escape a tree are a recursion over it: a call or throw raises its checked types after
what escapes its children, and a `try` statement holds back what one of its catch clauses handles of
what escapes its body.  The stack of frames that follows the events of a traversal computes the same
list, without repetitions.
-/

namespace Extraction

namespace SyntaxTree

def Handles (f : SyntaxTree) (t : ClassType) : Prop :=
  ∃ c ∈ f.roots, c.kind = .catchClause ∧ ∃ u ∈ c.types, t.assignableTo u = true

instance (f : SyntaxTree) (t : ClassType) : Decidable (f.Handles t) :=
  inferInstanceAs (Decidable (∃ _ ∈ _, _))

end SyntaxTree

/-- What escapes a node, given its children and what escapes each of them. -/
def Node.escapes (n : Node) (children : SyntaxTree) (parts : List (List ClassType)) :
    List ClassType :=
  match n.kind with
  | .method | .lambda | .typeDecl => []
  | .call | .throwStmt => parts.flatten ++ n.types.filter (·.checked)
  | .tryStmt => (parts.headD []).filter (fun t => ¬ children.Handles t) ++ parts.tail.flatten
  | _ => parts.flatten

def SyntaxTree.escapes : SyntaxTree → List (List ClassType)
  | .nil => []
  | .cons n children rest => n.escapes children (escapes children) :: escapes rest

def Place.escapes (p : Place) : List ClassType :=
  p.node.escapes p.children (SyntaxTree.escapes p.children)

theorem Place.escapes_scope {p : Place} (h : p.node.kind.isScope = true) : p.escapes = [] := by
  cases hk : p.node.kind with
  | method | lambda | typeDecl => rw [escapes, Node.escapes, hk]
  | _ => rw [hk] at h; cases h

theorem Place.raises_scope {p : Place} (h : p.node.kind.isScope = true) : p.raises = false := by
  cases hk : p.node.kind with
  | call | throwStmt => rw [hk] at h; cases h
  | _ => simp only [raises, hk]

theorem Place.escapes_plain {p : Place} (hscope : p.node.kind.isScope = false)
    (htry : p.node.kind ≠ .tryStmt) :
    p.escapes = (SyntaxTree.escapes p.children).flatten ++ if p.raises
      then p.node.types.filter (·.checked) else [] := by
  cases hk : p.node.kind with
  | method | lambda | typeDecl => rw [hk] at hscope; cases hscope
  | tryStmt => exact absurd hk htry
  | call | throwStmt =>
    cases htypes : p.node.types <;> simp [escapes, Node.escapes, raises, hk, htypes]
  | _ =>
    simp only [escapes, Node.escapes, raises, hk, Bool.false_eq_true, if_false, List.append_nil]

/-- The nearest function or type above the place is the method of the verdict. -/
def Place.InMethod (w : Verdict) (p : Place) : Prop :=
  (p.ancestor? [.method, .lambda, .typeDecl]).map (·.id) = w.method

instance (w : Verdict) (p : Place) : Decidable (p.InMethod w) :=
  inferInstanceAs (Decidable (_ = _))

def Place.HasBody (p : Place) : Prop :=
  p.node.kind = .tryStmt → ∃ b ∈ p.children.roots.head?, b.kind = .block ∧ b.role = .body

instance (p : Place) : Decidable p.HasBody :=
  inferInstanceAs (Decidable (_ → _))

namespace TypeSet

theorem union_cons (s : TypeSet) (t : ClassType) (l : List ClassType) :
    s.union (t :: l) = (s.add t).union l :=
  rfl

theorem union_append (s x y : TypeSet) : (s.union x).union y = s.union (x ++ y) := by
  rw [union, union, union, List.foldl_append]

theorem mem_add {s : TypeSet} {t u : ClassType} : t ∈ s.add u ↔ t ∈ s ∨ t = u := by
  by_cases hu : u ∈ s
  · rw [add, if_pos hu]
    constructor
    · exact Or.inl
    · rintro (h | rfl)
      · exact h
      · exact hu
  · rw [add, if_neg hu, List.mem_append, List.mem_singleton]

theorem mem_union {s l : TypeSet} {t : ClassType} : t ∈ s.union l ↔ t ∈ s ∨ t ∈ l := by
  induction l generalizing s with
  | nil => simp [union]
  | cons a l ih => rw [union_cons, ih, mem_add, List.mem_cons, or_assoc]

theorem union_union (s r l : TypeSet) : s.union (r.union l) = (s.union r).union l := by
  induction l generalizing r with
  | nil => rfl
  | cons t l ih =>
    have hadd : s.union (r.add t) = (s.union r).add t := by
      by_cases ht : t ∈ r
      · rw [add, add, if_pos ht, if_pos (mem_union.mpr (Or.inr ht))]
      · rw [add, if_neg ht, ← union_append]
        rfl
    rw [union_cons, union_cons, ih, hadd]

theorem union_dedup (s l : TypeSet) : s.union (TypeSet.union [] l) = s.union l :=
  union_union s [] l

theorem filter_add (keep : ClassType → Bool) (s : TypeSet) (t : ClassType) :
    (s.add t).filter keep = if keep t then add (s.filter keep) t else s.filter keep := by
  by_cases hs : t ∈ s <;> by_cases ht : keep t = true <;> simp [add, hs, ht]

theorem filter_union (keep : ClassType → Bool) (s l : TypeSet) :
    (s.union l).filter keep = union (s.filter keep) (l.filter keep) := by
  induction l generalizing s with
  | nil => rfl
  | cons t l ih =>
    rw [union_cons, ih, filter_add]
    by_cases ht : keep t = true
    · rw [if_pos ht, List.filter_cons_of_pos ht, union_cons]
    · rw [if_neg ht, List.filter_cons_of_neg ht]

@[simp] theorem discharge_nil (s : TypeSet) : s.discharge [] = s :=
  List.filter_eq_self.mpr fun _ _ => rfl

theorem discharge_discharge (s : TypeSet) (c d : List ClassType) :
    (s.discharge c).discharge d = s.discharge (c ++ d) := by
  rw [discharge, discharge, discharge, List.filter_filter]
  apply List.filter_congr
  intro t _
  simp [Bool.and_comm]

theorem union_eq_eraseDups (l : List ClassType) : TypeSet.union [] l = l.eraseDups := by
  have hgeneral : ∀ s : TypeSet, s.union l = s ++ (l.filter fun t => t ∉ s).eraseDups := by
    induction l with
    | nil => simp [union]
    | cons t l ih =>
      intro s
      rw [union_cons, ih]
      by_cases ht : t ∈ s
      · rw [add, if_pos ht, List.filter_cons_of_neg (by simpa using ht)]
      · rw [add, if_neg ht, List.filter_cons_of_pos (by simpa using ht), List.eraseDups_cons,
          List.filter_filter, List.append_assoc, List.singleton_append]
        congr 3
        apply List.filter_congr
        intro u _
        by_cases hu : u = t <;> simp [hu, ht]
  rw [hgeneral [], List.nil_append, List.filter_eq_self.mpr (by simp)]

end TypeSet

namespace Raises

open SyntaxTree

variable {path : List Node} {f : SyntaxTree} {offset : Int} {id : Nat} {phase : Nat → Phase}

def raising (s : Raises) (raised : List ClassType) : Raises :=
  s.modifyTop fun frame => frame.raise raised

/-- Meets the catch clause at `p`, if it is one of the innermost `try` statement. -/
def catching (s : Raises) (p : Place) : Raises :=
  if p.node.kind = .catchClause ∧ s.top.owner = p.parent?.map (·.id) then
    s.modifyTop fun frame => { frame with body := frame.body.discharge p.node.types }
  else s

/-- Leaves the place `p`, if it is the body of the innermost `try` statement and not one itself. -/
def settling (s : Raises) (p : Place) : Raises :=
  if p.node.kind ≠ .tryStmt ∧ p.node.role = .body ∧ s.top.owner.isSome ∧
    p.parent?.map (·.id) = s.top.owner then
    s.modifyTop fun frame => { frame with inHandlers := true }
  else s

def across (s : Raises) (p : Place) : Raises :=
  ((s.catching p).raising p.escapes).settling p

theorem raise_raise (frame : RaiseFrame) (x y : List ClassType) :
    (frame.raise x).raise y = frame.raise (x ++ y) := by
  by_cases h : frame.inHandlers = true <;> simp [RaiseFrame.raise, h, TypeSet.union_append]

theorem raise_nil (frame : RaiseFrame) : frame.raise [] = frame := by
  obtain ⟨owner, body, escaping, inHandlers⟩ := frame
  cases inHandlers <;> rfl

theorem modifyTop_modifyTop (s : Raises) (g k : RaiseFrame → RaiseFrame) :
    (s.modifyTop g).modifyTop k = s.modifyTop (k ∘ g) := by
  obtain ⟨inner, outermost⟩ := s
  cases inner <;> rfl

theorem modifyTop_eq_self (s : Raises) {g : RaiseFrame → RaiseFrame}
    (h : ∀ frame, g frame = frame) :
    s.modifyTop g = s := by
  obtain ⟨inner, outermost⟩ := s
  cases inner <;> simp [modifyTop, h]

theorem raising_raising (s : Raises) (x y : List ClassType) :
    (s.raising x).raising y = s.raising (x ++ y) := by
  rw [raising, raising, modifyTop_modifyTop, raising]
  congr 1
  funext frame
  exact raise_raise frame x y

@[simp] theorem raising_nil (s : Raises) : s.raising [] = s :=
  modifyTop_eq_self s raise_nil

theorem raising_dedup (s : Raises) (x : List ClassType) :
    s.raising (TypeSet.union [] x) = s.raising x := by
  simp only [raising, RaiseFrame.raise, TypeSet.union_dedup]

theorem pop_cons (s : Raises) (frame : RaiseFrame) :
    pop ⟨frame :: s.inner, s.outermost⟩ = s.raising frame.all :=
  rfl

theorem top_modifyTop (s : Raises) (g : RaiseFrame → RaiseFrame) :
    (s.modifyTop g).top = g s.top := by
  obtain ⟨inner, outermost⟩ := s
  cases inner <;> rfl

@[simp] theorem owner_raising (s : Raises) (x : List ClassType) :
    (s.raising x).top.owner = s.top.owner := by
  rw [raising, top_modifyTop, RaiseFrame.raise]
  split <;> rfl

@[simp] theorem owner_catching (s : Raises) (p : Place) :
    (s.catching p).top.owner = s.top.owner := by
  unfold catching
  split
  · rw [top_modifyTop]
  · rfl

@[simp] theorem owner_settling (s : Raises) (p : Place) :
    (s.settling p).top.owner = s.top.owner := by
  unfold settling
  split
  · rw [top_modifyTop]
  · rfl

@[simp] theorem owner_across (s : Raises) (p : Place) : (s.across p).top.owner = s.top.owner := by
  simp [across]

theorem foldl_across (s : Raises) (path : List Node) (f : SyntaxTree)
    (hparent : s.top.owner ≠ path.head?.map (·.id)) :
    (rootPlaces path f).foldl across s = s.raising (SyntaxTree.escapes f).flatten := by
  induction f generalizing s with
  | nil => simp [rootPlaces, SyntaxTree.escapes]
  | cons n children rest _ ihr =>
    have hacross : s.across ⟨n, children, path⟩ =
        s.raising (Place.escapes ⟨n, children, path⟩) := by
      rw [across, catching, if_neg fun h => hparent h.2, settling, if_neg]
      rintro ⟨-, -, -, heq⟩
      rw [owner_raising] at heq
      exact hparent heq.symm
    rw [rootPlaces, List.foldl_cons, hacross, ihr _ (by rwa [owner_raising]), raising_raising]
    rfl

/-- The types that a catch clause handles; other nodes handle none. -/
def handled (n : Node) : List ClassType :=
  if n.kind = .catchClause then n.types else []

theorem discharge_handled (s : TypeSet) (f : SyntaxTree) :
    s.discharge (f.roots.flatMap handled) = s.filter fun t => ¬ f.Handles t := by
  have hcaught : ∀ t, ((f.roots.flatMap handled).any fun c => t.assignableTo c) = true ↔
      f.Handles t := by
    intro t
    simp only [List.any_flatMap, List.any_eq_true, Handles, handled]
    grind
  apply List.filter_congr
  intro t _
  by_cases ht : f.Handles t
  · rw [(hcaught t).mpr ht, decide_eq_false fun h => h ht]
    rfl
  · rw [Bool.eq_false_iff.mpr fun h => ht ((hcaught t).mp h), decide_eq_true ht]
    rfl

theorem modifyTop_congr {s : Raises} {g k : RaiseFrame → RaiseFrame} (h : g s.top = k s.top) :
    s.modifyTop g = s.modifyTop k := by
  obtain ⟨inner, outermost⟩ := s
  cases inner with
  | nil => exact congrArg (fun frame => (⟨[], frame⟩ : Raises)) h
  | cons frame rest => exact congrArg (fun frame => (⟨frame :: rest, outermost⟩ : Raises)) h

/-- In the handlers of the innermost `try` statement, catch clauses discharge its body and what is
raised escapes it. -/
theorem across_handler (s : Raises) (p : Place) (hparent : s.top.owner = p.parent?.map (·.id))
    (hhandlers : s.top.inHandlers = true) :
    s.across p = s.modifyTop fun frame =>
      { frame with
        body := frame.body.discharge (handled p.node)
        escaping := frame.escaping.union p.escapes } := by
  have hcatching : s.catching p = s.modifyTop fun frame =>
      { frame with body := frame.body.discharge (handled p.node) } := by
    by_cases hk : p.node.kind = .catchClause
    · rw [catching, if_pos ⟨hk, hparent⟩, handled, if_pos hk]
    · rw [catching, if_neg fun h => hk h.1, handled, if_neg hk]
      refine (modifyTop_eq_self s fun frame => ?_).symm
      simp
  have hraising : (s.catching p).raising p.escapes = s.modifyTop fun frame =>
      { frame with
        body := frame.body.discharge (handled p.node)
        escaping := frame.escaping.union p.escapes } := by
    rw [hcatching, raising, modifyTop_modifyTop]
    apply modifyTop_congr
    simp [RaiseFrame.raise, hhandlers]
  rw [across, hraising, settling]
  split
  · rw [modifyTop_modifyTop]
    apply modifyTop_congr
    simp [hhandlers]
  · rfl

theorem foldl_handlers (s : Raises) (path : List Node) (f : SyntaxTree)
    (hparent : s.top.owner = path.head?.map (·.id)) (hhandlers : s.top.inHandlers = true) :
    (rootPlaces path f).foldl across s = s.modifyTop fun frame =>
      { frame with
        body := frame.body.discharge (f.roots.flatMap handled)
        escaping := frame.escaping.union (SyntaxTree.escapes f).flatten } := by
  induction f generalizing s with
  | nil =>
    refine (modifyTop_eq_self s fun frame => ?_).symm
    simp [Forest.roots, SyntaxTree.escapes, TypeSet.union]
  | cons n children rest _ ihr =>
    have hacross := across_handler s ⟨n, children, path⟩ hparent hhandlers
    have htop := congrArg (fun s : Raises => s.top) hacross
    simp only [top_modifyTop] at htop
    rw [rootPlaces, List.foldl_cons,
      ihr _ (by rw [owner_across]; exact hparent) (by rw [htop]; exact hhandlers), hacross,
      modifyTop_modifyTop]
    apply modifyTop_congr
    simp [TypeSet.discharge_discharge, TypeSet.union_append, SyntaxTree.escapes, Place.escapes,
      Forest.roots]

/-- A `try` statement raises around it what escapes its body unhandled and what escapes the rest of
it. -/
theorem foldl_try (s : Raises) (p : Place) (hk : p.node.kind = .tryStmt) (hbody : p.HasBody) :
    ((rootPlaces p.below p.children).foldl across (s.push p.node.id)).top.owner = some p.node.id ∧
      ((rootPlaces p.below p.children).foldl across (s.push p.node.id)).pop =
      s.raising p.escapes := by
  obtain ⟨b, hb, hblock, hrole⟩ := hbody hk
  obtain ⟨n, children, ancestors⟩ := p
  cases children with
  | nil => cases hb
  | cons m below rest =>
    obtain rfl : m = b := Option.some.inj hb
    -- leaving the body turns the frame to its handlers, which the other children then are
    have hfirst : (s.push n.id).across ⟨m, below, n :: ancestors⟩ =
        ⟨{ owner := some n.id, body := TypeSet.union [] (Place.escapes ⟨m, below, n :: ancestors⟩),
           inHandlers := true } ::
          s.inner, s.outermost⟩ := by
      have hcatching : (s.push n.id).catching ⟨m, below, n :: ancestors⟩ = s.push n.id := by
        rw [catching, if_neg]
        rintro ⟨hcatch, -⟩
        rw [hblock] at hcatch
        cases hcatch
      rw [across, hcatching, settling, if_pos ⟨by rw [hblock]; decide, hrole, rfl, rfl⟩]
      rfl
    have hfold : (rootPlaces (n :: ancestors) (.cons m below rest)).foldl across (s.push n.id) =
        ⟨{ owner := some n.id
           body := (TypeSet.union [] (Place.escapes ⟨m, below, n :: ancestors⟩)).discharge
             (rest.roots.flatMap handled)
           escaping := TypeSet.union [] (SyntaxTree.escapes rest).flatten
           inHandlers := true } :: s.inner, s.outermost⟩ := by
      rw [rootPlaces, List.foldl_cons, hfirst, foldl_handlers _ _ _ rfl rfl]
      rfl
    have hhandled : rest.roots.flatMap handled =
        (Forest.cons m below rest).roots.flatMap handled := by
      simp [Forest.roots, handled, hblock]
    refine ⟨congrArg (fun s : Raises => s.top.owner) hfold, ?_⟩
    change ((rootPlaces (n :: ancestors) (.cons m below rest)).foldl across (s.push n.id)).pop = _
    rw [hfold, hhandled, discharge_handled, TypeSet.filter_union]
    have hescapes : Place.escapes ⟨n, .cons m below rest, ancestors⟩ =
        (Place.escapes ⟨m, below, n :: ancestors⟩).filter
          (fun t => ¬ SyntaxTree.Handles (.cons m below rest) t) ++
          (SyntaxTree.escapes rest).flatten := by
      have hkind : n.kind = .tryStmt := hk
      simp only [Place.escapes, Node.escapes, hkind]
      rfl
    rw [pop_cons, RaiseFrame.all, TypeSet.union_dedup, List.filter_nil, TypeSet.union_append,
      ← hescapes, raising_dedup]

theorem step_ignored {e : Event} (h : e.nested = true ∨ e.phase ≠ .selected) (s : Raises) :
    step s e = s := by
  rw [step]
  rcases h with h | h <;> simp [h]

theorem step_name {e : Event} {access : Access} (h : e.kind = .name access) (s : Raises) :
    step s e = s := by
  rw [step]
  split
  · rfl
  · simp [h]

theorem foldl_entering (s : Raises) (p : Place) :
    (Event.entering .selected false p).foldl step s =
      if p.node.kind = .tryStmt then s.push p.node.id else s.catching p := by
  have hnames : ∀ s : Raises,
      (p.touches.map fun a => (⟨.name a, .selected, false, p⟩ : Event)).foldl step s = s := by
    intro s
    apply Event.foldl_eq_self
    intro e he
    obtain ⟨a, -, rfl⟩ := List.mem_map.mp he
    exact step_name rfl
  rw [Event.entering, List.cons_append, List.foldl_cons, List.foldl_append, hnames]
  by_cases htry : p.node.kind = .tryStmt
  · simp [step, Event.node, htry]
  · by_cases hcatch : p.node.kind = .catchClause
    · simp [step, Event.node, hcatch, catching]
    · simp [step, Event.node, hcatch, catching, htry]

theorem foldl_leaving (s : Raises) (phase : Nat → Phase) (p : Place)
    (hphase : phase p.node.id = .selected) :
    (Event.leaving phase false p).foldl step s =
      step (s.raising (if p.raises then p.node.types.filter (·.checked) else []))
      ⟨.leave, .selected, false, p⟩ := by
  have hstores : (p.stores.flatMap (Event.storing phase false)).foldl step s = s := by
    apply Event.foldl_eq_self
    intro e he
    obtain ⟨c, -, he⟩ := List.mem_flatMap.mp he
    obtain ⟨b, -, rfl⟩ := List.mem_map.mp he
    exact step_name rfl
  have hcall : (if p.raises then [(⟨.call, phase p.node.id, false, p⟩ : Event)]
      else []).foldl step s =
      s.raising (if p.raises then p.node.types.filter (·.checked) else []) := by
    cases hraises : p.raises with
    | false => simp
    | true =>
      rw [if_pos rfl, if_pos rfl, ← raising_dedup]
      simp [step, Event.node, hphase, raising]
  rw [Event.leaving, List.foldl_append, List.foldl_append, hstores, hcall, hphase]
  rfl

theorem step_leave (s : Raises) (p : Place) (hk : p.node.kind ≠ .tryStmt) :
    step s ⟨.leave, .selected, false, p⟩ = s.settling p := by
  rw [settling]
  by_cases hbody : p.node.role = .body ∧ s.top.owner.isSome ∧ p.parent?.map (·.id) = s.top.owner
  · rw [if_pos ⟨hk, hbody⟩]
    simp [step, Event.node, hk, hbody]
  · rw [if_neg fun h => hbody h.2]
    simp [step, Event.node, hk, hbody]

theorem step_leave_try (s : Raises) (p : Place) (hk : p.node.kind = .tryStmt)
    (howner : s.top.owner = some p.node.id) :
    step s ⟨.leave, .selected, false, p⟩ = s.pop := by
  simp [step, Event.node, hk, howner]

theorem foldl_stream (h : Laid offset id f) (hphase : ∀ n ∈ f.toList, phase n.id = .selected)
    (hbody : ∀ p ∈ placesBelow path f, p.HasBody) (s : Raises)
    (howner : ∀ o ∈ s.top.owner, o < id) :
    (Event.stream phase 0 path f).foldl step s = (rootPlaces path f).foldl across s := by
  induction f generalizing path offset id s with
  | nil => rfl
  | cons n children rest ihc ihr =>
    obtain ⟨-, rfl, -, hc, hr⟩ := h
    have hn : phase n.id = .selected := hphase n List.mem_cons_self
    simp only [placesBelow, List.mem_cons, List.mem_append] at hbody
    have hchildren : ∀ s : Raises, (∀ o ∈ s.top.owner, o < n.id + 1) →
        (Event.stream phase 0 (n :: path) children).foldl step s =
        (rootPlaces (n :: path) children).foldl across s :=
      ihc hc (fun m hm => hphase m (by simp [Forest.toList, hm]))
        (fun p hp => hbody p (Or.inr (Or.inl hp)))
    -- once the first tree is crossed, the rest follows
    have hrest : ∀ s', s' = s.across ⟨n, children, path⟩ →
        (Event.stream phase 0 path rest).foldl step s' =
        (rootPlaces path rest).foldl across s' := by
      rintro s' rfl
      refine ihr hr (fun m hm => hphase m (by simp [Forest.toList, hm]))
        (fun p hp => hbody p (Or.inr (Or.inr hp))) _ ?_
      intro o ho
      rw [owner_across] at ho
      have := howner o ho
      omega
    have htree : (Event.leaving phase false ⟨n, children, path⟩).foldl step
        ((Event.stream phase (0 + Place.nesting ⟨n, children, path⟩) (n :: path) children).foldl
          step ((Event.entering .selected false ⟨n, children, path⟩).foldl step s)) =
        s.across ⟨n, children, path⟩ := by
      rw [foldl_entering, foldl_leaving _ _ _ hn]
      by_cases htry : n.kind = .tryStmt
      · obtain ⟨howner', hpop⟩ :
            ((rootPlaces (n :: path) children).foldl across (s.push n.id)).top.owner = some n.id ∧
              ((rootPlaces (n :: path) children).foldl across (s.push n.id)).pop = _ :=
          foldl_try s ⟨n, children, path⟩ htry (hbody _ (Or.inl rfl))
        have hdepth : (0 : Int) + Place.nesting ⟨n, children, path⟩ = 0 := by
          simp [Place.nesting, htry, Kind.isScope]
        have hraises : Place.raises ⟨n, children, path⟩ = false := by simp [Place.raises, htry]
        have hown : (s.push n.id).top.owner = some n.id := rfl
        rw [hdepth, if_pos htry, hchildren _ (by rw [hown]; simp), hraises,
          if_neg Bool.false_ne_true, raising_nil,
          step_leave_try _ _ htry howner', across, catching, settling,
            if_neg fun h => h.1 htry, if_neg]
        · exact hpop
        · rintro ⟨hcatch, -⟩
          rw [htry] at hcatch
          cases hcatch
      · rw [if_neg htry, step_leave _ _ htry]
        cases hscope : n.kind.isScope with
        | true =>
          have hraises := Place.raises_scope (p := ⟨n, children, path⟩) hscope
          have hnested : (0 : Int) < 0 + Place.nesting ⟨n, children, path⟩ := by
            simp [Place.nesting, hscope]
          rw [Event.foldl_eq_self _ fun e he =>
            step_ignored (Or.inl (Event.nested_of_mem_stream hnested he)), hraises, across,
            Place.escapes_scope hscope]
          rfl
        | false =>
          have hdepth : (0 : Int) + Place.nesting ⟨n, children, path⟩ = 0 := by
            simp [Place.nesting, hscope]
          have hown : (s.catching ⟨n, children, path⟩).top.owner ≠ some n.id := by
            rw [owner_catching]
            intro heq
            exact absurd (howner n.id heq) (Nat.lt_irrefl _)
          rw [hdepth,
            hchildren _ (by rw [owner_catching]; exact fun o ho => Nat.lt_succ_of_lt (howner o ho)),
            foldl_across _ _ _ hown, raising_raising, across, Place.escapes_plain hscope htry]
    rw [Event.foldl_stream_cons, hn, htree, hrest _ rfl]
    rfl

theorem foldl_entering_unselected {x : Phase} (hx : x ≠ .selected) (s : Raises) (nested : Bool)
    (p : Place) :
    (Event.entering x nested p).foldl step s = s := by
  apply Event.foldl_eq_self
  intro e he
  exact step_ignored (Or.inr ((Trace.place_of_mem_entering he).1 ▸ hx))

theorem foldl_leaving_unselected (s : Raises) (nested : Bool) (p : Place)
    (hphase : phase p.node.id ≠ .selected) :
    (Event.leaving phase nested p).foldl step s = s := by
  apply Event.foldl_eq_self
  intro e he
  rcases Event.mem_leaving.mp he with ⟨c, -, b, -, rfl⟩ | ⟨-, rfl⟩ | rfl
  · exact step_name rfl
  · exact step_ignored (Or.inr hphase)
  · exact step_ignored (Or.inr hphase)

/-- Outside all `try` statements of the selection, a forest raises what escapes its topmost selected
places. -/
theorem foldl_topmost (h : Laid offset id f) (hpath : ∀ n ∈ path, phase n.id ≠ .selected)
    (hroot : path ≠ []) (hclosed : ∀ p ∈ placesBelow path f, phase p.node.id = .selected →
    ∀ r ∈ p.inner, phase r.node.id = .selected)
    (hbody : ∀ p ∈ placesBelow path f, p.HasBody) (s : Raises) (howner : s.top.owner = none) :
    (Event.stream phase 0 path f).foldl step s =
      s.raising (((exposed path f).filter fun p => p.Topmost phase).flatMap Place.escapes) := by
  induction f generalizing path offset id s with
  | nil => simp [Event.stream, exposed]
  | cons n children rest ihc ihr =>
    obtain ⟨hstart, hid, hstop, hc, hr⟩ := h
    simp only [placesBelow, List.mem_cons, List.mem_append] at hclosed hbody
    have hrest : ∀ x, (Event.stream phase 0 path rest).foldl step (s.raising x) =
        s.raising (x ++ ((exposed path rest).filter fun p => p.Topmost phase).flatMap
        Place.escapes) := by
      intro x
      rw [ihr hr hpath hroot (fun p hp => hclosed p (Or.inr (Or.inr hp)))
        (fun p hp => hbody p (Or.inr (Or.inr hp))) _
        (by rw [owner_raising]; exact howner), raising_raising]
    by_cases hn : phase n.id = .selected
    · -- the whole tree is selected, and the places below its root are not topmost
      have hlone : Laid offset id (.cons n children .nil) := ⟨hstart, hid, hstop, hc, trivial⟩
      have htree : (Event.stream phase 0 path (.cons n children .nil)).foldl step s =
          s.raising (Place.escapes ⟨n, children, path⟩) := by
        rw [foldl_stream hlone ?_ ?_ s (by rw [howner]; simp), foldl_across]
        · simp [SyntaxTree.escapes, Place.escapes]
        · rw [howner]
          cases path with
          | nil => exact absurd rfl hroot
          | cons => simp
        · exact selected_tree (hclosed _ (Or.inl rfl) hn) hn
        · intro p hp
          simp only [placesBelow, List.append_nil, List.mem_cons] at hp
          exact hbody p (hp.imp_right Or.inl)
      rw [show Forest.cons n children rest = Forest.cons n children .nil ++ rest from rfl,
        Event.stream_append, List.foldl_append, htree, hrest, Forest.cons_append, Forest.nil_append,
        filter_topmost_selected hpath hn]
      rfl
    · -- the root does nothing, and the inside of a function or type is nested
      rw [Event.foldl_stream_cons, foldl_entering_unselected hn, foldl_leaving_unselected _ _ _ hn,
        filter_topmost_unselected hn, List.flatMap_append]
      cases hscope : n.kind.isScope with
      | true =>
        have hnested : (0 : Int) < 0 + Place.nesting ⟨n, children, path⟩ := by
          simp [Place.nesting, hscope]
        rw [Event.foldl_eq_self _ fun e he =>
          step_ignored (Or.inl (Event.nested_of_mem_stream hnested he))]
        have hempty := hrest []
        rw [raising_nil] at hempty
        rw [hempty]
        rfl
      | false =>
        have hdepth : (0 : Int) + Place.nesting ⟨n, children, path⟩ = 0 := by
          simp [Place.nesting, hscope]
        rw [hdepth, ihc hc (List.forall_mem_cons.mpr ⟨hn, hpath⟩) (by simp)
          (fun p hp => hclosed p (Or.inr (Or.inl hp))) (fun p hp => hbody p (Or.inr (Or.inl hp))) s
          howner, hrest]
        rfl

end Raises

namespace Trace

open SyntaxTree

variable {sel : Extent} {t : SyntaxTree} {a b : Nat} {m : Place} {s : Trace}

theorem Located.raises_eq (h : Laid 0 0 t) (hm : m ∈ t.places) (hl : Located sel m a b s)
    (hbody : ∀ p ∈ t.places, p.HasBody) (ds : List Diagnostic) :
    Raises.ofEvents s.events.toList =
      Raises.raising {} (((exposed m.below m.children).filter
        fun p => p.node.id ∈ (s.verdict sel ds).selected).flatMap Place.escapes) := by
  obtain ⟨before, after, hevents, hbefore, -, hafter⟩ := hl.events
  have hfirst : before.foldl Raises.step {} = {} :=
    Event.foldl_eq_self _ fun e he => Raises.step_ignored (Or.inr (hbefore e he).1.ne_selected)
  have hlast : ∀ s : Raises, after.foldl Raises.step s = s := fun s =>
    Event.foldl_eq_self s fun e he => Raises.step_ignored (Or.inr (hafter e he).1.ne_selected)
  have hstream : (Event.stream (Phase.among a b) 0 m.below m.children).foldl Raises.step {} = _ :=
    Raises.foldl_topmost (laid_children h hm).1 (hl.below_unselected h hm) (List.cons_ne_nil _ _)
      (fun p hp hsel r hr => hl.selected_inner h hm hp hsel hr)
      (fun p hp => hbody p (inner_subset hm p hp)) {} rfl
  have hselected : ((exposed m.below m.children).filter fun p => p.Topmost (Phase.among a b)) =
      (exposed m.below m.children).filter fun p => p.node.id ∈ (s.verdict sel ds).selected := by
    apply List.filter_congr
    intro p hp
    rw [decide_eq_decide]
    exact (hl.mem_selected_iff h hm (exposed_subset _ _ p hp)).symm
  rw [Raises.ofEvents, hevents, List.foldl_append, List.foldl_append, hfirst, hstream,
    hlast, hselected]

theorem Located.filter_inMethod (h : Laid 0 0 t) (hm : m ∈ t.places) (hl : Located sel m a b s)
    (ds : List Diagnostic) :
    (t.places.filter fun p => p.node.id ∈ (s.verdict sel ds).selected ∧
      p.InMethod (s.verdict sel ds)) =
      (exposed m.below m.children).filter fun p => p.node.id ∈ (s.verdict sel ds).selected := by
  have hantisymm : Std.Antisymm fun p q : Place => p.node.id < q.node.id :=
    ⟨fun p q hpq hqp => absurd hpq (Nat.lt_asymm hqp)⟩
  have hirrefl : Std.Irrefl fun p q : Place => p.node.id < q.node.id :=
    ⟨fun p => Nat.lt_irrefl p.node.id⟩
  have hexposed : (exposed m.below m.children).Pairwise fun p q => p.node.id < q.node.id :=
    (pairwise_id m.below (laid_children h hm).1).sublist (exposed_sublist _ _)
  apply ((pairwise_id [] h).filter _).eq_of_mem_iff (hexposed.filter _)
  intro p
  simp only [List.mem_filter, decide_eq_true_iff]
  constructor
  · rintro ⟨hp, hsel, hmethod⟩
    have hin := hl.mem_inner_of_selected h hm hp hsel
    rw [Place.InMethod, hl.verdict_method] at hmethod
    exact ⟨(mem_exposed_iff h hm hl.isScope hin).mpr hmethod, hsel⟩
  · rintro ⟨hp, hsel⟩
    have hin := exposed_subset _ _ p hp
    refine ⟨inner_subset hm p hin, hsel, ?_⟩
    rw [Place.InMethod, hl.verdict_method]
    exact (mem_exposed_iff h hm hl.isScope hin).mp hp

end Trace

/-- Every selection of every tree has a verdict.  The exceptions of the verdict are those that
escape the top-level selected nodes, but for nodes inside a function or type within the enclosing
method, each type once and in order of its first escape. -/
theorem throws_eq_escapes (s : Sketch) (hbody : ∀ p ∈ s.layout.places, p.HasBody) (sel : Extent)
    (boundaries : Boundaries) :
    ∃ w, analyze s.layout sel boundaries = .ok w ∧ w.NamesMethod s.layout sel ∧
      (Trace.Enclosed sel s.layout → s.layout.Uncut sel →
        w.selected = (s.layout.maximalCovered sel).map (·.node.id)) ∧
      w.throws = ((s.layout.places.filter fun p => p.node.id ∈ w.selected ∧ p.InMethod w).flatMap
        Place.escapes).eraseDups := by
  have h : SyntaxTree.Laid 0 0 s.layout := SyntaxTree.laid_layout s
  obtain ⟨w, hw, hcases⟩ := Trace.exists_analysis (t := s.layout) sel boundaries h
  refine ⟨w, hw, Trace.namesMethod_of_analyze (t := s.layout) h hw,
    Trace.selected_of_analyze hw, ?_⟩
  rcases hcases with ⟨m, a, b, ds, hm, hl, -, -, hds, hsome, rfl⟩ | ⟨-, d, method, -, rfl⟩
  · have hthrows : ((Trace.ofSelection s.layout sel).verdict sel ds).throws =
        (Raises.ofEvents (Trace.ofSelection s.layout sel).events.toList).escaping := by
      rw [Trace.verdict, hsome]
      rfl
    rw [hthrows, hl.raises_eq h hm hbody ds, hl.filter_inMethod h hm ds,
      ← TypeSet.union_eq_eraseDups]
    rfl
  · rw [List.filter_eq_nil_iff.mpr (by simp)]
    rfl

/-- A `try` statement whose body raises two types and whose catch clause handles one of them and
raises a third. -/
def rethrowing : Sketch :=
  .file [some (.method "m" true [] [some (.tryStmt
    (some
    (.block
      [some (.eval (some (.call "f" [.root "A" false, .sub "B" false (.root "A" false)] [])))]))
    [some (.catchClause none [.sub "B" false (.root "A" false)]
      (some (.block [some (.throwStmt [.root "C" false] none)])))]
    none)])]

def rethrowingVerdict : Verdict where
  diagnostics := []
  throws := [.root "A" false, .root "C" false]
  method := some 1
  selected := [3]

/-- The handled type is a subtype of the one that escapes. -/
theorem rethrowing_throws :
    (∀ p ∈ rethrowing.layout.places, p.HasBody) ∧
      analyze rethrowing.layout ⟨3, 16⟩ .everywhere = .ok rethrowingVerdict ∧
      rethrowingVerdict.throws =
          (Place.escapes (rethrowing.layout.places.get ⟨3, by decide⟩)).eraseDups := by
  have hbody : ∀ p ∈ rethrowing.layout.places, p.HasBody := by decide +kernel
  have hverdict : analyze rethrowing.layout ⟨3, 16⟩ .everywhere = .ok rethrowingVerdict := by
    decide +kernel
  obtain ⟨w, hw, -, -, hthrows⟩ := throws_eq_escapes rethrowing hbody ⟨3, 16⟩ .everywhere
  obtain rfl : rethrowingVerdict = w := Except.ok.inj (hverdict.symm.trans hw)
  refine ⟨hbody, hverdict, ?_⟩
  rw [hthrows]
  decide +kernel

/-- A type escapes a top-level selected node, and the verdict does not list it. -/
def Sketch.HidesRaise (s : Sketch) (sel : Extent) : Prop :=
  (∀ p ∈ s.layout.places, p.HasBody) ∧ ∃ w, analyze s.layout sel .everywhere = .ok w ∧ w.Legal ∧
    w.method.isSome = true ∧
    w.throws ≠ ((s.layout.places.filter fun p => p.node.id ∈ w.selected).flatMap
      Place.escapes).eraseDups

/-- A lambda that raises a type. -/
def nestedThrow : Sketch :=
  .file [some (.method "m" true []
    [some (.eval (some (.lambda true [some (.throwStmt [.root "A" false] none)])))])]

/-- The selection starts with the first byte of the block of the lambda, which does not enclose it,
so the method of the verdict is the one around the lambda. -/
theorem nestedThrow_hidesRaise : nestedThrow.HidesRaise ⟨5, 3⟩ := by
  let w : Verdict := { diagnostics := [], method := some 1, selected := [6] }
  refine ⟨by decide +kernel, w, by decide +kernel, rfl, rfl, ?_⟩
  decide +kernel

end Extraction
