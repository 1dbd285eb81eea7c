import Extraction.GoCode.Tree
import Extraction.Proofs.Enclosing

/-!
# Forests in source order

The nodes of a forest that Go code is translated into stand one after the other within the node
above them.  There are two exceptions: a leaf may repeat the range of the leaf before it, and an
assignment may name the variable of a target once more after the target.
-/

namespace Extraction

/-- The node has nothing to do with exceptions and is no loop that tests after its body. -/
def Payload.Plain (p : Payload) : Prop :=
  p.kind ∉ [.tryStmt, .catchClause, .finallyClause, .doWhile] ∧ p.types = []

def Node.Within (n : Node) (range : Span) : Prop :=
  range.start ≤ n.start ∧ n.start ≤ n.stop ∧ n.stop ≤ range.stop

theorem Node.Within.widen {n : Node} {range : Span} {start stop : Int} (h : n.Within range)
    (hstart : start ≤ range.start) (hstop : range.stop ≤ stop) : n.Within ⟨start, stop⟩ :=
  ⟨Int.le_trans hstart h.1, h.2.1, Int.le_trans h.2.2 hstop⟩

namespace SyntaxTree

/-- The forest stands below a node of kind `parent`, from `lo` to `hi` and behind a node with the
range `before`, if there is one, of which it is known whether it is a leaf. -/
inductive InOrder : Option Kind → Option (Span × Bool) → Int → Int → SyntaxTree → Prop where
  | nil {parent before lo hi} (hle : lo ≤ hi) : InOrder parent before lo hi .nil
  | next {parent before lo hi children rest} {n : Node} (leaf : Bool)
      (hleaf : leaf = true → children = .nil)
      (hplain : n.Plain) (hstart : lo ≤ n.start)
        (hchildren : InOrder (some n.kind) none n.start n.stop children)
      (hrest : InOrder parent (some (⟨n.start, n.stop⟩, leaf)) n.stop hi rest) :
      InOrder parent before lo hi (.cons n children rest)
  /-- A leaf over the leaf before it. -/
  | again {parent range lo hi rest} {n : Node} (hplain : n.Plain) (hwithin : n.Within range)
      (hlo : range.stop ≤ lo) (hrest : InOrder parent (some (⟨n.start, n.stop⟩, true)) lo hi rest) :
      InOrder parent (some (range, true)) lo hi (.cons n .nil rest)
  /-- The variable that holds what the target before it denotes. -/
  | stored {parent range leaf lo hi rest} {n : Node} (hparent : parent = some .assign ∨
      parent = some .incDec)
      (hname : n.kind = .name) (hplain : n.Plain) (hwithin : n.Within range) (hlo : range.stop ≤ lo)
      (hrest : InOrder parent none lo hi rest) :
      InOrder parent (some (range, leaf)) lo hi (.cons n .nil rest)

variable {parent : Option Kind} {before : Option (Span × Bool)} {lo mid hi : Int} {f g : SyntaxTree}

theorem InOrder.le (h : InOrder parent before lo hi f) : lo ≤ hi := by
  induction h with
  | nil hle => exact hle
  | next _ _ _ hstart _ _ ihc ihr => exact Int.le_trans hstart (Int.le_trans ihc ihr)
  | again _ _ _ _ ih => exact ih
  | stored _ _ _ _ _ _ ih => exact ih

theorem InOrder.raise (h : InOrder parent before lo mid f) (hle : mid ≤ hi) :
    InOrder parent before lo hi f := by
  induction h with
  | nil hlo => exact .nil (Int.le_trans hlo hle)
  | next leaf hleaf hplain hstart hchildren _ _ ihr =>
    exact .next leaf hleaf hplain hstart hchildren (ihr hle)
  | again hplain hwithin hlo _ ih => exact .again hplain hwithin hlo (ih hle)
  | stored hparent hname hplain hwithin hlo _ ih =>
    exact .stored hparent hname hplain hwithin hlo (ih hle)

/-- A forest that does not look at the node before it may stand behind any node, and start
earlier. -/
theorem InOrder.behind (h : InOrder parent none mid hi f) (hle : lo ≤ mid) :
    InOrder parent before lo hi f := by
  cases h with
  | nil hmid => exact .nil (Int.le_trans hle hmid)
  | next leaf hleaf hplain hstart hchildren hrest =>
    exact .next leaf hleaf hplain (Int.le_trans hle hstart) hchildren hrest

theorem InOrder.append (hf : InOrder parent before lo mid f) (hg : InOrder parent none mid hi g) :
    InOrder parent before lo hi (f ++ g) := by
  induction hf with
  | nil hle => exact hg.behind hle
  | next leaf hleaf hplain hstart hchildren _ _ ihr =>
    exact .next leaf hleaf hplain hstart hchildren (ihr hg)
  | again hplain hwithin hlo _ ih => exact .again hplain hwithin hlo (ih hg)
  | stored hparent hname hplain hwithin hlo _ ih =>
    exact .stored hparent hname hplain hwithin hlo (ih hg)

theorem InOrder.single {range : Span} {payload : Payload} (hplain : payload.Plain)
    (hstart : lo ≤ range.start) (hstop : range.stop = hi)
    (hchildren : InOrder (some payload.kind) none range.start hi f) :
    InOrder parent before lo hi (SyntaxTree.single range payload f) := by
  subst hstop
  exact .next false (by simp) hplain hstart hchildren (.nil (Int.le_refl _))

section Numbers

@[simp] theorem size_numberFrom (f : SyntaxTree) (id : Nat) : (f.numberFrom id).size = f.size := by
  induction f generalizing id with
  | nil => rfl
  | cons n children rest ihc ihr => simp only [numberFrom, Forest.size, ihc, ihr]

theorem numberFrom_append (f g : SyntaxTree) (id : Nat) :
    (f ++ g).numberFrom id = f.numberFrom id ++ g.numberFrom (id + f.size) := by
  induction f generalizing id with
  | nil => rfl
  | cons n children rest _ ihr =>
    have hid : id + 1 + children.size + rest.size = id + (Forest.cons n children rest).size := by
      simp only [Forest.size]
      omega
    simp only [Forest.cons_append, numberFrom, ihr, hid]

theorem ids_numberFrom (f : SyntaxTree) (id : Nat) :
    (f.numberFrom id).toList.map (·.id) = List.range' id f.size := by
  induction f generalizing id with
  | nil => rfl
  | cons n children rest ihc ihr =>
    have hsize : (Forest.cons n children rest).size = 1 + (children.size + rest.size) := by
      simp only [Forest.size]
      omega
    rw [hsize, ← List.range'_append_1, ← List.range'_append_1]
    simp [numberFrom, Forest.toList, ihc, ihr]

theorem id_lt_of_parent (f : SyntaxTree) {id : Nat} {path : List Node}
    (hpath : ∀ m ∈ path.head?, m.id < id) {p : Place}
    (hp : p ∈ placesBelow path (f.numberFrom id)) : ∀ m ∈ p.parent?, m.id < p.node.id := by
  induction f generalizing id path with
  | nil => cases hp
  | cons n children rest ihc ihr =>
    simp only [numberFrom, placesBelow, List.mem_cons, List.mem_append] at hp
    rcases hp with rfl | hp | hp
    · exact hpath
    · refine ihc (fun m hm => ?_) hp
      cases hm
      exact Nat.lt_succ_self id
    · exact ihr (fun m hm => Nat.lt_of_lt_of_le (hpath m hm) (by omega)) hp

theorem InOrder.numberFrom (h : InOrder parent before lo hi f) (id : Nat) :
    InOrder parent before lo hi (f.numberFrom id) := by
  induction h generalizing id with
  | nil hle => exact .nil hle
  | next leaf hleaf hplain hstart _ _ ihc ihr =>
    refine .next leaf (fun h => ?_) hplain hstart (ihc _) (ihr _)
    rw [hleaf h]
    rfl
  | again hplain hwithin hlo _ ih => exact .again hplain hwithin hlo (ih _)
  | stored hparent hname hplain hwithin hlo _ ih =>
    exact .stored hparent hname hplain hwithin hlo (ih _)

end Numbers

theorem InOrder.within (h : InOrder parent before lo hi f) {start : Int} (hstart : start ≤ lo)
    (hbefore : ∀ b ∈ before, start ≤ b.1.start) :
    ∀ n ∈ f.toList, n.Plain ∧ n.Within ⟨start, hi⟩ := by
  induction h generalizing start with
  | nil => exact List.forall_mem_nil _
  | @next _ _ _ _ _ _ n _ _ hplain hle hchildren hrest ihc ihr =>
    have hfrom : start ≤ n.start := Int.le_trans hstart hle
    intro k hk
    simp only [Forest.toList, List.mem_cons, List.mem_append] at hk
    rcases hk with rfl | hk | hk
    · exact ⟨hplain, hfrom, hchildren.le, hrest.le⟩
    · obtain ⟨hk₁, hk₂⟩ := ihc (Int.le_refl _) (by simp) k hk
      exact ⟨hk₁, hk₂.widen hfrom hrest.le⟩
    · refine ihr (Int.le_trans hfrom hchildren.le) (fun b hb => ?_) k hk
      cases hb
      exact hfrom
  | @again _ range _ _ _ n hplain hwithin hlo hrest ih =>
    have hrange : start ≤ range.start := hbefore _ rfl
    refine List.forall_mem_cons.mpr ⟨⟨hplain, hwithin.widen hrange (Int.le_trans hlo hrest.le)⟩,
      ih hstart fun b hb => ?_⟩
    cases hb
    exact Int.le_trans hrange hwithin.1
  | @stored _ range _ _ _ _ n _ _ hplain hwithin hlo hrest ih =>
    have hrange : start ≤ range.start := hbefore _ rfl
    exact List.forall_mem_cons.mpr
      ⟨⟨hplain, hwithin.widen hrange (Int.le_trans hlo hrest.le)⟩, ih hstart (by simp)⟩

theorem InOrder.store {n k root : Node} (h : InOrder parent none lo hi (.cons n f .nil))
    (hstop : n.stop = hi) (hparent : parent = some .assign ∨ parent = some .incDec)
    (hk : k ∈ (Forest.cons n f .nil).toList) (hname : root.kind = .name) (hplain : root.Plain)
    (hrange : root.start = k.start ∧ root.stop = k.stop) :
    InOrder parent none lo hi (.cons n f .nil ++ .cons root .nil .nil) := by
  cases h with
  | next leaf hleaf hn hstart hchildren hrest =>
    have hsame : InOrder parent none n.start hi (.cons n f .nil) :=
      .next leaf hleaf hn (Int.le_refl _) hchildren hrest
    obtain ⟨-, hwithin⟩ := hsame.within (Int.le_refl _) (by simp) k hk
    subst hstop
    have hroot : root.Within ⟨n.start, n.stop⟩ := by
      rw [Node.Within, hrange.1, hrange.2]
      exact hwithin
    exact .next leaf hleaf hn hstart hchildren
      (.stored hparent hname hplain hroot (Int.le_refl _) (.nil (Int.le_refl _)))

theorem InOrder.nested (h : InOrder parent before lo hi f) {path : List Node}
    (hpath : ∀ m ∈ path.head?, ∀ n ∈ f.roots, n.Within ⟨m.start, m.stop⟩) {p : Place}
    (hp : p ∈ placesBelow path f) :
    ∀ m ∈ p.parent?, p.node.Within ⟨m.start, m.stop⟩ := by
  induction h generalizing path with
  | nil => cases hp
  | next _ _ _ _ hchildren _ ihc ihr =>
    simp only [placesBelow, List.mem_cons, List.mem_append] at hp
    rcases hp with rfl | hp | hp
    · exact fun m hm => hpath m hm _ List.mem_cons_self
    · refine ihc (fun m hm n hn => ?_) hp
      cases hm
      exact (hchildren.within (Int.le_refl _) (by simp) n (roots_subset n hn)).2
    · exact ihr (fun m hm n hn => hpath m hm n (List.mem_cons_of_mem _ hn)) hp
  | again _ _ _ _ ih | stored _ _ _ _ _ _ ih =>
    rcases List.mem_cons.mp hp with rfl | hp
    · exact fun m hm => hpath m hm _ List.mem_cons_self
    · exact ih (fun m hm n hn => hpath m hm n (List.mem_cons_of_mem _ hn)) hp

end SyntaxTree

end Extraction
