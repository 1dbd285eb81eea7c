import Extraction.Proofs.Layout

/-!
# Trees made by the constructors

A sketch is built if it is made by the constructors alone.  The constructors fix in which roles and
in which order the children of a node stand, so the same is true of every place of the laid-out
tree.
-/

namespace Extraction

namespace Sketch

/-- Sketches made by the constructors from parts that are made by them. -/
inductive Built : Sketch → Prop where
  | file {decls} (h : ∀ x, some x ∈ decls → Built x) : Built (file decls)
  | type (name) {members} (h : ∀ x, some x ∈ members → Built x) : Built (type name members)
  | block {stmts} (h : ∀ x, some x ∈ stmts → Built x) : Built (block stmts)
  | method (name void params) {body} (h : ∀ x, some x ∈ body → Built x) : Built
      (method name void params body)
  | lambda (void) {body} (h : ∀ x, some x ∈ body → Built x) : Built (lambda void body)
  | eval {expr} (h : ∀ x ∈ expr, Built x) : Built (eval expr)
  | declare (v) {value} (h : ∀ x ∈ value, Built x) : Built (declare v value)
  | ref (v) : Built (ref v)
  | assign (compound v) {source} (h : ∀ x ∈ source, Built x) : Built (assign compound v source)
  | increment (v) : Built (increment v)
  | call (name types) {arguments} (h : ∀ x, some x ∈ arguments → Built x) : Built
      (call name types arguments)
  | operation {operands} (h : ∀ x, some x ∈ operands → Built x) : Built (operation operands)
  | ret {value} (h : ∀ x ∈ value, Built x) : Built (ret value)
  | jump (kind label) (h : kind.isBranch = true) : Built (jump kind label)
  | conditional {cond thenBranch elseBranch} (hcond : ∀ x ∈ cond, Built x)
      (hthen : ∀ x ∈ thenBranch, Built x)
      (helse : ∀ x ∈ elseBranch, Built x) : Built (conditional cond thenBranch elseBranch)
  | loop {init cond post body} (hinit : ∀ x ∈ init, Built x) (hcond : ∀ x ∈ cond, Built x)
      (hpost : ∀ x ∈ post, Built x) (hbody : ∀ x ∈ body, Built x) : Built (loop init cond post body)
  | doWhile {body cond} (hbody : ∀ x ∈ body, Built x) (hcond : ∀ x ∈ cond, Built x) : Built
      (doWhile body cond)
  | labeled (label) {stmt} (h : ∀ x ∈ stmt, Built x) : Built (labeled label stmt)
  | switch {tag cases} (htag : ∀ x ∈ tag, Built x) (hcases : ∀ x, some x ∈ cases → Built x) : Built
      (switch tag cases)
  | caseOf {value stmts} (hvalue : ∀ x ∈ value, Built x) (hstmts : ∀ x, some x ∈ stmts → Built x) :
      Built (caseOf value stmts)
  | defaultCase {stmts} (h : ∀ x, some x ∈ stmts → Built x) : Built (defaultCase stmts)
  | tryStmt {body catches final} (hbody : ∀ x ∈ body, Built x)
      (hcatches : ∀ x, some x ∈ catches → Built x)
      (hfinal : ∀ x ∈ final, Built x) : Built (tryStmt body catches final)
  | catchClause (v types) {body} (h : ∀ x ∈ body, Built x) : Built (catchClause v types body)
  | throwStmt (types) {expr} (h : ∀ x ∈ expr, Built x) : Built (throwStmt types expr)
  | other {parts} (h : ∀ x, some x ∈ parts → Built x) : Built (other parts)
  | tagged (tag) {s} (h : Built s) : Built (s.modify fun p => { p with tag })

namespace Built

/-! The parts of a sketch, one after the other. -/

theorem nil : ∀ x, some x ∈ ([] : List (Option Sketch)) → Built x :=
  fun _ h => absurd h List.not_mem_nil

theorem cons {s : Sketch} {parts : List (Option Sketch)} (hs : Built s)
    (h : ∀ x, some x ∈ parts → Built x) :
    ∀ x, some x ∈ some s :: parts → Built x := by
  intro x hx
  rcases List.mem_cons.mp hx with he | hx
  · exact Option.some.inj he ▸ hs
  · exact h x hx

theorem absent : ∀ x ∈ (none : Option Sketch), Built x :=
  fun x h => absurd h (Option.not_mem_none x)

theorem present {s : Sketch} (hs : Built s) : ∀ x ∈ some s, Built x := by
  rintro x ⟨⟩
  exact hs

end Built

end Sketch

/-- The roles in which the children of a node of the given kind may stand, in order. -/
def Kind.Takes (kind : Kind) (roles : List Role) : Prop :=
  match kind with
  | .ifStmt => roles.Sublist [.cond, .thenBranch, .elseBranch]
  | .loop => roles.Sublist [.init, .cond, .post, .body]
  | .doWhile => roles.Sublist [.body, .cond]
  | .labeled => roles.Sublist [.body]
  | .assign => roles.Sublist [.target, .source]
  | .declarator => roles.Sublist [.value]
  | .switch | .caseClause =>
    (∀ r ∈ roles.head?, r = .cond ∨ r = .unspecified) ∧ ∀ r ∈ roles.tail, r = .unspecified
  | .method | .lambda | .catchClause | .tryStmt => ∀ r ∈ roles, r = .unspecified ∨ r = .body
  | .breakStmt | .continueStmt | .gotoStmt | .fallthroughStmt | .name => roles = []
  | _ => ∀ r ∈ roles, r = .unspecified

theorem Kind.Takes.plain {kind : Kind} {roles : List Role} (h : kind.Takes roles)
    (hstatement : kind.isStatement = false) (hscope : kind.isScope = false) :
    ∀ r ∈ roles, r = .unspecified := by
  cases kind <;>
    first | exact h | exact h ▸
    List.forall_mem_nil _ | exact Bool.noConfusion hstatement | exact Bool.noConfusion hscope

namespace Forest

variable {α : Type}

def Everywhere (P : α → Forest α → Prop) : Forest α → Prop
  | nil => True
  | cons root children rest => P root children ∧ children.Everywhere P ∧ rest.Everywhere P

theorem everywhere_ofTrees {P : α → Forest α → Prop} {ts : List (Tree α)} :
    (ofTrees ts).Everywhere P ↔ ∀ t ∈ ts, P t.root t.children ∧ t.children.Everywhere P := by
  induction ts with
  | nil => simp [ofTrees, Everywhere]
  | cons t ts ih => simp [ofTrees, Everywhere, ih, and_assoc]

theorem roots_ofTrees (ts : List (Tree α)) : (ofTrees ts).roots = ts.map (·.root) := by
  induction ts with
  | nil => rfl
  | cons t ts ih => simp [ofTrees, roots, ih]

end Forest

namespace Sketch

def Fits (p : Payload) (children : Forest Payload) : Prop :=
  p.kind.Takes (children.roots.map (·.role))

/-- Whether the rules of the roles are kept in all of a sketch, whose root may still be given a
role. -/
def Proper (s : Sketch) : Prop :=
  s.root.role = .unspecified ∧ Fits s.root s.children ∧ s.children.Everywhere Fits

def Placed (x : Sketch) : Prop :=
  ∃ y role, Proper y ∧ x = y.modify fun p => { p with role }

theorem Proper.placed {x : Sketch} (h : Proper x) : Placed x :=
  ⟨x, .unspecified, h, by rw [modify, ← h.1]⟩

theorem placed_inRole {role : Role} {c : Option Sketch} (h : ∀ y ∈ c, Proper y) {x : Sketch}
    (hx : some x = inRole role c) : Placed x := by
  obtain ⟨y, hy, rfl⟩ := Option.map_eq_some_iff.mp hx.symm
  exact ⟨y, role, h y hy, rfl⟩

theorem proper_ofKind (kind : Kind) {parts : List (Option Sketch)}
    (hparts : ∀ x, some x ∈ parts → Placed x)
    (htakes : kind.Takes ((parts.filterMap id).map (·.root.role))) :
    Proper (ofKind kind parts) := by
  refine ⟨rfl, ?_, Forest.everywhere_ofTrees.mpr fun x hx => ?_⟩
  · rw [Fits, ofKind, Forest.roots_ofTrees, List.map_map]
    exact htakes
  · obtain ⟨part, hpart, rfl⟩ := List.mem_filterMap.mp hx
    obtain ⟨y, role, hy, rfl⟩ := hparts x hpart
    exact hy.2

theorem proper_plain (kind : Kind) {parts : List (Option Sketch)}
    (h : ∀ x, some x ∈ parts → Proper x)
    (htakes : ∀ roles : List Role, (∀ r ∈ roles, r = .unspecified) → kind.Takes roles) :
    Proper (ofKind kind parts) := by
  refine proper_ofKind kind (fun x hx => (h x hx).placed) (htakes _ fun r hr => ?_)
  obtain ⟨x, hx, rfl⟩ := List.mem_map.mp hr
  obtain ⟨part, hpart, rfl⟩ := List.mem_filterMap.mp hx
  exact (h x hpart).1

theorem proper_roles (kind : Kind) (parts : List (Role × Option Sketch))
    (h : ∀ q ∈ parts, ∀ x ∈ q.2, Proper x)
    (htakes : ∀ roles : List Role, roles.Sublist (parts.map (·.1)) → kind.Takes roles) :
    Proper (ofKind kind (parts.map fun q => inRole q.1 q.2)) := by
  refine proper_ofKind kind (fun x hx => ?_) (htakes _ ?_)
  · obtain ⟨q, hq, hx⟩ := List.mem_map.mp hx
    exact placed_inRole (h q hq) hx.symm
  · clear h htakes
    induction parts with
    | nil => exact List.Sublist.slnil
    | cons q parts ih =>
      obtain ⟨role, c⟩ := q
      cases c with
      | none => exact List.Sublist.cons _ ih
      | some x => exact List.Sublist.cons_cons _ ih

theorem Proper.modify {s : Sketch} (h : Proper s) {f : Payload → Payload}
    (hkind : (f s.root).kind = s.root.kind) (hrole : (f s.root).role = s.root.role) :
    Proper (s.modify f) := by
  refine ⟨hrole.trans h.1, ?_, h.2.2⟩
  rw [Fits, Sketch.modify, hkind]
  exact h.2.1

theorem proper_parameter (v : Option Binding) : Proper (parameter v) :=
  (proper_roles .declarator [] (by simp) fun _ h => h.trans (by simp)).modify rfl rfl

theorem proper_ref (v : Option Binding) : Proper (ref v) := by
  have htakes : Kind.name.Takes ((([] : List (Option Sketch)).filterMap id).map (·.root.role)) :=
    rfl
  exact (proper_ofKind .name (by simp) htakes).modify rfl rfl

theorem proper_block {stmts : List (Option Sketch)} (h : ∀ x, some x ∈ stmts → Proper x) :
    Proper (block stmts) :=
  proper_plain .block h fun _ h => h

theorem proper_eval {expr : Option Sketch} (h : ∀ x ∈ expr, Proper x) : Proper (eval expr) :=
  proper_plain .exprStmt (fun x hx => h x (List.mem_singleton.mp hx).symm) fun _ h => h

theorem proper_headed {kind : Kind} (hkind : kind = .switch ∨ kind = .caseClause)
    {head : Option Sketch} {parts : List (Option Sketch)} (hhead : ∀ x ∈ head, Proper x)
    (hparts : ∀ x, some x ∈ parts → Proper x) :
    Proper (ofKind kind (inRole .cond head :: parts)) := by
  have hroles : ∀ r ∈ (parts.filterMap id).map (·.root.role), r = .unspecified := by
    intro r hr
    obtain ⟨x, hx, rfl⟩ := List.mem_map.mp hr
    obtain ⟨part, hpart, rfl⟩ := List.mem_filterMap.mp hx
    exact (hparts x hpart).1
  refine proper_ofKind kind (fun x hx => ?_) ?_
  · rcases List.mem_cons.mp hx with hx | hx
    · exact placed_inRole hhead hx
    · exact (hparts x hx).placed
  · have htakes : ∀ roles : List Role, (∀ r ∈ roles.head?, r = .cond ∨ r = .unspecified) →
        (∀ r ∈ roles.tail, r = .unspecified) → kind.Takes roles := by
      rcases hkind with rfl | rfl <;> exact fun roles h₁ h₂ => ⟨h₁, h₂⟩
    cases head with
    | none =>
      exact htakes _ (fun r hr => Or.inr (hroles r (List.mem_of_mem_head? hr))) fun r hr =>
        hroles r (List.mem_of_mem_tail hr)
    | some x => exact htakes _ (fun r hr => Or.inl (Option.some.inj hr).symm) hroles

theorem proper_bodied (kind : Kind) {parts : List (Option Sketch)}
    (hkind : ∀ roles : List Role, (∀ r ∈ roles, r = .unspecified ∨ r = .body) → kind.Takes roles)
    (hparts : ∀ x, some x ∈ parts → Proper x ∨ ∃ c : Option Sketch, (∀ y ∈ c, Proper y) ∧
    some x = inRole .body c) :
    Proper (ofKind kind parts) := by
  refine proper_ofKind kind (fun x hx => ?_) (hkind _ fun r hr => ?_)
  · rcases hparts x hx with hx | ⟨c, hc, hx⟩
    · exact hx.placed
    · exact placed_inRole hc hx
  · obtain ⟨x, hx, rfl⟩ := List.mem_map.mp hr
    obtain ⟨part, hpart, rfl⟩ := List.mem_filterMap.mp hx
    rcases hparts x hpart with hx | ⟨c, _, hx⟩
    · exact Or.inl hx.1
    · obtain ⟨y, _, rfl⟩ := Option.map_eq_some_iff.mp hx.symm
      exact Or.inr rfl

theorem Built.proper {s : Sketch} (h : Built s) : Proper s := by
  induction h with
  | file _ ih => exact proper_plain .file ih fun _ h => h
  | type name _ ih => exact (proper_plain .typeDecl ih fun _ h => h).modify rfl rfl
  | block _ ih => exact proper_block ih
  | method name void params _ ih =>
    refine (proper_bodied .method (fun _ h => h) fun x hx => ?_).modify rfl rfl
    rcases List.mem_append.mp hx with hx | hx
    · obtain ⟨v, _, hx⟩ := List.mem_map.mp hx
      cases hx
      exact Or.inl (proper_parameter v)
    · refine Or.inr ⟨some (Sketch.block _), ?_, List.mem_singleton.mp hx⟩
      rintro y ⟨⟩
      exact proper_block ih
  | lambda void _ ih =>
    refine (proper_bodied .lambda (fun _ h => h) fun x hx => ?_).modify rfl rfl
    refine Or.inr ⟨some (Sketch.block _), ?_, List.mem_singleton.mp hx⟩
    rintro y ⟨⟩
    exact proper_block ih
  | eval _ ih => exact proper_eval ih
  | declare v _ ih =>
    refine proper_plain .localDecl (fun x hx => ?_) fun _ h => h
    cases List.mem_singleton.mp hx
    exact (proper_roles .declarator [(.value, _)] (by simp_all) fun _ h => h).modify rfl rfl
  | ref v => exact proper_ref v
  | assign compound v _ ih =>
    refine proper_eval fun x hx => ?_
    cases hx
    refine Proper.modify (proper_roles .assign [(.target, some (Sketch.ref v)), (.source, _)] ?_
      fun _ h => h) rfl rfl
    simp only [List.mem_cons, List.not_mem_nil, or_false, forall_eq_or_imp, forall_eq,
      Option.mem_some_iff]
    exact ⟨fun x hx => hx ▸ proper_ref v, ih⟩
  | increment v =>
    refine proper_eval fun x hx => ?_
    cases hx
    refine proper_plain .incDec (fun x hx => ?_) fun _ h => h
    cases List.mem_singleton.mp hx
    exact proper_ref v
  | call name types _ ih => exact (proper_plain .call ih fun _ h => h).modify rfl rfl
  | operation _ ih => exact proper_plain .otherExpr ih fun _ h => h
  | ret _ ih =>
    exact (proper_plain .returnStmt (fun x hx => ih x (List.mem_singleton.mp hx).symm) fun _ h =>
      h).modify rfl rfl
  | jump kind label h =>
    refine Proper.modify (proper_ofKind kind (by simp) ?_) rfl rfl
    cases kind <;> first | rfl | cases h
  | conditional _ _ _ ihc iht ihe =>
    exact proper_roles .ifStmt [(.cond, _), (.thenBranch, _), (.elseBranch, _)]
      (by simp_all) fun _ h => h
  | loop _ _ _ _ ihi ihc ihp ihb =>
    exact proper_roles .loop [(.init, _), (.cond, _), (.post, _), (.body, _)]
      (by simp_all) fun _ h => h
  | doWhile _ _ ihb ihc =>
    exact proper_roles .doWhile [(.body, _), (.cond, _)] (by simp_all) fun _ h => h
  | labeled label _ ih =>
    exact (proper_roles .labeled [(.body, _)] (by simp_all) fun _ h => h).modify rfl rfl
  | switch _ _ iht ihc => exact proper_headed (Or.inl rfl) iht ihc
  | caseOf _ _ ihv ihs => exact proper_headed (Or.inr rfl) ihv ihs
  | defaultCase _ ih =>
    exact (proper_plain .caseClause ih fun roles h =>
      ⟨fun r hr => Or.inr (h r (List.mem_of_mem_head? hr)),
        fun r hr => h r (List.mem_of_mem_tail hr)⟩).modify rfl rfl
  | tryStmt _ _ _ ihb ihc ihf =>
    refine proper_bodied .tryStmt (fun _ h => h) fun x hx => ?_
    simp only [List.mem_cons, List.mem_append, List.not_mem_nil, or_false] at hx
    rcases hx with hx | hx | hx
    · exact Or.inr ⟨_, ihb, hx⟩
    · exact Or.inl (ihc x hx)
    · obtain ⟨y, hy, rfl⟩ := Option.map_eq_some_iff.mp hx.symm
      refine Or.inl (proper_plain .finallyClause (fun z hz => ?_) fun _ h => h)
      cases List.mem_singleton.mp hz
      exact ihf _ hy
  | catchClause v types _ ih =>
    refine (proper_bodied .catchClause (fun _ h => h) fun x hx => ?_).modify rfl rfl
    rcases List.mem_cons.mp hx with hx | hx
    · cases hx
      exact Or.inl (proper_parameter v)
    · exact Or.inr ⟨_, ih, List.mem_singleton.mp hx⟩
  | throwStmt types _ ih =>
    exact (proper_plain .throwStmt (fun x hx => ih x (List.mem_singleton.mp hx).symm) fun _ h =>
      h).modify rfl rfl
  | other _ ih => exact proper_plain .otherStmt ih fun _ h => h
  | tagged tag _ ih => exact ih.modify rfl rfl

end Sketch

def SyntaxTree.Fits (n : Node) (children : SyntaxTree) : Prop :=
  n.kind.Takes (children.roots.map (·.role))

namespace Sketch

theorem map_role_layoutFrom (f : Forest Payload) (offset : Int) (id : Nat) :
    (layoutFrom offset id f).roots.map (·.role) = f.roots.map (·.role) := by
  induction f generalizing offset id with
  | nil => rfl
  | cons p children rest _ ihr => simp [layoutFrom, Forest.roots, ihr]

theorem everywhere_layoutFrom {f : Forest Payload} (h : f.Everywhere Fits) (offset : Int)
    (id : Nat) :
    (layoutFrom offset id f).Everywhere SyntaxTree.Fits := by
  induction f generalizing offset id with
  | nil => trivial
  | cons p children rest ihc ihr =>
    obtain ⟨hfits, hc, hr⟩ := h
    refine ⟨?_, ihc hc _ _, ihr hr _ _⟩
    rw [SyntaxTree.Fits, map_role_layoutFrom]
    exact hfits

end Sketch

namespace SyntaxTree

theorem forall_placesBelow {P : Node → SyntaxTree → Prop} {f : SyntaxTree} (h : f.Everywhere P)
    {path : List Node} {p : Place} (hp : p ∈ placesBelow path f) : P p.node p.children := by
  induction f generalizing path with
  | nil => cases hp
  | cons n children rest ihc ihr =>
    simp only [placesBelow, List.mem_cons, List.mem_append] at hp
    rcases hp with rfl | hp | hp
    · exact h.1
    · exact ihc h.2.1 hp
    · exact ihr h.2.2 hp

theorem everywhere_map {P : Node → SyntaxTree → Prop} {g : Node → Node}
    (hg : ∀ n children, P n children → P (g n) (children.map g)) {f : SyntaxTree}
    (h : f.Everywhere P) :
    (f.map g).Everywhere P := by
  induction f with
  | nil => trivial
  | cons n children rest ihc ihr => exact ⟨hg n children h.1, ihc h.2.1, ihr h.2.2⟩

end SyntaxTree

theorem Sketch.Built.fits {s : Sketch} (h : s.Built) :
    ∀ p ∈ s.layout.places, SyntaxTree.Fits p.node p.children := by
  intro p hp
  have hproper := h.proper
  have hlaid := everywhere_layoutFrom (f := .cons s.root s.children .nil)
    ⟨hproper.2.1, hproper.2.2, trivial⟩ 0 0
  have hlayout : s.layout.Everywhere SyntaxTree.Fits := by
    refine SyntaxTree.everywhere_map (fun n children hn => ?_) hlaid
    rw [SyntaxTree.Fits, SyntaxTree.roots_map, List.map_map]
    exact hn
  exact SyntaxTree.forall_placesBelow hlayout hp

end Extraction
