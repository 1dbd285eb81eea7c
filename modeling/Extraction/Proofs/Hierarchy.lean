import Mathlib.Data.List.Nodup
import Mathlib.Data.List.Perm.Subperm
import Mathlib.Logic.Relation
import Extraction.Proofs.Escapes

/-!
# The order of exception types

A type is assignable to the types on its line, itself and its supertypes, so the line of one type is
an end of the line of the other.  Ends of lists are ordered, and any two ends of one list are
comparable: assignability is a partial order in which the supertypes of a type form a chain.  In a
table of types without circles, assignability is the closure of the links from a type to its
supertype.
-/

namespace Extraction

namespace ClassType

variable {t s u : ClassType}

/-- The type and its supertypes, nearest first. -/
def line : ClassType → List ClassType
  | root name unchecked => [root name unchecked]
  | sub name unchecked parent => sub name unchecked parent :: parent.line

def unchecked : ClassType → Bool
  | root _ unchecked => unchecked
  | sub _ unchecked _ => unchecked

@[simp] theorem head?_line (t : ClassType) : t.line.head? = some t := by
  cases t <;> rfl

theorem line_injective (h : t.line = s.line) : t = s :=
  Option.some.inj (by rw [← head?_line t, ← head?_line s, h])

theorem self_mem_line (t : ClassType) : t ∈ t.line :=
  List.mem_of_head? (head?_line t)

theorem assignableTo_iff_mem : t.assignableTo s = true ↔ s ∈ t.line := by
  induction t with
  | root name unchecked => simp [assignableTo, line, @eq_comm _ s]
  | sub name unchecked parent ih => simp [assignableTo, line, ih, @eq_comm _ s]

theorem line_suffix (h : s ∈ t.line) : s.line <:+ t.line := by
  induction t with
  | root name unchecked =>
    obtain rfl := List.mem_singleton.mp h
    exact List.suffix_rfl
  | sub name unchecked parent ih =>
    rcases List.mem_cons.mp h with rfl | h
    · exact List.suffix_rfl
    · exact (ih h).trans (List.suffix_cons _ _)

theorem assignableTo_iff : t.assignableTo s = true ↔ s.line <:+ t.line := by
  rw [assignableTo_iff_mem]
  exact ⟨line_suffix, fun h => h.subset s.self_mem_line⟩

theorem checked_iff : t.checked = true ↔ ∀ s ∈ t.line, s.unchecked = false := by
  induction t with
  | root name unchecked => simp [checked, line, ClassType.unchecked]
  | sub name unchecked parent ih => simp [checked, line, ClassType.unchecked, ih]

@[simp] theorem assignableTo_refl (t : ClassType) : t.assignableTo t = true :=
  assignableTo_iff.mpr List.suffix_rfl

theorem assignableTo_trans (hts : t.assignableTo s = true) (hsu : s.assignableTo u = true) :
    t.assignableTo u = true :=
  assignableTo_iff.mpr ((assignableTo_iff.mp hsu).trans (assignableTo_iff.mp hts))

theorem assignableTo_antisymm (hts : t.assignableTo s = true) (hst : s.assignableTo t = true) :
    t = s := by
  rw [assignableTo_iff] at hts hst
  exact line_injective (hst.eq_of_length (Nat.le_antisymm hst.length_le hts.length_le))

theorem assignableTo_total (hs : t.assignableTo s = true) (hu : t.assignableTo u = true) :
    s.assignableTo u = true ∨ u.assignableTo s = true := by
  simp only [assignableTo_iff] at hs hu ⊢
  exact (List.suffix_or_suffix_of_suffix hs hu).symm

theorem checked_of_assignableTo (h : t.assignableTo s = true) (hchecked : t.checked = true) :
    s.checked = true :=
  checked_iff.mpr fun u hu => checked_iff.mp hchecked u ((assignableTo_iff.mp h).subset hu)

/-! ## Tables of types -/

def types (table : List ClassDecl) : List ClassType :=
  table.filterMap fun d => ofTable? table d.name

def Extends (table : List ClassDecl) (a b : String) : Prop :=
  ∃ d ∈ table, ∃ e ∈ table, d.super = some e.name ∧ d.name = a ∧ e.name = b

/-- No name is declared twice, and no type is a proper supertype of itself. -/
structure Hierarchy (table : List ClassDecl) : Prop where
  distinct : (table.map (·.name)).Nodup
  acyclic : ∀ a, ¬ Relation.TransGen (Extends table) a a

/-- The type is the one that the table declares with `d`: its line follows the supertypes that the
table gives. -/
inductive Declares (table : List ClassDecl) : ClassDecl → ClassType → Prop where
  | root {d : ClassDecl} (hd : d ∈ table) (htop : ∀ e ∈ table, d.super ≠ some e.name) :
      Declares table d (.root d.name d.unchecked)
  | sub {d e : ClassDecl} {parent : ClassType} (hd : d ∈ table) (hsuper : d.super = some e.name)
      (hparent : Declares table e parent) : Declares table d (.sub d.name d.unchecked parent)

variable {table : List ClassDecl} {d e : ClassDecl}

theorem resolve_undeclared (fuel : Nat) {name : String} (h : ∀ d ∈ table, d.name ≠ name) :
    resolve table fuel name = none := by
  cases fuel with
  | zero => rfl
  | succ fuel =>
    rw [resolve, List.find?_eq_none.mpr fun d hd => by simpa using h d hd]
    rfl

namespace Declares

theorem mem (h : Declares table d t) : d ∈ table := by
  cases h <;> assumption

theorem name_eq (h : Declares table d t) : t.name = d.name := by
  cases h <;> rfl

theorem unchecked_eq (h : Declares table d t) : t.unchecked = d.unchecked := by
  cases h <;> rfl

theorem of_mem_line (h : Declares table d t) (hs : s ∈ t.line) :
    ∃ e, Declares table e s ∧ Relation.ReflTransGen (Extends table) d.name e.name := by
  induction h with
  | root hd htop =>
    rw [List.mem_singleton.mp hs]
    exact ⟨_, .root hd htop, .refl⟩
  | sub hd hsuper hparent ih =>
    rcases List.mem_cons.mp hs with rfl | hs
    · exact ⟨_, .sub hd hsuper hparent, .refl⟩
    · obtain ⟨e, he, hup⟩ := ih hs
      exact ⟨e, he, hup.head ⟨_, hd, _, hparent.mem, hsuper, rfl, rfl⟩⟩

end Declares

namespace Hierarchy

/-- There are no circles if the types can be ranked with every type above its supertype. -/
theorem of_rank (rank : String → Nat) (hdistinct : (table.map (·.name)).Nodup)
    (hrank : ∀ d ∈ table, ∀ e ∈ table, d.super = some e.name → rank e.name < rank d.name) :
    Hierarchy table := by
  have hup : ∀ a b, Relation.TransGen (Extends table) a b → rank b < rank a := by
    intro a b hab
    induction hab with
    | single hlink =>
      obtain ⟨d, hd, e, he, hsuper, rfl, rfl⟩ := hlink
      exact hrank d hd e he hsuper
    | tail _ hlink ih =>
      obtain ⟨d, hd, e, he, hsuper, rfl, rfl⟩ := hlink
      exact Nat.lt_trans (hrank d hd e he hsuper) ih
  exact ⟨hdistinct, fun a ha => Nat.lt_irrefl _ (hup a a ha)⟩

theorem eq_of_name_eq (h : Hierarchy table) (hd : d ∈ table) (he : e ∈ table)
    (hname : d.name = e.name) : d = e :=
  List.inj_on_of_nodup_map h.distinct hd he hname

theorem find?_eq (h : Hierarchy table) (hd : d ∈ table) :
    (table.find? fun x => x.name == d.name) = some d := by
  have hfind := find?_eq_some_of_nodup h.distinct hd
  simpa only [beq_eq_decide] using hfind

theorem mem_line (h : Hierarchy table) (ht : Declares table d t) {b : String}
    (hup : Relation.ReflTransGen (Extends table) d.name b) : ∃ s ∈ t.line, s.name = b := by
  induction ht with
  | root hd htop =>
    refine ⟨_, List.mem_singleton_self _, ?_⟩
    rcases hup.cases_head with hup | ⟨c, ⟨d', hd', e, he, hsuper, hname, -⟩, -⟩
    · exact hup
    · rw [h.eq_of_name_eq hd' hd hname] at hsuper
      exact absurd hsuper (htop e he)
  | sub hd hsuper hparent ih =>
    rcases hup.cases_head with hup | ⟨c, ⟨d', hd', e, he, hsuper', hname, rfl⟩, hup⟩
    · exact ⟨_, List.mem_cons_self, hup⟩
    · rw [h.eq_of_name_eq hd' hd hname, hsuper] at hsuper'
      rw [← Option.some.inj hsuper'] at hup
      obtain ⟨s, hs, hsname⟩ := ih hup
      exact ⟨s, List.mem_cons_of_mem _ hs, hsname⟩

theorem declares_unique (h : Hierarchy table) (ht : Declares table d t) (hs : Declares table d s) :
    t = s := by
  induction ht generalizing s with
  | root hd htop =>
    cases hs with
    | root => rfl
    | sub _ hsuper hparent => exact absurd hsuper (htop _ hparent.mem)
  | sub hd hsuper hparent ih =>
    cases hs with
    | root _ htop => exact absurd hsuper (htop _ hparent.mem)
    | sub _ hsuper' hparent' =>
      have hname := Option.some.inj (hsuper.symm.trans hsuper')
      rw [← h.eq_of_name_eq hparent.mem hparent'.mem hname] at hparent'
      rw [ih hparent']

theorem length_seen_lt {seen : List String} (hnodup : (d.name :: seen).Nodup)
    (hseen : ∀ a ∈ seen, a ∈ table.map (·.name)) (hd : d ∈ table) : seen.length < table.length := by
  have hdeclared : ∀ a ∈ d.name :: seen, a ∈ table.map (·.name) :=
    List.forall_mem_cons.mpr ⟨List.mem_map_of_mem hd, hseen⟩
  have hlength := (List.subperm_of_subset hnodup hdeclared).length_le
  rwa [List.length_cons, List.length_map] at hlength

/-- Following the supertypes of `d` takes no more steps than the table has lines besides those of
the names `seen` on the way to it.  No name comes up again, since it would be above itself. -/
theorem exists_resolve (h : Hierarchy table) (fuel : Nat) (seen : List String)
    (hnodup : (d.name :: seen).Nodup)
    (hseen : ∀ a ∈ seen, a ∈ table.map (·.name) ∧ Relation.TransGen (Extends table) a d.name)
    (hd : d ∈ table) (hfuel : table.length ≤ fuel + seen.length) :
    ∃ t, resolve table fuel d.name = some t ∧ Declares table d t := by
  induction fuel generalizing d seen with
  | zero =>
    have := length_seen_lt hnodup (fun a ha => (hseen a ha).1) hd
    omega
  | succ fuel ih =>
    rw [resolve, h.find?_eq hd, Option.map_some]
    by_cases hlink : ∃ e ∈ table, d.super = some e.name
    · obtain ⟨e, he, hsuper⟩ := hlink
      have hup : Extends table d.name e.name := ⟨d, hd, e, he, hsuper, rfl, rfl⟩
      have hseen' : ∀ a ∈ d.name :: seen, a ∈ table.map (·.name) ∧
        Relation.TransGen (Extends table) a e.name :=
        List.forall_mem_cons.mpr ⟨⟨List.mem_map_of_mem hd, .single hup⟩,
          fun a ha => ⟨(hseen a ha).1, (hseen a ha).2.tail hup⟩⟩
      have hnew : e.name ∉ d.name :: seen := fun hin => h.acyclic _ (hseen' _ hin).2
      obtain ⟨parent, hparent, hdeclares⟩ :=
        ih (d.name :: seen) (List.nodup_cons.mpr ⟨hnew, hnodup⟩) hseen' he
        (by rw [List.length_cons]; omega)
      rw [hsuper, Option.bind_some, hparent]
      exact ⟨_, rfl, .sub hd hsuper hdeclares⟩
    · have hnone : d.super.bind (resolve table fuel) = none := by
        cases hsuper : d.super with
        | none => rfl
        | some b =>
          refine resolve_undeclared fuel fun e he hname => hlink ⟨e, he, ?_⟩
          rw [hsuper, hname]
      rw [hnone]
      exact ⟨_, rfl, .root hd fun e he hsuper => hlink ⟨e, he, hsuper⟩⟩

theorem exists_ofTable? (h : Hierarchy table) (hd : d ∈ table) :
    ∃ t, ofTable? table d.name = some t ∧ Declares table d t :=
  h.exists_resolve table.length [] (List.nodup_singleton _) (List.forall_mem_nil _) hd
    (Nat.le_add_right _ _)

theorem mem_types (h : Hierarchy table) : t ∈ types table ↔ ∃ d, Declares table d t := by
  rw [types, List.mem_filterMap]
  constructor
  · rintro ⟨d, hd, ht⟩
    obtain ⟨s, hs, hdeclares⟩ := h.exists_ofTable? hd
    rw [← Option.some.inj (ht.symm.trans hs)] at hdeclares
    exact ⟨d, hdeclares⟩
  · rintro ⟨d, hdeclares⟩
    obtain ⟨s, hs, hdeclares'⟩ := h.exists_ofTable? hdeclares.mem
    rw [h.declares_unique hdeclares hdeclares']
    exact ⟨d, hdeclares.mem, hs⟩

theorem map_name_types (h : Hierarchy table) : (types table).map (·.name) = table.map (·.name) := by
  rw [types, List.map_filterMap, ← List.filterMap_eq_map]
  apply List.filterMap_congr
  intro d hd
  obtain ⟨t, ht, hdeclares⟩ := h.exists_ofTable? hd
  rw [ht, Option.map_some, hdeclares.name_eq, Function.comp_apply]

theorem assignableTo_iff_above (h : Hierarchy table) (ht : t ∈ types table) (hs : s ∈ types table) :
    t.assignableTo s = true ↔ Relation.ReflTransGen (Extends table) t.name s.name := by
  obtain ⟨d, hd⟩ := h.mem_types.mp ht
  obtain ⟨e, he⟩ := h.mem_types.mp hs
  rw [assignableTo_iff_mem, hd.name_eq, he.name_eq]
  constructor
  · intro hmem
    obtain ⟨e', he', hup⟩ := hd.of_mem_line hmem
    rwa [← he.name_eq, he'.name_eq]
  · intro hup
    obtain ⟨s', hs', hname⟩ := h.mem_line hd hup
    obtain ⟨e', he', -⟩ := hd.of_mem_line hs'
    rw [← h.eq_of_name_eq he'.mem he.mem (he'.name_eq.symm.trans hname)] at he
    rwa [h.declares_unique he he']

theorem checked_iff_above (h : Hierarchy table) (ht : t ∈ types table) :
    t.checked = true ↔
      ∀ d ∈ table, Relation.ReflTransGen (Extends table) t.name d.name → d.unchecked = false := by
  obtain ⟨d, hd⟩ := h.mem_types.mp ht
  rw [checked_iff, hd.name_eq]
  constructor
  · intro hchecked e he hup
    obtain ⟨s, hs, hname⟩ := h.mem_line hd hup
    obtain ⟨e', he', -⟩ := hd.of_mem_line hs
    rw [← h.eq_of_name_eq he'.mem he (he'.name_eq.symm.trans hname), ← he'.unchecked_eq]
    exact hchecked s hs
  · intro hchecked s hs
    obtain ⟨e, he, hup⟩ := hd.of_mem_line hs
    rw [he.unchecked_eq]
    exact hchecked e he.mem hup

end Hierarchy

end ClassType

namespace TypeSet

variable {s : TypeSet} {caught other : List ClassType}

theorem discharge_congr
    (h : ∀ t : ClassType, (∃ c ∈ caught, t.assignableTo c = true) ↔
    ∃ c ∈ other, t.assignableTo c = true) :
    s.discharge caught = s.discharge other := by
  apply List.filter_congr
  intro t _
  have hany : (caught.any fun c => t.assignableTo c) = other.any fun c => t.assignableTo c := by
    rw [Bool.eq_iff_iff, List.any_eq_true, List.any_eq_true]
    exact h t
  rw [hany]

theorem discharge_comm (s : TypeSet) (c d : List ClassType) :
    s.discharge (c ++ d) = s.discharge (d ++ c) :=
  discharge_congr fun _ => by simp only [List.mem_append, or_comm]

theorem discharge_subtype {c t : ClassType} (hc : c ∈ caught) (ht : t.assignableTo c = true)
    (hother : ∀ x, x ∈ other ↔ x = t ∨ x ∈ caught) : s.discharge other = s.discharge caught := by
  refine discharge_congr fun u => ⟨?_, ?_⟩
  · rintro ⟨x, hx, hux⟩
    rcases (hother x).mp hx with rfl | hx
    · exact ⟨c, hc, ClassType.assignableTo_trans hux ht⟩
    · exact ⟨x, hx, hux⟩
  · rintro ⟨x, hx, hux⟩
    exact ⟨x, (hother x).mpr (Or.inr hx), hux⟩

end TypeSet

open ClassType

/-- In a table of types without circles every line has its type, a type is assignable to what the
links to supertypes lead to from it, and it is checked if they lead to nothing unchecked.
Assignability is a partial order; the supertypes of a type form a chain, and those of a checked type
are checked.  So it does not matter for a set of types whether it is discharged by two lists of
caught types one after the other or at once, nor in which order, and a subtype of a caught type may
be caught as well. -/
theorem hierarchy_lawful (table : List ClassDecl) (h : Hierarchy table) :
    ((types table).map (·.name) = table.map (·.name) ∧
      (∀ t ∈ types table, ∀ s ∈ types table,
        t.assignableTo s = true ↔ Relation.ReflTransGen (Extends table) t.name s.name) ∧
      ∀ t ∈ types table, t.checked = true ↔
        ∀ d ∈ table, Relation.ReflTransGen (Extends table) t.name d.name → d.unchecked = false) ∧
    ((∀ t : ClassType, t.assignableTo t = true) ∧
      (∀ t s u : ClassType, t.assignableTo s = true → s.assignableTo u = true →
      t.assignableTo u = true) ∧
      (∀ t s : ClassType, t.assignableTo s = true → s.assignableTo t = true → t = s) ∧
      (∀ t s u : ClassType, t.assignableTo s = true → t.assignableTo u = true →
        s.assignableTo u = true ∨ u.assignableTo s = true) ∧
      ∀ t s : ClassType, t.assignableTo s = true → t.checked = true → s.checked = true) ∧
    (∀ (set : TypeSet) (caught other : List ClassType),
      (set.discharge caught).discharge other = set.discharge (caught ++ other) ∧
      (set.discharge caught).discharge other = set.discharge (other ++ caught)) ∧
    ∀ (set : TypeSet) (caught more : List ClassType) (c t : ClassType), c ∈ caught →
      t.assignableTo c = true →
      (∀ x, x ∈ more ↔ x = t ∨ x ∈ caught) → set.discharge more = set.discharge caught := by
  refine ⟨⟨h.map_name_types, fun t ht s hs => h.assignableTo_iff_above ht hs,
    fun t ht => h.checked_iff_above ht⟩,
    ⟨assignableTo_refl, fun _ _ _ => assignableTo_trans, fun _ _ => assignableTo_antisymm,
      fun _ _ _ => assignableTo_total, fun _ _ => checked_of_assignableTo⟩,
    fun set caught other => ⟨set.discharge_discharge caught other, ?_⟩,
    fun set caught more c t hc ht hmore => TypeSet.discharge_subtype hc ht hmore⟩
  rw [set.discharge_discharge, set.discharge_comm]

/-- Exceptions as a library declares them, subtypes before the types they extend. -/
def throwables : List ClassDecl :=
  [⟨"IOException", some "Exception", false⟩, ⟨"RuntimeException", some "Exception", true⟩,
    ⟨"Exception", some "Throwable", false⟩, ⟨"Throwable", none, false⟩]

theorem throwables_lawful :
    Hierarchy throwables ∧ (types throwables).map (·.name) = throwables.map (·.name) ∧
    (∀ t ∈ types throwables, t.checked = true ↔
      ∀ d ∈ throwables, Relation.ReflTransGen (Extends throwables) t.name d.name →
      d.unchecked = false) ∧
    ∃ io ∈ types throwables, ∃ exception ∈ types throwables,
      io.checked = true ∧ io.assignableTo exception = true ∧ exception.assignableTo io = false ∧
      ∀ set : TypeSet, set.discharge [io, exception] = set.discharge [exception] := by
  have h : Hierarchy throwables := .of_rank (fun a => 4 - throwables.findIdx fun d => d.name == a)
    (by decide +kernel) (by decide +kernel)
  obtain ⟨⟨hnames, -, hchecked⟩, -, -, hsubtype⟩ := hierarchy_lawful throwables h
  have hexists : ∃ io ∈ types throwables, ∃ exception ∈ types throwables,
      io.checked = true ∧ io.assignableTo exception = true ∧ exception.assignableTo io = false := by
        decide +kernel
  obtain ⟨io, hio, exception, hexception, hio', hup, hdown⟩ := hexists
  refine ⟨h, hnames, hchecked, io, hio, exception, hexception, hio', hup, hdown, fun set => ?_⟩
  exact hsubtype set [exception] [io, exception] exception io List.mem_cons_self hup
    (fun x => List.mem_cons)

end Extraction
