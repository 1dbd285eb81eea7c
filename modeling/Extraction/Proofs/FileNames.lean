import Extraction.Text.Path

/-!
# Absolute names

The name of a file seen from the root is the shortest one: seen from the root once more, it stays as
it is.
-/

namespace Extraction.Path

/-- A name that a shortest path from the root can have as a part. -/
def Plain (p : String) : Prop :=
  p ≠ "" ∧ p ≠ "." ∧ p ≠ ".." ∧ '/' ∉ p.toList

theorem not_mem_splitOn {α : Type} [DecidableEq α] (a : α) (xs : List α) :
    ∀ part ∈ xs.splitOn a, a ∉ part := by
  induction xs with
  | nil => simp
  | cons x rest ih =>
    rw [List.splitOn_cons_eq_if_modifyHead]
    split
    next => exact List.forall_mem_cons.mpr ⟨List.not_mem_nil, ih⟩
    next hx =>
      cases hparts : rest.splitOn a with
      | nil => simp
      | cons first others =>
        rw [hparts] at ih
        obtain ⟨hfirst, hothers⟩ := List.forall_mem_cons.mp ih
        have hne : a ≠ x := fun h => hx (beq_iff_eq.mpr h.symm)
        exact List.forall_mem_cons.mpr ⟨by simp [hne, hfirst], hothers⟩

theorem slash_not_mem_parts (path : String) : ∀ p ∈ parts path, '/' ∉ p.toList := by
  intro p hp
  obtain ⟨cs, hcs, rfl⟩ := List.mem_map.mp hp
  rw [String.toList_ofList]
  exact not_mem_splitOn '/' _ cs hcs

theorem reduce_of_plain {ps : List String} (h : ∀ p ∈ ps, Plain p) (absolute : Bool)
    (kept : List String) :
    reduce absolute kept ps = kept.reverse ++ ps := by
  induction ps generalizing kept with
  | nil => simp [reduce]
  | cons p rest ih =>
    obtain ⟨hp, hrest⟩ := List.forall_mem_cons.mp h
    have hstep : reduce absolute kept (p :: rest) = reduce absolute (p :: kept) rest := by
      simp [reduce.eq_def absolute kept (p :: rest), hp.1, hp.2.1, hp.2.2.1]
    rw [hstep, ih hrest]
    simp

/-- Above the root nothing is left of `..`, so only plain names are kept. -/
theorem plain_reduce {ps kept : List String} (hps : ∀ p ∈ ps, '/' ∉ p.toList)
    (hkept : ∀ p ∈ kept, Plain p) :
    ∀ p ∈ reduce true kept ps, Plain p := by
  induction ps generalizing kept with
  | nil => simpa [reduce] using hkept
  | cons p rest ih =>
    obtain ⟨hslash, hrest⟩ := List.forall_mem_cons.mp hps
    unfold reduce
    split
    next => exact ih hrest hkept
    next hblank =>
      split
      next =>
        split
        next => exact ih hrest (by simp)
        next k others =>
          obtain ⟨hk, hothers⟩ := List.forall_mem_cons.mp hkept
          rw [if_neg hk.2.2.1]
          exact ih hrest hothers
      next hup =>
        rw [not_or] at hblank
        exact ih hrest (List.forall_mem_cons.mpr ⟨⟨hblank.1, hblank.2, hup, hslash⟩, hkept⟩)

theorem isAbsolute_iff (path : String) :
    isAbsolute path = true ↔ ∃ rest, path.toList = '/' :: rest := by
  rw [isAbsolute, String.startsWith_string_iff]
  constructor
  · rintro ⟨rest, hrest⟩
    exact ⟨rest, hrest.symm⟩
  · rintro ⟨rest, hrest⟩
    exact ⟨rest, hrest.symm⟩

theorem toList_render (ps : List String) :
    (render true ps).toList = '/' :: ['/'].intercalate (ps.map String.toList) := by
  rw [render, if_pos rfl, String.toList_append, String.toList_intercalate]
  rfl

theorem isAbsolute_clean {path : String} (h : isAbsolute path = true) :
    isAbsolute (clean path) = true := by
  rw [clean, h, isAbsolute_iff]
  exact ⟨_, toList_render _⟩

theorem parts_render {ps : List String} (h : ∀ p ∈ ps, Plain p) (hne : ps ≠ []) :
    parts (render true ps) = "" :: ps := by
  have hslash : ∀ cs ∈ ps.map String.toList, '/' ∉ cs := by
    intro cs hcs
    obtain ⟨p, hp, rfl⟩ := List.mem_map.mp hcs
    exact (h p hp).2.2.2
  have hroot : '/' :: ['/'].intercalate (ps.map String.toList) =
      [] ++ '/' :: ['/'].intercalate (ps.map String.toList) := rfl
  rw [parts, toList_render, hroot, List.splitOn_append_cons_self_of_not_mem List.not_mem_nil,
    List.splitOn_intercalate '/' hslash (by simpa using hne)]
  simp

theorem clean_clean {path : String} (h : isAbsolute path = true) :
    clean (clean path) = clean path := by
  have hplain : ∀ p ∈ cleanParts path, Plain p := by
    rw [cleanParts, h]
    exact plain_reduce (slash_not_mem_parts path) (by simp)
  have hclean : clean path = render true (cleanParts path) := by rw [clean, h]
  have hagain : cleanParts (clean path) = cleanParts path := by
    rw [cleanParts, isAbsolute_clean h, hclean]
    by_cases hne : cleanParts path = []
    · rw [hne]
      rfl
    · rw [parts_render hplain hne, reduce, if_pos (Or.inl rfl), reduce_of_plain hplain]
      rfl
  rw [clean, isAbsolute_clean h, hagain, hclean]

theorem exists_absolute_eq {directory : String} (h : isAbsolute directory = true) (path : String) :
    ∃ p, isAbsolute p = true ∧ absolute directory path = clean p := by
  unfold absolute
  split
  next hpath => exact ⟨path, hpath, rfl⟩
  next =>
    split
    next => exact ⟨directory, h, rfl⟩
    next =>
      obtain ⟨rest, hrest⟩ := (isAbsolute_iff directory).mp h
      refine ⟨directory ++ "/" ++ path,
        (isAbsolute_iff _).mpr ⟨rest ++ '/' :: path.toList, ?_⟩, rfl⟩
      simp [hrest]

theorem absolute_absolute {directory : String} (h : isAbsolute directory = true) (path : String) :
    absolute directory (absolute directory path) = absolute directory path := by
  obtain ⟨p, hp, heq⟩ := exists_absolute_eq h path
  rw [heq, absolute, if_pos (isAbsolute_clean hp), clean_clean hp]

end Extraction.Path
