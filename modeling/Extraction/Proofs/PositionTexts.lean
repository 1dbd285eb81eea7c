import Mathlib.Data.Nat.Digits.Defs
import Extraction.Proofs.Failures
import Extraction.Proofs.FileNames
import Extraction.Text.Selection

/-!
# The texts of positions

A position is written as two numbers, or as two pairs of numbers with a colon between.  Such a text
is read as exactly the numbers it is written with, no other text is read, and what is read can be
written and read again.
-/

namespace Extraction

namespace Position

def IsDigits (ds : List Char) : Prop :=
  ds ≠ [] ∧ ∀ d ∈ ds, '0' ≤ d ∧ d ≤ '9'

/-- The sum of the digits, each times the power of ten of its place. -/
def value (ds : List Char) : Nat :=
  Nat.ofDigits 10 (ds.reverse.map fun d => d.toNat - '0'.toNat)

/-- The text is a sign, if there is one, and digits, and denotes the number. -/
inductive Numeral : List Char → Int → Prop where
  | unsigned {ds : List Char} (h : IsDigits ds) : Numeral ds (value ds)
  | positive {ds : List Char} (h : IsDigits ds) : Numeral ('+' :: ds) (value ds)
  | negative {ds : List Char} (h : IsDigits ds) : Numeral ('-' :: ds) (-value ds)

/-- The text denotes a number from 0 to 2^31 - 1. -/
def Field (cs : List Char) (n : Int) : Prop :=
  Numeral cs n ∧ 0 ≤ n ∧ n ≤ 0x7FFFFFFF

/-- How a region is written: an offset and a length, or a line and column and another line and
column. -/
inductive Written : List Char → Region → Prop where
  | bytes {a b : List Char} {offset length : Int} (ha : Field a offset) (hb : Field b length) :
      Written (a ++ ',' :: b) (.bytes offset length)
  | lines {a b c d : List Char} {startLine startCol endLine endCol : Int} (ha : Field a startLine)
      (hb : Field b startCol) (hc : Field c endLine) (hd : Field d endCol) :
      Written (a ++ ',' :: b ++ ':' :: (c ++ ',' :: d)) (.lines startLine startCol endLine endCol)

section Numbers

variable {cs ds : List Char} {n : Nat}

theorem value_eq_foldl (ds : List Char) :
    value ds = ds.foldl (fun n c => 10 * n + (c.toNat - '0'.toNat)) 0 := by
  simp only [value, Nat.ofDigits_eq_foldr, List.foldr_map, List.foldr_reverse, Nat.cast_id,
    Nat.add_comm]

theorem isDigit_iff (c : Char) : c.isDigit = true ↔ '0' ≤ c ∧ c ≤ '9' := by
  rw [Char.isDigit, Bool.and_eq_true, decide_eq_true_eq, decide_eq_true_eq]
  exact Iff.rfl

theorem digits?_eq_some : digits? ds = some n ↔ IsDigits ds ∧ value ds = n := by
  rw [digits?, value_eq_foldl, Option.ite_none_right_eq_some, Option.some.injEq, IsDigits]
  simp only [List.all_eq_true, isDigit_iff]

theorem IsDigits.plain (h : IsDigits ds) : ∀ c ∈ ds, c ∉ ['+', '-', ',', ':'] := by
  intro c hc hmem
  have hdigit := h.2 c hc
  simp only [List.mem_cons, List.not_mem_nil, or_false] at hmem
  rcases hmem with rfl | rfl | rfl | rfl <;> revert hdigit <;> decide

theorem Field.plain {k : Int} (h : Field cs k) : ',' ∉ cs ∧ ':' ∉ cs := by
  have hdigits : ∀ ds, IsDigits ds → ',' ∉ ds ∧ ':' ∉ ds := fun ds hds =>
    ⟨fun hmem => hds.plain _ hmem (by decide), fun hmem => hds.plain _ hmem (by decide)⟩
  obtain ⟨hnumeral, -⟩ := h
  cases hnumeral with
  | unsigned hds => exact hdigits _ hds
  | positive hds | negative hds => simp [hdigits _ hds]

theorem numeral_positive {k : Int} : Numeral ('+' :: ds) k ↔ IsDigits ds ∧ k = value ds := by
  constructor
  · intro h
    cases h with
    | unsigned hds => exact absurd (by decide) (hds.plain '+' List.mem_cons_self)
    | positive hds => exact ⟨hds, rfl⟩
  · rintro ⟨hds, rfl⟩
    exact .positive hds

theorem numeral_negative {k : Int} : Numeral ('-' :: ds) k ↔ IsDigits ds ∧ k = -value ds := by
  constructor
  · intro h
    cases h with
    | unsigned hds => exact absurd (by decide) (hds.plain '-' List.mem_cons_self)
    | negative hds => exact ⟨hds, rfl⟩
  · rintro ⟨hds, rfl⟩
    exact .negative hds

theorem numeral_unsigned {k : Int} (hplus : ∀ ds, cs ≠ '+' :: ds) (hminus : ∀ ds, cs ≠ '-' :: ds) :
    Numeral cs k ↔ IsDigits cs ∧ k = value cs := by
  constructor
  · intro h
    cases h with
    | unsigned hds => exact ⟨hds, rfl⟩
    | positive => exact absurd rfl (hplus _)
    | negative => exact absurd rfl (hminus _)
  · rintro ⟨hds, rfl⟩
    exact .unsigned hds

theorem within_eq_some {k? : Option Nat} (hread : k? = some n ↔ Numeral cs n) :
    (k?.bind fun k => if k < 0x80000000 then some k else none) = some n ↔ Field cs n := by
  rw [Option.bind_eq_some_iff, Field, ← hread]
  simp only [Option.ite_none_right_eq_some, Option.some.injEq]
  constructor
  · rintro ⟨k, hk, hlt, rfl⟩
    exact ⟨hk, by omega, by omega⟩
  · rintro ⟨hk, -, hle⟩
    exact ⟨n, hk, by omega, rfl⟩

theorem number?_eq_some : number? cs = some n ↔ Field cs n := by
  unfold number?
  simp only
  split
  next ds =>
    apply within_eq_some
    rw [digits?_eq_some, numeral_positive, Int.natCast_inj, eq_comm (a := n)]
  next ds =>
    apply within_eq_some
    rw [Option.filter_eq_some_iff, digits?_eq_some, numeral_negative, decide_eq_true_eq, and_assoc]
    apply and_congr_right
    intro _
    omega
  next hplus hminus =>
    apply within_eq_some
    rw [digits?_eq_some, numeral_unsigned hplus hminus, Int.natCast_inj, eq_comm (a := n)]

theorem field_toString (hlt : n < 0x80000000) : Field (toString n).toList n := by
  have hdigits : (toString n).toList = Nat.toDigits 10 n := by
    rw [Nat.toString_eq_ofList_toDigits, String.toList_ofList]
  have hvalue : value (Nat.toDigits 10 n) = n := by
    rw [value_eq_foldl, ← Nat.ofDigitChars_eq_foldl, Nat.ofDigitChars_ten_toDigits]
  have hall : IsDigits (Nat.toDigits 10 n) :=
    ⟨Nat.toDigits_ne_nil, fun c hc =>
      (isDigit_iff c).mp (Nat.isDigit_of_mem_toDigits (by decide) (by decide) hc)⟩
  rw [hdigits]
  refine ⟨?_, by omega, by omega⟩
  have hnumeral := Numeral.unsigned hall
  rwa [hvalue] at hnumeral

end Numbers

section Parts

theorem split_eq_splitOn (separator : Char) (cs : List Char) :
    split separator cs = cs.splitOn separator := by
  induction cs with
  | nil => rfl
  | cons c rest ih =>
    rw [split, List.splitOn_cons_eq_if_modifyHead, ih]
    by_cases hc : c = separator
    · simp [hc]
    · rw [if_neg hc, if_neg (by simpa using hc)]
      cases hparts : rest.splitOn separator with
      | nil => exact absurd hparts (List.splitOn_ne_nil _ _)
      | cons => rfl

variable {separator : Char} {cs a b : List Char}

theorem split_single (h : separator ∉ cs) : split separator cs = [cs] := by
  rw [split_eq_splitOn, List.splitOn_eq_singleton h]

theorem split_pair (ha : separator ∉ a) (hb : separator ∉ b) :
    split separator (a ++ separator :: b) = [a, b] := by
  rw [split_eq_splitOn, List.splitOn_append_cons_self_of_not_mem ha, List.splitOn_eq_singleton hb]

theorem eq_of_split_pair (h : split separator cs = [a, b]) : cs = a ++ separator :: b := by
  rw [split_eq_splitOn] at h
  calc cs = [separator].intercalate (cs.splitOn separator) :=
    (List.intercalate_splitOn separator).symm
    _ = [separator].intercalate [a, b] := by rw [h]
    _ = a ++ separator :: b := by simp [List.intercalate]

theorem pair?_eq_some {m n : Nat} :
    pair? cs = some (m, n) ↔ ∃ a b, cs = a ++ ',' :: b ∧ Field a m ∧ Field b n := by
  constructor
  · intro h
    unfold pair? at h
    split at h
    next a b hsplit =>
      simp only [Option.bind_eq_bind, Option.bind_eq_some_iff, Option.pure_def, Option.some.injEq,
        Prod.mk.injEq] at h
      obtain ⟨_, hm, _, hn, rfl, rfl⟩ := h
      exact ⟨a, b, eq_of_split_pair hsplit, number?_eq_some.mp hm, number?_eq_some.mp hn⟩
    next => cases h
  · rintro ⟨a, b, rfl, ha, hb⟩
    rw [pair?, split_pair ha.plain.1 hb.plain.1]
    simp [number?_eq_some.mpr ha, number?_eq_some.mpr hb]

end Parts

section Regions

variable {text : List Char} {r : Region}

theorem Field.exists_nat {cs : List Char} {k : Int} (h : Field cs k) : ∃ n : Nat, k = n :=
  ⟨k.toNat, (Int.toNat_of_nonneg h.2.1).symm⟩

theorem parse_of_written (h : Written text r) : parse text = .ok r := by
  cases h with
  | @bytes a b _ _ ha hb =>
    obtain ⟨offset, rfl⟩ := ha.exists_nat
    obtain ⟨length, rfl⟩ := hb.exists_nat
    have hcolon : ':' ∉ a ++ ',' :: b := by simp [ha.plain.2, hb.plain.2]
    have hpair := pair?_eq_some.mpr ⟨a, b, rfl, ha, hb⟩
    simp only [parse, split_single hcolon, hpair]
  | @lines a b c d _ _ _ _ ha hb hc hd =>
    obtain ⟨startLine, rfl⟩ := ha.exists_nat
    obtain ⟨startCol, rfl⟩ := hb.exists_nat
    obtain ⟨endLine, rfl⟩ := hc.exists_nat
    obtain ⟨endCol, rfl⟩ := hd.exists_nat
    have hleft : ':' ∉ a ++ ',' :: b := by simp [ha.plain.2, hb.plain.2]
    have hright : ':' ∉ c ++ ',' :: d := by simp [hc.plain.2, hd.plain.2]
    have hstart := pair?_eq_some.mpr ⟨a, b, rfl, ha, hb⟩
    have hend := pair?_eq_some.mpr ⟨c, d, rfl, hc, hd⟩
    simp only [parse, split_pair hleft hright, hstart, hend]

theorem written_of_parse (h : parse text = .ok r) : Written text r := by
  unfold parse at h
  split at h
  next =>
    split at h
    next offset length hpair =>
      obtain ⟨a, b, rfl, ha, hb⟩ := pair?_eq_some.mp hpair
      cases h
      exact .bytes ha hb
    next => cases h
  next hsplit =>
    split at h
    next hstart hend =>
      obtain ⟨a, b, rfl, ha, hb⟩ := pair?_eq_some.mp hstart
      obtain ⟨c, d, rfl, hc, hd⟩ := pair?_eq_some.mp hend
      cases h
      rw [eq_of_split_pair hsplit]
      exact .lines ha hb hc hd
    next => cases h
  next => cases h

/-- A region that is written in some way is written as it is described. -/
theorem Written.describe (h : Written text r) : Written r.describe.toList r := by
  have hprinted : ∀ {cs : List Char} {k : Int}, Field cs k → Field (toString k).toList k := by
    intro cs k hk
    obtain ⟨n, rfl⟩ := hk.exists_nat
    exact field_toString (by have := hk.2; omega)
  cases h with
  | @bytes a b offset length ha hb =>
    have htext : (Region.bytes offset length).describe.toList =
        (toString offset).toList ++ ',' :: (toString length).toList := by
      change (toString offset ++ "," ++ toString length).toList = _
      simp
    rw [htext]
    exact .bytes (hprinted ha) (hprinted hb)
  | @lines a b c d startLine startCol endLine endCol ha hb hc hd =>
    have htext : (Region.lines startLine startCol endLine endCol).describe.toList =
        (toString startLine).toList ++ ',' :: (toString startCol).toList ++
          ':' :: ((toString endLine).toList ++ ',' :: (toString endCol).toList) := by
      change (toString startLine ++ "," ++ toString startCol ++ ":" ++ toString endLine ++ "," ++
        toString endCol).toList = _
      simp
    rw [htext]
    exact .lines (hprinted ha) (hprinted hb) (hprinted hc) (hprinted hd)

end Regions

end Position

namespace Selection

variable {directory filename position : String} {s : Selection}

theorem parse_eq_ok : parse directory filename position = .ok s ↔
    s.filename = Path.absolute directory filename ∧ Position.Written position.toList s.region := by
  rw [parse, map_eq_ok]
  constructor
  · rintro ⟨r, hregion, rfl⟩
    exact ⟨rfl, Position.written_of_parse hregion⟩
  · rintro ⟨hname, hwritten⟩
    exact ⟨s.region, Position.parse_of_written hwritten, by rw [← hname]⟩

variable (directory filename position s)

/-- A position is read exactly if it is written as a region is, and as that region.  The position in
the description of the selection is read as the same selection, also in the file as the selection
names it. -/
theorem parse_iff_written :
    (parse directory filename position = .ok s ↔
      s.filename = Path.absolute directory filename ∧ Position.Written position.toList s.region) ∧
    (parse directory filename position = .ok s →
      ∃ printed, s.describe = s.filename ++ ": " ++ printed ∧
      parse directory filename printed = .ok s ∧
      (Path.isAbsolute directory = true → parse directory s.filename printed = .ok s)) := by
  refine ⟨parse_eq_ok, fun h => ⟨s.region.describe, rfl, ?_⟩⟩
  obtain ⟨hname, hwritten⟩ := parse_eq_ok.mp h
  refine ⟨parse_eq_ok.mpr ⟨hname, hwritten.describe⟩,
    fun hroot => parse_eq_ok.mpr ⟨?_, hwritten.describe⟩⟩
  rw [hname, Path.absolute_absolute hroot]

theorem signedFields_reread :
    parse "/w" "a.go" "+007,-0:12,3" = .ok ⟨Path.absolute "/w" "a.go", .lines 7 0 12 3⟩ ∧
    ∃ printed, Selection.describe ⟨Path.absolute "/w" "a.go", .lines 7 0 12 3⟩ =
        Path.absolute "/w" "a.go" ++ ": " ++ printed ∧
      parse "/w" "a.go" printed = .ok ⟨Path.absolute "/w" "a.go", .lines 7 0 12 3⟩ ∧
      parse "/w" (Path.absolute "/w" "a.go") printed =
          .ok ⟨Path.absolute "/w" "a.go", .lines 7 0 12 3⟩ := by
  have hregion : Position.parse "+007,-0:12,3".toList = .ok (.lines 7 0 12 3) := by decide +kernel
  have h : parse "/w" "a.go" "+007,-0:12,3" = .ok ⟨Path.absolute "/w" "a.go", .lines 7 0 12 3⟩ := by
    rw [parse, hregion]
    rfl
  obtain ⟨printed, hdescribe, hsame, hrooted⟩ := (parse_iff_written _ _ _ _).2 h
  exact ⟨h, printed, hdescribe, hsame, hrooted ((Path.isAbsolute_iff _).mpr ⟨['w'], rfl⟩)⟩

end Selection

end Extraction
