import Extraction.Proofs.PositionTexts
import Extraction.Report.Log

/-!
# Lines and columns

The line and column at which an offset is displayed lead back to it, so the location that a log
shows for an extent can be given as a position and selects that extent.  A position that is accepted
selects nothing outside of the file, whether or not it is one that was displayed.
-/

namespace Extraction

theorem word_of_bounds {x : Int} (hle : 0 ≤ x) (hlt : x < 0x8000000000000000) : word x = x := by
  unfold word
  rw [Int.bmod_def]
  omega

namespace Extent

variable {start stop : Int}

theorem between_of_le (hstart : 0 ≤ start) (hle : start ≤ stop) (hlt : stop < 0x8000000000000000) :
    between start stop = .ok ⟨start, stop - start⟩ := by
  unfold between
  rw [if_neg (by omega), word_of_bounds (by omega) (by omega)]

theorem le_of_between {e : Extent} (h : between start stop = .ok e) : start ≤ stop := by
  unfold between at h
  split at h
  next => cases h
  next hle => exact Int.not_lt.mp hle

theorem past_of_bounds (hstart : 0 ≤ start) (hle : start ≤ stop) (hlt : stop < 0x8000000000000000) :
    past ⟨start, stop - start⟩ = stop := by
  unfold past
  have hsum : start + (stop - start) = stop := by omega
  rw [hsum, word_of_bounds (by omega) hlt]

end Extent

namespace SourceFile

variable {f : SourceFile}

def Lined (f : SourceFile) : Prop :=
  ∀ start ∈ f.lines, start ≤ f.size

theorem lineStartsAfter_le (offset : Nat) (bytes : List UInt8) :
    ∀ start ∈ lineStartsAfter offset bytes, start ≤ offset + bytes.length := by
  induction bytes generalizing offset with
  | nil => simp [lineStartsAfter]
  | cons b rest ih =>
    intro start hstart
    have hrest := ih (offset + 1) start
    rw [List.length_cons]
    unfold lineStartsAfter at hstart
    split at hstart
    · rcases List.mem_cons.mp hstart with rfl | hmem
      · omega
      · have := hrest hmem
        omega
    · have := hrest hstart
      omega

theorem lined_ofContents (name : String) (bytes : List UInt8) : (ofContents name bytes).Lined := by
  intro start hstart
  simp only [ofContents] at hstart ⊢
  split at hstart
  · cases hstart
  · rcases List.mem_cons.mp hstart with rfl | hmem
    · exact Nat.zero_le _
    · simpa using lineStartsAfter_le _ _ start hmem

/-- A position lies on the last line that starts up to the offset, and the next line starts behind
the offset. -/
theorem position_eq (hfirst : f.lines.head? = some 0) {offset : Nat} (hle : offset ≤ f.size) :
    ∃ before start after, f.lines = before ++ start :: after ∧ start ≤ offset ∧
      (∀ next ∈ after.head?, offset < next) ∧
      f.position offset = (before.length + 1, offset - start + 1) := by
  have hclamp : min (max (offset : Int) 0).toNat f.size = offset := by omega
  have hparts := List.takeWhile_append_dropWhile (p := fun start : Nat => decide (start ≤ offset))
    (l := f.lines)
  have hbelow : ∀ start ∈ f.lines.takeWhile fun start => decide (start ≤ offset),
      start ≤ offset := by
    intro start hstart
    exact of_decide_eq_true (List.all_eq_true.mp List.all_takeWhile start hstart)
  simp only [position, hclamp]
  cases hlast : (f.lines.takeWhile fun start => decide (start ≤ offset)).getLast? with
  | none =>
    obtain ⟨rest, hlines⟩ := List.head?_eq_some_iff.mp hfirst
    simp [hlines] at hlast
  | some start =>
    obtain ⟨before, hbefore⟩ := List.getLast?_eq_some_iff.mp hlast
    rw [hbefore] at hparts hbelow
    rw [List.append_assoc, List.singleton_append] at hparts
    refine ⟨before, start, _, hparts.symm, hbelow start (by simp),
      fun next hnext => ?_, by simp [hbefore]⟩
    have hstop := List.head?_dropWhile_not (fun start : Nat => decide (start ≤ offset)) f.lines
    rw [hnext] at hstop
    simpa using hstop

theorem offset?_line {before after : List Nat} {start : Nat} {column : Int}
    (hlines : f.lines = before ++ start :: after) (hcolumn : 1 ≤ column) :
    f.offset? (before.length + 1 : Nat) column =
      if ((after.head?.getD f.size : Nat) : Int) < word (start + column - 1) then none
      else some (word (start + column - 1)) := by
  have hlength : f.lines.length = before.length + 1 + after.length := by
    simp [hlines, Nat.add_assoc, Nat.add_comm 1]
  have hline : f.lines[before.length]? = some start := by
    simp [hlines]
  have hnext : f.lines[before.length + 1]? = after.head? := by
    rw [hlines, List.getElem?_append_right (by omega), List.head?_eq_getElem?]
    simp
  have hindex : ((before.length + 1 : Nat) - 1 : Int).toNat = before.length := by omega
  rw [offset?, if_neg (by omega), hindex, hline, Int.toNat_natCast, hnext]
  rfl

theorem offset?_position (hfirst : f.lines.head? = some 0) (hsize : f.size < 0x8000000000000000)
    {offset : Nat} (hle : offset ≤ f.size) :
    f.offset? (f.position offset).1 (f.position offset).2 = some (offset : Int) := by
  obtain ⟨before, start, after, hlines, hstart, hnext, hposition⟩ := position_eq hfirst hle
  have hword : word (start + (offset - start + 1 : Nat) - 1) = offset := by
    have hsum : (start + (offset - start + 1 : Nat) - 1 : Int) = offset := by omega
    rw [hsum, word_of_bounds (by omega) (by omega)]
  have hlimit : offset ≤ after.head?.getD f.size := by
    cases hhead : after.head? with
    | none => exact hle
    | some next => exact Nat.le_of_lt (hnext next hhead)
  rw [hposition, offset?_line hlines (by omega), hword, if_neg (by omega)]

theorem offset?_bounds (hlined : f.Lined) (hsize : f.size ≤ 0x7FFFFFFF80000000)
    {line column offset : Int} (hcolumn : column ≤ 0x7FFFFFFF)
    (h : f.offset? line column = some offset) : 0 ≤ offset ∧ offset ≤ f.size := by
  unfold offset? at h
  split at h
  next => cases h
  next hvalid =>
    cases hline : f.lines[(line - 1).toNat]? with
    | none =>
      rw [hline] at h
      cases h
    | some start =>
      have hstart := hlined start (List.mem_of_getElem? hline)
      simp only [hline, Option.bind_eq_bind, Option.bind_some] at h
      rw [word_of_bounds (by omega) (by omega)] at h
      split at h
      next => cases h
      next hwithin =>
        cases h
        refine ⟨by omega, ?_⟩
        have hlimit : (f.lines[line.toNat]?.getD f.size) ≤ f.size := by
          cases hnext : f.lines[line.toNat]? with
          | none => exact Nat.le_refl _
          | some next => exact hlined next (List.mem_of_getElem? hnext)
        omega

end SourceFile

namespace Selection

variable {files : FileSet} {disk : Disk} {f : SourceFile} {extent : Extent} {s : Selection}

theorem convert_eq_ok : s.convert files disk = .ok (f, extent) ↔
    files.find? disk s.filename = some f ∧ s.extentIn f = .ok extent := by
  unfold convert
  cases files.find? disk s.filename with
  | none => simp
  | some g =>
    simp only [map_eq_ok, Option.some.injEq, Prod.mk.injEq]
    constructor
    · rintro ⟨_, hextent, rfl, rfl⟩
      exact ⟨rfl, hextent⟩
    · rintro ⟨rfl, hextent⟩
      exact ⟨extent, hextent, rfl, rfl⟩

theorem offsetAt_eq_ok {line column offset : Int} :
    offsetAt f line column = .ok offset ↔ f.offset? line column = some offset := by
  unfold offsetAt
  cases f.offset? line column <;> simp

theorem extentIn_lines {startLine startCol endLine endCol start stop : Int}
    (hregion : s.region = .lines startLine startCol endLine endCol)
    (hstart : f.offset? startLine startCol = some start)
    (hstop : f.offset? endLine endCol = some stop) (hpos : 0 ≤ start) (hle : start ≤ stop)
    (hlt : stop < 0x8000000000000000) : s.extentIn f = .ok ⟨start, stop - start⟩ := by
  simp only [extentIn, hregion, offsetAt, hstart, hstop]
  simp only [bind, Except.bind, Extent.between_of_le hpos hle hlt]
  rfl

theorem extentIn_bounds {text : List Char} (hwritten : Position.Written text s.region)
    (hlined : f.Lined) (hsize : f.size ≤ 0x7FFFFFFF80000000) (h : s.extentIn f = .ok extent) :
    0 ≤ extent.offset ∧ 0 ≤ extent.length ∧ extent.past ≤ f.size := by
  unfold extentIn at h
  cases hregion : s.region with
  | bytes offset length =>
    rw [hregion] at h hwritten
    cases hwritten with
    | bytes ha hb =>
      simp only at h
      split at h
      next => cases h
      next hwithin =>
        cases h
        exact ⟨ha.2.1, hb.2.1, Int.not_lt.mp hwithin⟩
  | lines startLine startCol endLine endCol =>
    rw [hregion] at h hwritten
    cases hwritten with
    | lines _ hb _ hd =>
      simp only [bind_eq_ok, offsetAt_eq_ok] at h
      obtain ⟨start, hstart, stop, hstop, h⟩ := h
      have hlow := SourceFile.offset?_bounds hlined hsize hb.2.2 hstart
      have hhigh := SourceFile.offset?_bounds hlined hsize hd.2.2 hstop
      split at h
      next found hbetween =>
        cases h
        have hle := Extent.le_of_between hbetween
        rw [Extent.between_of_le hlow.1 hle (by omega)] at hbetween
        cases hbetween
        refine ⟨hlow.1, ?_, ?_⟩
        · simp only
          omega
        · rw [Extent.past_of_bounds hlow.1 hle (by omega)]
          exact hhigh.2
      next => cases h

end Selection

namespace Log

variable {log : Log} {files : FileSet} {disk : Disk} {f : SourceFile} {e : Entry}
  {filename : String} {a b : Nat}

theorem location_eq (cwd : String) (hfiles : log.files = some files)
    (hfind : files.find? disk filename = some f) (hplain : f.renumberings = [])
    (hsize : f.size < 0x8000000000000000) (hab : a ≤ b) (hb : b ≤ f.size)
    (hname : e.filename = some filename) (hposition : e.position = some ⟨a, b - a⟩)
    {startLine startCol endLine endCol : Nat} (hstart : f.position a = (startLine, startCol))
    (hend : f.position b = (endLine, endCol)) :
    log.location disk e cwd =
      log.displayName filename cwd ++ s!":{startLine}.{startCol}-{endLine}.{endCol}" := by
  have hpast : Extent.past ⟨a, b - a⟩ = b := Extent.past_of_bounds (by omega) (by omega) (by omega)
  have hwithin : ¬ (f.size : Int) < Extent.past ⟨a, b - a⟩ := by
    rw [hpast]
    omega
  have hshown {offset line column : Nat} (h : f.position offset = (line, column)) :
      f.displayed offset = ((line : Int), (column : Int)) := by
    simp [SourceFile.displayed, hplain, h]
  simp only [location, hname, hposition, region, hfiles, Option.bind_some, hfind, if_neg hwithin]
  simp only [hpast, hshown hstart, hshown hend]
  simp only [String.append_assoc]
  rfl

end Log

namespace Selection

theorem parse_lines (directory filename : String) {startLine startCol endLine endCol : Nat}
    (h₁ : startLine < 0x80000000) (h₂ : startCol < 0x80000000) (h₃ : endLine < 0x80000000)
    (h₄ : endCol < 0x80000000) :
    parse directory filename s!"{startLine},{startCol}:{endLine},{endCol}" =
      .ok ⟨Path.absolute directory filename, .lines startLine startCol endLine endCol⟩ := by
  rw [parse_eq_ok]
  refine ⟨rfl, ?_⟩
  have htext : s!"{startLine},{startCol}:{endLine},{endCol}".toList =
      (toString startLine).toList ++ ',' :: (toString startCol).toList ++
        ':' :: ((toString endLine).toList ++ ',' :: (toString endCol).toList) := by
    change (toString startLine ++ "," ++ toString startCol ++ ":" ++ toString endLine ++ "," ++
      toString endCol).toList = _
    simp
  rw [htext]
  exact .lines (Position.field_toString h₁) (Position.field_toString h₂)
    (Position.field_toString h₃) (Position.field_toString h₄)

/-- The lines and columns that a log displays for an extent of a file select that extent.  Whatever
is selected by a position lies within its file. -/
theorem convert_location (files : FileSet) (disk : Disk) (directory filename : String) :
    (∀ (log : Log) (cwd name : String) (bytes : List UInt8) (e : Entry)
      (a b startLine startCol endLine endCol : Nat), log.files = some files →
      files.find? disk (Path.absolute directory filename) = some (.ofContents name bytes) →
      bytes ≠ [] → bytes.length < 0x8000000000000000 → a ≤ b → b ≤ bytes.length →
      e.filename = some (Path.absolute directory filename) → e.position = some ⟨a, b - a⟩ →
      (SourceFile.ofContents name bytes).position a = (startLine, startCol) →
      (SourceFile.ofContents name bytes).position b = (endLine, endCol) →
      log.location disk e cwd = log.displayName (Path.absolute directory filename) cwd ++
        s!":{startLine}.{startCol}-{endLine}.{endCol}" ∧
      (startLine < 0x80000000 → startCol < 0x80000000 → endLine < 0x80000000 → endCol < 0x80000000 →
        ∃ s, parse directory filename s!"{startLine},{startCol}:{endLine},{endCol}" = .ok s ∧
          s.convert files disk = .ok (.ofContents name bytes, ⟨a, b - a⟩))) ∧
    ∀ (position : String) (s : Selection) (f : SourceFile) (extent : Extent),
      parse directory filename position = .ok s → s.convert files disk = .ok (f, extent) →
      f.Lined → f.size ≤ 0x7FFFFFFF80000000 →
      0 ≤ extent.offset ∧ 0 ≤ extent.length ∧ extent.past ≤ f.size := by
  constructor
  · intro log cwd name bytes e a b startLine startCol endLine endCol hfiles hfind hbytes hsize hab
      hb hname hposition hstart hend
    refine ⟨Log.location_eq cwd hfiles hfind rfl hsize hab hb hname hposition hstart hend,
      fun h₁ h₂ h₃ h₄ => ?_⟩
    refine ⟨_, parse_lines directory filename h₁ h₂ h₃ h₄, convert_eq_ok.mpr ⟨hfind, ?_⟩⟩
    have hfirst : (SourceFile.ofContents name bytes).lines.head? = some 0 := by
      simp [SourceFile.ofContents, hbytes]
    have hlow := SourceFile.offset?_position hfirst hsize (Nat.le_trans hab hb)
    have hhigh := SourceFile.offset?_position hfirst hsize hb
    rw [hstart] at hlow
    rw [hend] at hhigh
    exact extentIn_lines rfl hlow hhigh (by omega) (by omega) (by omega)
  · intro position s f extent hparse hconvert hlined hsize
    obtain ⟨-, hwritten⟩ := parse_eq_ok.mp hparse
    exact extentIn_bounds hwritten hlined hsize (convert_eq_ok.mp hconvert).2

theorem secondLine_reread :
    let f := SourceFile.ofContents (Path.absolute "/w" "a.go") [97, 10, 98, 99, 10]
    let e : Entry :=
      { severity := .info, message := "", filename := some (Path.absolute "/w" "a.go"),
        position := some ⟨1, 3⟩ }
    Log.location { files := some [f], aliases := [(Path.absolute "/w" "a.go", "a.go")] }
        ⟨"/w", []⟩ e "" = "a.go:1.2-2.3" ∧
      ∃ s, parse "/w" "a.go" "1,2:2,3" = .ok s ∧ s.convert [f] ⟨"/w", []⟩ = .ok (f, ⟨1, 3⟩) ∧
        Extent.past ⟨1, 3⟩ ≤ f.size := by
  intro f e
  obtain ⟨hselects, hbounds⟩ := convert_location [f] ⟨"/w", []⟩ "/w" "a.go"
  have hfind : FileSet.find? [f] ⟨"/w", []⟩ (Path.absolute "/w" "a.go") = some f := by
    simp [FileSet.find?, Disk.agree, f, SourceFile.ofContents]
  obtain ⟨hlocation, hsame⟩ :=
    hselects { files := some [f], aliases := [(Path.absolute "/w" "a.go", "a.go")] } "" _ _ e
    1 4 1 2 2 3 rfl hfind (by decide) (by decide) (by decide) (by decide) rfl rfl rfl rfl
  obtain ⟨s, hparse, hconvert⟩ := hsame (by decide) (by decide) (by decide) (by decide)
  have hname : Log.displayName
      { files := some [f], aliases := [(Path.absolute "/w" "a.go", "a.go")] }
      (Path.absolute "/w" "a.go") "" = "a.go" := by
    simp [Log.displayName]
  rw [hname] at hlocation
  exact ⟨hlocation, s, hparse, hconvert,
    (hbounds _ s f _ hparse hconvert (SourceFile.lined_ofContents _ _) (by decide)).2.2⟩

end Selection

end Extraction
