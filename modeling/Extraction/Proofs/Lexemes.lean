import Extraction.GoCode.Lexeme
import Extraction.Proofs.Spans

/-!
# Boundaries of a source text

The lexemes of a text come one after the other, and each takes at least one byte.  The spans that
the boundaries are made of are as long as the literals, which may differ from what a lexeme takes:
the carriage returns of raw strings and comments are left out, and a stray byte stands as a
character of three bytes.  At every offset that is not between the two ends of a lexeme the
boundaries tell exactly where tokens and comments are.
-/

namespace Extraction

namespace Glyph

theorem lead?_cases {b width lo hi bits : Nat} (h : lead? b = some (width, lo, hi, bits)) :
    width = 1 ∧ bits < 0x80 ∨
      0x80 ≤ lo ∧ hi ≤ 0xBF ∧
        (width = 2 ∧ 2 ≤ bits ∧ bits < 0x20 ∨
          width = 3 ∧ (0xA0 ≤ lo ∨ 1 ≤ bits) ∧ bits < 0x10 ∨ width = 4 ∧
          (0x90 ≤ lo ∨ 1 ≤ bits)) := by
  unfold lead? at h
  repeat' split at h
  all_goals
    simp only [Option.some.injEq, Prod.mk.injEq, reduceCtorEq] at h
    try omega

theorem first?_cases {b : UInt8} {rest : List UInt8} {g : Glyph} (h : first? b rest = some g) :
    ∃ width lo hi bits, lead? b.toNat = some (width, lo, hi, bits) ∧
      (width = 1 ∧ g = ⟨bits, 1⟩ ∨
        ∃ (second : Nat) (others : List Nat), width = others.length + 2 ∧ lo ≤ second ∧
          second ≤ hi ∧ (∀ c ∈ others, 0x80 ≤ c ∧ c ≤ 0xBF) ∧
          g = ⟨(second :: others).foldl (fun acc c => acc * 64 + (c - 0x80)) bits, width⟩) := by
  simp only [first?, Option.bind_eq_bind, Option.bind_eq_some_iff] at h
  obtain ⟨⟨width, lo, hi, bits⟩, hlead, h⟩ := h
  refine ⟨width, lo, hi, bits, hlead, ?_⟩
  simp only at h
  generalize (rest.take (width - 1)).map UInt8.toNat = tail at h
  split at h
  · cases h
  next hlength =>
    split at h
    · cases h
      exact Or.inl ⟨by simp only [List.length_nil] at hlength; omega, rfl⟩
    next second others =>
      split at h
      next hbytes =>
        cases h
        simp only [Bool.and_eq_true, decide_eq_true_eq, List.all_eq_true] at hbytes
        simp only [List.length_cons] at hlength
        exact Or.inr ⟨second, others, by omega, hbytes.1.1, hbytes.1.2, hbytes.2, rfl⟩
      · cases h

theorem encodedWidth_of_first? {b : UInt8} {rest : List UInt8} {g : Glyph}
    (h : first? b rest = some g) :
    encodedWidth g.code = g.width ∧ 0 < g.width := by
  obtain ⟨width, lo, hi, bits, hlead,
      ⟨rfl, rfl⟩ | ⟨second, others, hwidth, hlo, hhi, hothers, rfl⟩⟩ := first?_cases h
  · rcases lead?_cases hlead with ⟨-, hbits⟩ | ⟨-, -, ⟨hwidth, -⟩ | ⟨hwidth, -⟩ | ⟨hwidth, -⟩⟩
    · exact ⟨by rw [encodedWidth, if_pos hbits], Nat.one_pos⟩
    all_goals cases hwidth
  · refine ⟨?_, by simp only; omega⟩
    simp only [List.foldl_cons]
    rcases lead?_cases hlead
      with ⟨rfl, -⟩ | ⟨hlo', hhi', ⟨rfl, hbits⟩ | ⟨rfl, hbits⟩ | ⟨rfl, hbits⟩⟩
    · cases hwidth
    · obtain rfl : others = [] := List.length_eq_zero_iff.mp (by omega)
      rw [List.foldl_nil, encodedWidth, if_neg (by omega), if_pos (by omega)]
    · obtain ⟨third, rfl⟩ := List.length_eq_one_iff.mp (show others.length = 1 by omega)
      have hthird := hothers third List.mem_cons_self
      rw [List.foldl_cons, List.foldl_nil, encodedWidth, if_neg (by omega), if_neg (by omega),
        if_pos (by omega)]
    · obtain ⟨third, fourth, rfl⟩ : ∃ third fourth, others = [third, fourth] := by
        rcases others with _ | ⟨third, _ | ⟨fourth, _ | _⟩⟩ <;> simp at hwidth ⊢
      rw [List.foldl_cons, List.foldl_cons, List.foldl_nil, encodedWidth, if_neg (by omega),
        if_neg (by omega), if_neg (by omega)]

def stray : Glyph := ⟨replacement, 1⟩

theorem mem_decode_cases (source : List UInt8) :
    ∀ g ∈ decode source, g = stray ∨ encodedWidth g.code = g.width ∧ 0 < g.width := by
  fun_induction decode source with
  | case1 => simp
  | case2 b rest g hfirst ih =>
    exact List.forall_mem_cons.mpr ⟨Or.inr (encodedWidth_of_first? hfirst), ih⟩
  | case3 b rest hfirst ih => exact List.forall_mem_cons.mpr ⟨Or.inl rfl, ih⟩

theorem mem_ofBytes_cases (source : List UInt8) :
    ∀ g ∈ ofBytes source, g = stray ∨ encodedWidth g.code = g.width ∧ 0 < g.width := by
  unfold ofBytes
  split
  · simp [stray]
  · simp [stray]
  · exact mem_decode_cases source

end Glyph

namespace GoCode.Lexeme

def Holds (l : Lexeme) (offset : Int) : Prop :=
  l.start ≤ offset ∧ offset < l.start + l.taken

def Splits (l : Lexeme) (offset : Int) : Prop :=
  l.start < offset ∧ offset < l.start + l.taken

/-- The offset is between the end of the lexeme and the end by the length of its literal, whichever
comes first. -/
def Disputed (l : Lexeme) (offset : Int) : Prop :=
  l.start + l.literal ≤ offset ∧ offset < l.start + l.taken ∨ l.start + l.taken ≤ offset ∧
    offset < l.start + l.literal

inductive Shapes (g : Glyph) (rest : List Glyph) : LexemeKind × Nat × Nat → Prop where
  | written (n : Nat) : Shapes g rest (.token, n, Glyph.bytes (g :: rest.take n))
  | stripped (kind : LexemeKind) (n : Nat) : Shapes g rest
      (kind, n, withoutReturns (g :: rest.take n))
  | general (n : Nat) : Shapes g rest (.comment, n, commentLiteral 0 false (g :: rest.take n))
  | separator (hg : g.code < 0x80) : Shapes g rest (.separator, 0, 1)
  | alone : Shapes g rest (.token, 0, Glyph.encodedWidth g.code)

theorem shapes_shape (g : Glyph) (rest : List Glyph) : Shapes g rest (shape g rest) := by
  unfold shape
  simp only
  split
  · exact .written _
  split
  · exact .written _
  split
  · exact .written _
  split
  · exact .written _
  split
  · exact .stripped .token _
  split
  · exact .stripped .comment _
  split
  · exact .general _
  split
  next hseparator =>
    simp only [Glyph.is, beq_iff_eq] at hseparator
    exact .separator (by rw [hseparator]; decide)
  split
  · exact .written _
  · exact .alone

theorem commentLiteral_eq (written : Nat) (afterStar : Bool) {gs : List Glyph}
    (h : ∀ g ∈ gs, g.is '\r' = false) :
    commentLiteral written afterStar gs = written + Glyph.bytes gs := by
  induction gs generalizing written afterStar with
  | nil => rfl
  | cons g gs ih =>
    obtain ⟨hg, hgs⟩ := List.forall_mem_cons.mp h
    rw [commentLiteral, if_neg (by simp [hg]), ih _ _ hgs, Glyph.bytes, Nat.add_assoc]

/-- A literal is as long as its lexeme, but for carriage returns and bytes that are no character. -/
theorem Shapes.literal_eq {g : Glyph} {rest : List Glyph} {kind : LexemeKind} {n literal : Nat}
    (h : Shapes g rest (kind, n, literal)) (hreturn : ∀ k ∈ g :: rest, k.is '\r' = false)
    (hg : Glyph.encodedWidth g.code = g.width) : literal = Glyph.bytes (g :: rest.take n) := by
  have hreturn' : ∀ k ∈ g :: rest.take n, k.is '\r' = false :=
    fun k hk => hreturn k ((List.take_sublist (n + 1) (g :: rest)).subset hk)
  cases h with
  | written => rfl
  | stripped => rw [withoutReturns, List.filter_eq_self.mpr fun k hk => by simp [hreturn' k hk]]
  | general => rw [commentLiteral_eq _ _ hreturn', Nat.zero_add]
  | separator hcode =>
    rw [Glyph.encodedWidth, if_pos hcode] at hg
    rw [List.take_zero, Glyph.bytes, Glyph.bytes, ← hg]
  | alone => rw [List.take_zero, Glyph.bytes, Glyph.bytes, hg, Nat.add_zero]

theorem exists_shapes_of_mem_scan {offset : Nat} {gs : List Glyph} : ∀ l ∈ scan offset gs,
    ∃ g rest n, (g :: rest) <:+ gs ∧ Shapes g rest (l.kind, n, l.literal) ∧
      l.taken = Glyph.bytes (g :: rest.take n) := by
  fun_induction scan offset gs with
  | case1 => simp
  | case2 offset g rest hblank ih =>
    intro l hl
    obtain ⟨g', rest', n, hsuffix, h⟩ := ih l hl
    exact ⟨g', rest', n, hsuffix.trans (List.suffix_cons g rest), h⟩
  | case3 offset g rest hblank kind n literal hshape taken ih =>
    refine List.forall_mem_cons.mpr
      ⟨⟨g, rest, n, List.suffix_refl _, hshape ▸ shapes_shape g rest, rfl⟩, ?_⟩
    intro l hl
    obtain ⟨g', rest', m, hsuffix, h⟩ := ih l hl
    exact ⟨g', rest', m, (hsuffix.trans (List.drop_suffix n rest)).trans (List.suffix_cons g rest),
      h⟩

theorem scan_ordered (offset : Nat) (gs : List Glyph) :
    (∀ l ∈ scan offset gs, offset ≤ l.start) ∧
      (scan offset gs).Pairwise fun a b => a.start + a.taken ≤ b.start := by
  fun_induction scan offset gs with
  | case1 => simp
  | case2 offset g rest hblank ih =>
    exact ⟨fun l hl => Nat.le_trans (Nat.le_add_right _ _) (ih.1 l hl), ih.2⟩
  | case3 offset g rest hblank kind n literal hshape taken ih =>
    refine ⟨List.forall_mem_cons.mpr ⟨Nat.le_refl _, fun l hl => ?_⟩, List.pairwise_cons.mpr ih⟩
    exact Nat.le_trans (Nat.le_add_right _ _) (ih.1 l hl)

/-- The lexemes of a source are those of its characters, with or without the first. -/
theorem exists_scan_eq (source : List UInt8) :
    ∃ offset gs, gs <:+ Glyph.ofBytes source ∧ ofSource source = scan offset gs := by
  unfold ofSource
  split
  next g rest hglyphs =>
    rw [hglyphs]
    split
    · exact ⟨g.width, rest, List.suffix_cons g rest, rfl⟩
    · exact ⟨0, g :: rest, List.suffix_refl _, rfl⟩
  next hglyphs => exact ⟨0, [], List.nil_suffix, by rw [scan]⟩

variable {source : List UInt8}

theorem exists_shapes {l : Lexeme} (hl : l ∈ ofSource source) :
    ∃ g rest n, (∀ k ∈ g :: rest, k ∈ Glyph.ofBytes source) ∧ Shapes g rest (l.kind, n, l.literal) ∧
      l.taken = Glyph.bytes (g :: rest.take n) := by
  obtain ⟨offset, gs, hgs, heq⟩ := exists_scan_eq source
  rw [heq] at hl
  obtain ⟨g, rest, n, hsuffix, h⟩ := exists_shapes_of_mem_scan l hl
  exact ⟨g, rest, n, fun k hk => hgs.subset (hsuffix.subset hk), h⟩

theorem taken_pos {l : Lexeme} (hl : l ∈ ofSource source) : 0 < l.taken := by
  obtain ⟨g, rest, n, hmem, -, htaken⟩ := exists_shapes hl
  rw [htaken, Glyph.bytes]
  rcases Glyph.mem_ofBytes_cases source g (hmem g List.mem_cons_self) with rfl | ⟨-, hpos⟩
  · exact Nat.lt_of_lt_of_le Nat.one_pos (Nat.le_add_right _ _)
  · omega

theorem not_disputed (hwhole : Glyph.stray ∉ Glyph.ofBytes source)
    (hreturn : ∀ g ∈ Glyph.ofBytes source, g.is '\r' = false) {l : Lexeme}
    (hl : l ∈ ofSource source) (offset : Int) :
    ¬ l.Disputed offset := by
  obtain ⟨g, rest, n, hmem, hshape, htaken⟩ := exists_shapes hl
  have hg := hmem g List.mem_cons_self
  rcases Glyph.mem_ofBytes_cases source g hg with rfl | ⟨hwidth, -⟩
  · exact absurd hg hwhole
  · have hliteral := hshape.literal_eq (fun k hk => hreturn k (hmem k hk)) hwidth
    rw [Disputed]
    omega

def reach (l : Lexeme) : Span :=
  ⟨l.start, l.start + l.taken⟩

theorem reach_nonempty {l : Lexeme} (hl : l ∈ ofSource source) : l.reach.start < l.reach.stop := by
  have := taken_pos hl
  simp only [reach]
  omega

theorem separated_reaches (source : List UInt8) (kind : LexemeKind) :
    Span.Separated (((ofSource source).filter fun l => l.kind = kind).map reach).toArray := by
  refine ⟨fun s hs => ?_, ?_⟩
  · obtain ⟨l, hl, rfl⟩ := List.mem_map.mp (List.mem_toArray.mp hs)
    exact reach_nonempty (List.mem_filter.mp hl).1
  · obtain ⟨offset, gs, -, heq⟩ := exists_scan_eq source
    have hordered := (scan_ordered offset gs).2
    rw [← heq] at hordered
    refine List.pairwise_map.mpr ((hordered.filter _).imp fun hab => ?_)
    simp only [reach]
    omega

theorem exists_mem_reaches {kind : LexemeKind} {P : Span → Prop} :
    (∃ s ∈ (((ofSource source).filter fun l => l.kind = kind).map reach).toArray, P s) ↔
      ∃ l ∈ ofSource source, l.kind = kind ∧ P l.reach := by
  simp only [List.mem_toArray, List.mem_map, List.mem_filter, decide_eq_true_eq]
  constructor
  · rintro ⟨-, ⟨l, ⟨hl, hkind⟩, rfl⟩, hP⟩
    exact ⟨l, hl, hkind, hP⟩
  · rintro ⟨l, hl, hkind, hP⟩
    exact ⟨l.reach, ⟨l, ⟨hl, hkind⟩, rfl⟩, hP⟩

theorem span_agrees {kind : LexemeKind} {offset : Int}
    (h : ∀ l ∈ ofSource source, ¬ l.Disputed offset) :
    ∀ l ∈ (ofSource source).filter fun l => l.kind = kind,
      l.span.start = l.reach.start ∧ (offset < l.span.stop ↔ offset < l.reach.stop) := by
  intro l hl
  have := h l (List.mem_filter.mp hl).1
  simp only [Disputed] at this
  refine ⟨rfl, ?_⟩
  simp only [span, reach]
  omega

theorem splits_spans (kind : LexemeKind) {offset : Int}
    (h : ∀ l ∈ ofSource source, ¬ l.Disputed offset) :
    Span.splits (((ofSource source).filter fun l => l.kind = kind).map (·.span)).toArray offset =
      true ↔ ∃ l ∈ ofSource source, l.kind = kind ∧ l.Splits offset := by
  rw [Span.splits_congr (span_agrees h), (separated_reaches source kind).splits_iff,
    exists_mem_reaches]
  rfl

theorem touches_spans (kind : LexemeKind) {start stop : Int} (hlt : start < stop)
    (h : ∀ l ∈ ofSource source, ¬ l.Disputed start) :
    Span.touches (((ofSource source).filter fun l => l.kind = kind).map (·.span)).toArray
        start stop = true ↔
      ∃ l ∈ ofSource source, l.kind = kind ∧ ∃ b, start ≤ b ∧ b < stop ∧ l.Holds b := by
  rw [Span.touches_congr (span_agrees h), (separated_reaches source kind).touches_iff,
    exists_mem_reaches]
  refine exists_congr fun l => and_congr_right fun hl => and_congr_right fun _ => ?_
  exact Span.shares_iff (reach_nonempty hl) hlt

end GoCode.Lexeme

open GoCode Lexeme

/-- An offset is no boundary exactly if it is strictly inside a token or comment, and a region is
blank exactly if no byte of it belongs to a token and neither end is strictly inside a comment,
wherever the length of no literal is in dispute with the bytes that its lexeme takes.  In a text of
whole characters without carriage returns that is everywhere. -/
theorem boundaries_exact (source : List UInt8) :
    (∀ offset : Int, (∀ l ∈ ofSource source, ¬ l.Disputed offset) →
      ((boundariesOf source).allows offset = false ↔
        ∃ l ∈ ofSource source, l.kind ≠ .separator ∧ l.Splits offset)) ∧
    (∀ start stop : Int, start < stop →
      (∀ l ∈ ofSource source, ¬ l.Disputed start ∧ ¬ l.Disputed stop) →
        ((boundariesOf source).blank start stop = true ↔
          (∀ l ∈ ofSource source, l.kind = .token → ∀ b, start ≤ b → b < stop → ¬ l.Holds b) ∧
          ∀ l ∈ ofSource source, l.kind = .comment → ¬ l.Splits start ∧ ¬ l.Splits stop)) ∧
    (Glyph.stray ∉ Glyph.ofBytes source → (∀ g ∈ Glyph.ofBytes source, g.is '\r' = false) →
      ∀ l ∈ ofSource source, ∀ offset, ¬ l.Disputed offset) := by
  refine ⟨fun offset hoffset => ?_, fun start stop hlt hends => ?_, fun hwhole hreturn l hl =>
    not_disputed hwhole hreturn hl⟩
  · have hkinds : ∀ l : Lexeme, l.kind ≠ .separator ↔ l.kind = .token ∨ l.kind = .comment := by
      intro l
      cases l.kind <;> decide
    simp only [boundariesOf, Boundaries.ofSpans, Bool.and_eq_false_iff, Bool.not_eq_false',
      splits_spans _ hoffset, hkinds, or_and_right, and_or_left, exists_or]
  · have hgap : decide (stop ≤ start) = false := decide_eq_false (Int.not_le.mpr hlt)
    have hstart := fun l hl => (hends l hl).1
    have hstop := fun l hl => (hends l hl).2
    simp only [boundariesOf, Boundaries.ofSpans, hgap, Bool.false_or, Bool.and_eq_true,
      Bool.not_eq_true', ← Bool.not_eq_true, splits_spans _ hstart, splits_spans _ hstop,
      touches_spans _ hlt hstart, not_exists, not_and,
      and_assoc, imp_and, forall_and]

/-- A name and a comment behind a blank. -/
def commentedName : List UInt8 :=
  [0x61, 0x62, 0x20, 0x2F, 0x2F, 0x63]

theorem commentedName_bounded : (boundariesOf commentedName).allows 1 = false ∧
    (boundariesOf commentedName).blank 2 6 = true ∧
    (boundariesOf commentedName).blank 1 3 = false := by
  have hlexemes : ofSource commentedName = [⟨.token, 0, 2, 2⟩, ⟨.comment, 3, 3, 3⟩] := by
    decide +kernel
  obtain ⟨hallows, hblank, hundisputed⟩ := boundaries_exact commentedName
  have hplain := hundisputed (by decide +kernel) (by decide +kernel)
  have hboth (start stop : Int) : ∀ l ∈ ofSource commentedName, ¬ l.Disputed start ∧
    ¬ l.Disputed stop :=
    fun l hl => ⟨hplain l hl start, hplain l hl stop⟩
  rw [hallows 1 fun l hl => hplain l hl 1, hblank 2 6 (by decide) (hboth 2 6), ← Bool.not_eq_true,
    hblank 1 3 (by decide) (hboth 1 3), hlexemes]
  simp only [List.mem_cons, List.not_mem_nil, or_false, exists_eq_or_imp, exists_eq_left,
    forall_eq_or_imp, forall_eq, Lexeme.Splits, Lexeme.Holds]
  refine ⟨by decide, ?_, ?_⟩
  · constructor
    · exact ⟨fun _ b _ _ => by omega, by simp⟩
    · exact ⟨by simp, by simp⟩
  · rintro ⟨⟨hfree, -⟩, -⟩
    exact hfree trivial 1 (by decide) (by decide) (by decide)

/-- A raw string whose first line ends in a carriage return. -/
def returningText : List UInt8 :=
  [0x60, 0x61, 0x0D, 0x0A, 0x62, 0x60]

/-- The last byte of the raw string passes for a blank that starts at a boundary. -/
theorem boundaries_misjudged :
    ((∃ l ∈ ofSource returningText, l.kind ≠ .separator ∧ l.Splits 5) ∧
      (boundariesOf returningText).allows 5 = true) ∧
    (∃ l ∈ ofSource returningText, l.kind = .token ∧ l.Holds 5) ∧
    (boundariesOf returningText).blank 5 6 = true := by
  have hlexemes : ofSource returningText = [⟨.token, 0, 6, 5⟩] := by decide +kernel
  have hallows : (boundariesOf returningText).allows 5 = true := by decide +kernel
  have hblank : (boundariesOf returningText).blank 5 6 = true := by decide +kernel
  rw [hlexemes, hallows, hblank]
  simp [Lexeme.Splits, Lexeme.Holds]

end Extraction
