/-!
# Extents of text

An extent is a region of a file: a byte offset and a length.  The predicates compare a selected
extent with the half-open range `[start, stop)` of a syntax node.  Offsets are 64-bit words in two's
complement, so the end of an extent wraps.
-/

namespace Extraction

/-- The 64-bit two's complement word congruent to `x`. -/
def word (x : Int) : Int :=
  Int.bmod x 0x10000000000000000

/-- Something that a well-formed request never meets. -/
inductive Fault where
  | invalidExtent (start stop : Int)
  | noSuchNode (id : Int)
  | missingPart
  | notLaidOut
deriving DecidableEq, Repr

namespace Fault

def message : Fault → String
  | invalidExtent start stop => s!"text: invalid extent [{start},{stop})"
  | noSuchNode id => s!"tree: no node {id}"
  | missingPart => "tree: a node has a part that is missing"
  | notLaidOut => "tree: Spec has not been built"

end Fault

structure Extent where
  offset : Int
  length : Int
deriving DecidableEq, Repr

namespace Extent

def between (start stop : Int) : Except Fault Extent :=
  if stop < start then .error (.invalidExtent start stop) else .ok ⟨start, word (stop - start)⟩

def past (e : Extent) : Int :=
  word (e.offset + e.length)

/-- The range `[start, stop)` lies within the extent. -/
def Covers (e : Extent) (start stop : Int) : Prop :=
  e.offset ≤ start ∧ stop ≤ e.past

/-- The extent lies within `[start, stop)`. -/
def LiesIn (e : Extent) (start stop : Int) : Prop :=
  start ≤ e.offset ∧ e.past ≤ stop

def EnclosedBy (e : Extent) (start stop : Int) : Prop :=
  start < e.offset ∧ e.past < stop

/-- The end of the extent falls strictly inside `[start, stop)`. -/
def EndsInside (e : Extent) (start stop : Int) : Prop :=
  start < e.past ∧ e.past < stop

def Contains (e : Extent) (offset : Int) : Prop :=
  e.offset ≤ offset ∧ offset < e.past

instance (e : Extent) (start stop : Int) : Decidable (e.Covers start stop) :=
  inferInstanceAs (Decidable (_ ∧ _))

instance (e : Extent) (start stop : Int) : Decidable (e.LiesIn start stop) :=
  inferInstanceAs (Decidable (_ ∧ _))

instance (e : Extent) (start stop : Int) : Decidable (e.EnclosedBy start stop) :=
  inferInstanceAs (Decidable (_ ∧ _))

instance (e : Extent) (start stop : Int) : Decidable (e.EndsInside start stop) :=
  inferInstanceAs (Decidable (_ ∧ _))

instance (e : Extent) (offset : Int) : Decidable (e.Contains offset) :=
  inferInstanceAs (Decidable (_ ∧ _))

def describe (e : Extent) : String :=
  s!"offset {e.offset}, length {e.length}"

end Extent

end Extraction
