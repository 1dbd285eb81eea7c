import Mathlib.Data.List.DropRight
import Mathlib.Data.List.Forall2
import Extraction.Proofs.Logging

/-!
# Initial entries

All entries that a log holds are marked as initial at once, and later ones are added behind them.
So the initial entries come first, whatever is done to the log.  Behind them stands what the
operations since the last mark, or since the log was last cleared, would have logged on their own.
-/

namespace Extraction

namespace Entry

/-- What an entry says, apart from the text it is about. -/
def report (e : Entry) : Severity × String × Option DiagnosticKind :=
  (e.severity, e.message, e.kind)

/-- The second entry is the first one, which no longer is an error if it is initial. -/
structure Downgraded (e e' : Entry) : Prop where
  isInitial : e'.isInitial = e.isInitial
  message : e'.message = e.message
  filename : e'.filename = e.filename
  position : e'.position = e.position
  kind : e'.kind = e.kind
  harmless : e'.isInitial = true → e'.severity ≠ .error
  kept : e.isInitial = false ∨ e.severity ≠ .error → e'.severity = e.severity

variable (e : Entry)

@[simp] theorem isInitial_downgrade : e.downgrade.isInitial = e.isInitial := by
  unfold downgrade
  split <;> rfl

theorem downgrade_eq_self (h : e.isInitial = false ∨ e.severity ≠ .error) : e.downgrade = e := by
  rw [downgrade, if_neg]
  rcases h with h | h <;> simp [isInitialError, h]

theorem downgraded_downgrade : Downgraded e e.downgrade := by
  by_cases h : e.isInitial = true ∧ e.severity = .error
  · have hdowngrade : e.downgrade = { e with severity := .warning } := by
      simp [downgrade, isInitialError, h]
    rw [hdowngrade]
    refine ⟨rfl, rfl, rfl, rfl, rfl, by simp, fun hnot => ?_⟩
    rcases hnot with hnot | hnot
    · simp [h.1] at hnot
    · exact absurd h.2 hnot
  · have hnot : e.isInitial = false ∨ e.severity ≠ .error := by
      cases hi : e.isInitial with
      | false => exact Or.inl rfl
      | true => exact Or.inr fun hs => h ⟨hi, hs⟩
    rw [downgrade_eq_self e hnot]
    exact ⟨rfl, rfl, rfl, rfl, rfl, fun hi hs => h ⟨hi, hs⟩, fun _ => rfl⟩

end Entry

namespace Log

inductive Operation where
  | add (severity : Severity) (message : String)
  | diagnostic (filename : String) (d : Diagnostic)
  | associate (filename : String)
  | associateExtent (filename : String) (extent : Extent)
  | markInitial
  | downgradeInitial
  | removeInitial
  | clear

namespace Operation

def perform (directory : String) (log : Log) : Operation → Log
  | add severity message => log.add severity message
  | diagnostic filename d => log.diagnostic directory filename d
  | associate filename => log.associate directory filename
  | associateExtent filename extent => log.associateExtent directory filename extent
  | markInitial => log.markInitial
  | downgradeInitial => log.downgradeInitial
  | removeInitial => log.removeInitial
  | clear => log.clear

def logged? : Operation → Option (Severity × String × Option DiagnosticKind)
  | add severity message => some (severity, message, none)
  | diagnostic _ d => some (.error, d.message, some d.kind)
  | _ => none

/-- All entries so far become initial, or are dropped. -/
def seals : Operation → Bool
  | markInitial | clear => true
  | _ => false

end Operation

def run (directory : String) (ops : List Operation) : Log :=
  ops.foldl (Operation.perform directory) {}

def sinceSealed (ops : List Operation) : List Operation :=
  ops.rtakeWhile fun op => !op.seals

variable {directory : String} {es recent : List Entry} {f : Entry → Entry} {log log' : Log}
  {op : Operation}

@[simp] theorem run_concat (directory : String) (ops : List Operation) (op : Operation) :
    run directory (ops ++ [op]) = op.perform directory (run directory ops) := by
  simp [run]

theorem sinceSealed_concat (ops : List Operation) (op : Operation) :
    sinceSealed (ops ++ [op]) = if op.seals then [] else sinceSealed ops ++ [op] := by
  rw [sinceSealed, List.rtakeWhile_concat]
  cases op.seals <;> rfl

theorem modifyLast_nil (f : Entry → Entry) : modifyLast f [] = [] :=
  rfl

theorem map_modifyLast {α : Type} {g : Entry → α} (h : ∀ e, g (f e) = g e) (es : List Entry) :
    (modifyLast f es).map g = es.map g := by
  induction es using List.reverseRecOn with
  | nil => rfl
  | append_singleton es e => simp [modifyLast_append, h]

theorem modifyLast_eq (f : Entry → Entry) (es : List Entry) :
    (modifyLast f es).dropLast = es.dropLast ∧ (modifyLast f es).getLast? = es.getLast?.map f := by
  induction es using List.reverseRecOn with
  | nil => exact ⟨rfl, rfl⟩
  | append_singleton es e => simp [modifyLast_append]

/-- The initial entries come first, and `recent` are the others. -/
def EndsWith (es recent : List Entry) : Prop :=
  ∃ initial, es = initial ++ recent ∧ (∀ e ∈ initial, e.isInitial = true) ∧
    ∀ e ∈ recent, e.isInitial = false

namespace EndsWith

theorem map (h : EndsWith es recent) (hf : ∀ e, (f e).isInitial = e.isInitial) :
    EndsWith (es.map f) (recent.map f) := by
  obtain ⟨initial, rfl, hinitial, hrecent⟩ := h
  refine ⟨initial.map f, List.map_append, ?_, ?_⟩
  · simpa [hf] using hinitial
  · simpa [hf] using hrecent

theorem append (h : EndsWith es recent) {e : Entry} (he : e.isInitial = false) :
    EndsWith (es ++ [e]) (recent ++ [e]) := by
  obtain ⟨initial, rfl, hinitial, hrecent⟩ := h
  refine ⟨initial, List.append_assoc _ _ _, hinitial, fun x hx => ?_⟩
  rcases List.mem_append.mp hx with hx | hx
  · exact hrecent x hx
  · rwa [List.mem_singleton.mp hx]

/-- The last entry may be an initial one: then there are no others. -/
theorem modifyLast (h : EndsWith es recent) (hf : ∀ e, (f e).isInitial = e.isInitial) :
    EndsWith (modifyLast f es) (modifyLast f recent) := by
  obtain ⟨initial, rfl, hinitial, hrecent⟩ := h
  cases recent using List.reverseRecOn with
  | nil =>
    refine ⟨Log.modifyLast f initial, by simp [modifyLast_nil], fun e he => ?_,
      List.forall_mem_nil _⟩
    have hmarks := List.mem_map_of_mem (f := Entry.isInitial) he
    rw [map_modifyLast hf] at hmarks
    obtain ⟨x, hx, hxe⟩ := List.mem_map.mp hmarks
    rw [← hxe, hinitial x hx]
  | append_singleton recent e =>
    rw [← List.append_assoc, modifyLast_append, modifyLast_append, List.append_assoc]
    refine ⟨initial, rfl, hinitial, fun x hx => ?_⟩
    rcases List.mem_append.mp hx with hx | hx
    · exact hrecent x (List.mem_append_left _ hx)
    · rw [List.mem_singleton.mp hx, hf]
      exact hrecent e (by simp)

theorem filter_isInitial (h : EndsWith es recent) : es = es.filter (·.isInitial) ++ recent := by
  obtain ⟨initial, rfl, hinitial, hrecent⟩ := h
  rw [List.filter_append, List.filter_eq_self.mpr hinitial,
    List.filter_eq_nil_iff.mpr (by simpa using hrecent), List.append_nil]

theorem filter_not_isInitial (h : EndsWith es recent) :
    (es.filter fun e => !e.isInitial) = recent := by
  obtain ⟨initial, rfl, hinitial, hrecent⟩ := h
  rw [List.filter_append, List.filter_eq_nil_iff.mpr (by simpa using hinitial),
    List.filter_eq_self.mpr (by simpa using hrecent), List.nil_append]

/-- An operation that does not seal the log acts on the entries that are not initial as if there
were no others. -/
theorem perform (h : EndsWith log.entries log'.entries) (hop : op.seals = false) :
    EndsWith (op.perform directory log).entries (op.perform directory log').entries := by
  cases op with
  | add severity message => exact h.append rfl
  | diagnostic filename d =>
    simp only [Operation.perform, entries_diagnostic]
    exact h.append rfl
  | associate filename => exact h.modifyLast fun _ => rfl
  | associateExtent filename extent => exact h.modifyLast fun _ => rfl
  | downgradeInitial => exact h.map Entry.isInitial_downgrade
  | removeInitial =>
    refine ⟨[], ?_, List.forall_mem_nil _, by simp [Operation.perform, Log.removeInitial]⟩
    obtain ⟨initial, hes, hinitial, -⟩ := h
    simpa [Operation.perform, Log.removeInitial, hes] using hinitial
  | markInitial => cases hop
  | clear => cases hop

theorem of_seals (log : Log) (hop : op.seals = true) :
    EndsWith (op.perform directory log).entries [] := by
  cases op with
  | markInitial =>
    exact ⟨_, (List.append_nil _).symm, by simp [Operation.perform, Log.markInitial],
      List.forall_mem_nil _⟩
  | clear => exact ⟨[], rfl, List.forall_mem_nil _, List.forall_mem_nil _⟩
  | _ => cases hop

end EndsWith

theorem endsWith_run (directory : String) (ops : List Operation) :
    EndsWith (run directory ops).entries (run directory (sinceSealed ops)).entries := by
  induction ops using List.reverseRecOn with
  | nil => exact ⟨[], rfl, List.forall_mem_nil _, List.forall_mem_nil _⟩
  | append_singleton ops op ih =>
    rw [run_concat, sinceSealed_concat]
    cases hop : op.seals with
    | false =>
      simp only [Bool.false_eq_true, if_false, run_concat]
      exact ih.perform hop
    | true => exact EndsWith.of_seals _ hop

theorem entries_removeInitial (directory : String) (ops : List Operation) :
    (run directory ops).removeInitial.entries = (run directory (sinceSealed ops)).entries :=
  (endsWith_run directory ops).filter_not_isInitial

theorem reports_perform (hnone : ∀ e ∈ log.entries, e.isInitial = false) (hop : op.seals = false) :
    (op.perform directory log).entries.map Entry.report = log.entries.map Entry.report ++
      op.logged?.toList := by
  cases op with
  | add severity message => simp [Operation.perform, Operation.logged?, Entry.report]
  | diagnostic filename d =>
    simp [Operation.perform, Operation.logged?, entries_diagnostic, Entry.ofDiagnostic,
      Entry.report]
  | associate filename =>
    change _ = log.entries.map Entry.report ++ []
    rw [List.append_nil]
    apply map_modifyLast
    exact fun _ => rfl
  | associateExtent filename extent =>
    change _ = log.entries.map Entry.report ++ []
    rw [List.append_nil]
    apply map_modifyLast
    exact fun _ => rfl
  | downgradeInitial =>
    have hsame : log.entries.map Entry.downgrade = log.entries := by
      conv_rhs => rw [← List.map_id log.entries]
      exact List.map_congr_left fun e he => Entry.downgrade_eq_self e (Or.inl (hnone e he))
    simp [Operation.perform, Operation.logged?, Log.downgradeInitial, hsame]
  | removeInitial =>
    have hall : (log.entries.filter fun e => !e.isInitial) = log.entries :=
      List.filter_eq_self.mpr (by simpa using hnone)
    simp [Operation.perform, Operation.logged?, Log.removeInitial, hall]
  | markInitial => cases hop
  | clear => cases hop

theorem reports_run (directory : String) (ops : List Operation) :
    (run directory (sinceSealed ops)).entries.map Entry.report =
      (sinceSealed ops).filterMap Operation.logged? := by
  induction ops using List.reverseRecOn with
  | nil => rfl
  | append_singleton ops op ih =>
    rw [sinceSealed_concat]
    cases hop : op.seals with
    | false =>
      obtain ⟨-, -, -, hnone⟩ := endsWith_run directory ops
      simp only [Bool.false_eq_true, if_false, run_concat, reports_perform hnone hop, ih,
        List.filterMap_append]
      cases hlogged : op.logged? <;> simp [hlogged]
    | true => rfl

structure KeepsApart (directory : String) (ops : List Operation) (log : Log) : Prop where
  /-- The initial entries come first, and removing them leaves the others as they are. -/
  initial_first : log.entries = log.entries.filter (·.isInitial) ++ log.removeInitial.entries
  /-- What is left was logged since the log was sealed. -/
  recent : log.removeInitial.entries = (run directory (sinceSealed ops)).entries
  reports : log.removeInitial.entries.map Entry.report =
    (sinceSealed ops).filterMap Operation.logged?
  downgraded : List.Forall₂ Entry.Downgraded log.entries log.downgradeInitial.entries
  /-- Associating a file changes the last entry only. -/
  associated : ∀ filename, (log.associate directory filename).entries.dropLast =
    log.entries.dropLast ∧ (log.associate directory filename).entries.getLast? =
      log.entries.getLast?.map fun e =>
        { e with filename := some (Path.absolute directory filename) }
  associatedExtent : ∀ filename extent,
    (log.associateExtent directory filename extent).entries.dropLast = log.entries.dropLast ∧
      (log.associateExtent directory filename extent).entries.getLast? =
      log.entries.getLast?.map fun e =>
        { e with filename := some (Path.absolute directory filename), position := some extent }

/-- After any operations on a new log the initial entries come first, and the policies for them
touch no others. -/
theorem run_keepsApart (directory : String) (ops : List Operation) :
    KeepsApart directory ops (run directory ops) where
  initial_first := by
    rw [entries_removeInitial]
    exact (endsWith_run directory ops).filter_isInitial
  recent := entries_removeInitial directory ops
  reports := by
    rw [entries_removeInitial]
    exact reports_run directory ops
  downgraded := by
    rw [downgradeInitial, List.forall₂_map_right_iff]
    exact List.forall₂_same.mpr fun e _ => Entry.downgraded_downgrade e
  associated _ := modifyLast_eq _ _
  associatedExtent _ _ := modifyLast_eq _ _

end Log

end Extraction
