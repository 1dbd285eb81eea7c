import Extraction.Report.Log

/-!
# What is in a log

A log only grows at its end.  The policy for errors of the program marks what was logged so far, and
lets an error stand only where errors are to be reported.
-/

namespace Extraction

namespace Entry

def ofDiagnostic (directory filename : String) (d : Diagnostic) : Entry :=
  { severity := .error, message := d.message, filename := some (Path.absolute directory filename),
    position := some d.extent, kind := some d.kind }

def remark (directory filename : String) (extent : Extent) (message : String) : Entry :=
  { severity := .info, message, filename := some (Path.absolute directory filename),
    position := some extent }

end Entry

namespace Log

variable (log : Log)

theorem modifyLast_append (f : Entry → Entry) (es : List Entry) (e : Entry) :
    modifyLast f (es ++ [e]) = es ++ [f e] := by
  induction es with
  | nil => rfl
  | cons x es ih =>
    have hne : es ++ [e] ≠ [] := by simp
    rw [List.cons_append, modifyLast, ih, List.cons_append]
    exact hne

@[simp] theorem entries_add (severity : Severity) (message : String) :
    (log.add severity message).entries = log.entries ++ [{ severity := severity, message }] :=
  rfl

theorem entries_diagnostic (directory filename : String) (d : Diagnostic) :
    (log.diagnostic directory filename d).entries =
      log.entries ++ [.ofDiagnostic directory filename d] := by
  simp only [diagnostic, associateExtent, entries_add, modifyLast_append]
  rfl

theorem entries_remark (directory filename : String) (extent : Extent) (message : String) :
    ((log.add .info message).associateExtent directory filename extent).entries =
      log.entries ++ [.remark directory filename extent message] := by
  simp only [associateExtent, entries_add, modifyLast_append]
  rfl

theorem entries_foldl {α : Type} {step : Log → α → Log} {new : α → List Entry}
    (h : ∀ log x, (step log x).entries = log.entries ++ new x) (xs : List α) :
    (xs.foldl step log).entries = log.entries ++ xs.flatMap new := by
  induction xs generalizing log with
  | nil => simp
  | cons x xs ih => rw [List.foldl_cons, ih, h, List.flatMap_cons, List.append_assoc]

theorem containsErrors_add (severity : Severity) (message : String) :
    (log.add severity message).containsErrors = (log.containsErrors || severity == .error) := by
  simp [containsErrors]

theorem containsErrors_addErrors (messages : List String) :
    (messages.foldl (fun log e => log.add .error e) log).containsErrors =
      (log.containsErrors || !messages.isEmpty) := by
  induction messages generalizing log with
  | nil => simp
  | cons message messages ih => simp [ih, containsErrors_add]

theorem containsErrors_iff :
    log.containsErrors = true ↔ ∃ e ∈ log.entries, e.severity = .error := by
  simp [containsErrors]

end Log

namespace ErrorPolicy

variable (policy : ErrorPolicy) (log : Log)

theorem isInitial_apply : ∀ e ∈ (policy.apply log).entries, e.isInitial = true := by
  cases policy with
  | report => simp [apply, Log.markInitial]
  | downgrade =>
    simp only [apply, Log.markInitial, Log.downgradeInitial, List.map_map, List.mem_map]
    rintro e ⟨x, -, rfl⟩
    simp only [Function.comp, Entry.downgrade]
    split <;> rfl
  | ignore => simp [apply, Log.markInitial, Log.removeInitial]

theorem containsErrors_apply :
    (policy.apply log).containsErrors = true ↔ policy = .report ∧ log.containsErrors = true := by
  cases policy with
  | report => simp [apply, Log.markInitial, Log.containsErrors]
  | downgrade =>
    simp only [Log.containsErrors_iff, apply, Log.markInitial, Log.downgradeInitial, List.map_map,
      List.mem_map, reduceCtorEq, false_and, iff_false]
    rintro ⟨e, ⟨x, -, rfl⟩, herror⟩
    cases hx : x.severity <;> simp [Entry.downgrade, Entry.isInitialError, hx] at herror
  | ignore => simp [apply, Log.markInitial, Log.removeInitial, Log.containsErrors]

end ErrorPolicy

end Extraction
