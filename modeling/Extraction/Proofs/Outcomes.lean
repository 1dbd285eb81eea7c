import Mathlib.Data.List.Forall2
import Extraction.Check.Extractability
import Extraction.Proofs.Failures
import Extraction.Proofs.GoTrees
import Extraction.Proofs.Logging

/-!
# What a check accounts for

A check has a finding for every selection, or for none.  Whatever keeps it from analyzing the
selections ends in one error behind the opening entries of the log; otherwise the errors there are
the diagnostics of the findings.  So the log tells whether every selection can be extracted, up to
the errors of the program that were to be reported.
-/

namespace Extraction

theorem analyzeAll_eq_ok {t : SyntaxTree} {boundaries : Boundaries} {sels : List Extent}
    {verdicts : List Verdict} (h : analyzeAll false t boundaries sels = .ok verdicts) :
    List.Forall₂ (fun sel v => analyze t sel boundaries = .ok v) sels verdicts := by
  simp only [analyzeAll, Bool.false_and, Bool.false_eq_true, if_false] at h
  induction sels generalizing verdicts with
  | nil =>
    cases h
    exact .nil
  | cons sel rest ih =>
    simp only [List.mapM_cons, bind_eq_ok, mapError_eq_ok] at h
    obtain ⟨v, hv, vs, hvs, ⟨⟩⟩ := h
    exact .cons hv (ih hvs)

theorem analyzeAll_wellPlaced {code : GoCode.File} (h : code.WellPlaced) (boundaries : Boundaries)
    (sels : List Extent) :
    ∃ verdicts, analyzeAll false code.tree boundaries sels = .ok verdicts := by
  simp only [analyzeAll, Bool.false_and, Bool.false_eq_true, if_false]
  induction sels with
  | nil => exact ⟨[], rfl⟩
  | cons sel rest ih =>
    obtain ⟨vs, hvs⟩ := ih
    obtain ⟨-, ds, hds⟩ := h.exists_analyze sel boundaries
    exact ⟨_ ::
      vs, by simp only [List.mapM_cons, bind_eq_ok, mapError_eq_ok]; exact ⟨_, hds, vs, hvs, rfl⟩⟩

namespace Extractability

variable {host : Host} {request : Request} {program : Program} {scope : String}

/-- The selection denotes the extent in the file of that name. -/
def Denotes (disk : Disk) (program : Program) (name : String) (sel : Selection)
    (extent : Extent) : Prop :=
  ∃ source, sel.convert program.sources disk = .ok (source, extent) ∧ source.name = name

theorem extentsIn_eq_ok {disk : Disk} {file : SourceFile} {sels : List Selection}
    {extents : List Extent} (h : extentsIn disk program scope file sels = .ok extents) :
    List.Forall₂ (Denotes disk program file.name) sels extents := by
  induction sels generalizing extents with
  | nil =>
    cases h
    exact .nil
  | cons sel rest ih =>
    simp only [extentsIn, bind_eq_ok, locate, mapError_eq_ok] at h
    obtain ⟨⟨source, extent⟩, hconvert, h⟩ := h
    split at h
    · cases h
    next hname =>
      obtain ⟨es, hes, ⟨⟩⟩ := bind_eq_ok.mp h
      exact .cons ⟨source, hconvert, Classical.not_not.mp hname⟩ (ih hes)

theorem target_eq_ok {disk : Disk} {first : Selection} {rest : List Selection} {file : SourceFile}
    {extents : List Extent} (h : target disk program scope first rest = .ok (file, extents)) :
    List.Forall₂ (Denotes disk program file.name) (first :: rest) extents := by
  simp only [target, bind_eq_ok, locate, mapError_eq_ok] at h
  obtain ⟨⟨source, extent⟩, hconvert, es, hes, ⟨⟩⟩ := h
  exact .cons ⟨_, hconvert, rfl⟩ (extentsIn_eq_ok hes)

theorem forall_mem_zip_zip {α β γ : Type} {R : α → β → Prop} {S : β → γ → Prop} {as : List α}
    {bs : List β} {cs : List γ} (h : List.Forall₂ R as bs) (h' : List.Forall₂ S bs cs) :
    ∀ x ∈ as.zip (bs.zip cs), R x.1 x.2.1 ∧ S x.2.1 x.2.2 := by
  induction h generalizing cs with
  | nil => simp
  | cons hab _ ih =>
    cases h' with
    | cons hbc htail => exact List.forall_mem_cons.mpr ⟨⟨hab, hbc⟩, ih htail⟩

/-- There is one finding for each selection in order, about its extent in the file and with the
verdict on that extent. -/
structure Accounts (host : Host) (request : Request) (program : Program) (file : LoadedFile)
    (code : GoCode.File) (bytes : List UInt8) (findings : List Finding) : Prop where
  loaded : file ∈ program.files
  checked : file.code = some code
  read : contents host request file.source.name = .ok bytes
  selections : findings.map (·.selection) = request.selections.map some
  extents : ∀ f ∈ findings, f.filename = file.source.name ∧ ∃ sel, f.selection = some sel ∧
    Denotes host.disk program file.source.name sel f.extent
  verdicts : ∀ f ∈ findings, analyze code.tree f.extent (GoCode.boundariesOf bytes) = .ok f.verdict

theorem analyzeFile_eq_ok {source : SourceFile} {extents : List Extent}
    {pairs : List (LoadedFile × Finding)} (hactive : host.canceled = false)
    (h : analyzeFile host request program source extents = .ok pairs) :
    ∃ file ∈ program.files, file.source.name = source.name ∧ ∃ code, file.code = some code ∧
      ∃ bytes, contents host request source.name = .ok bytes ∧
      ∃ verdicts, analyzeAll false code.tree (GoCode.boundariesOf bytes) extents = .ok verdicts ∧
        pairs.map (·.2) =
          (request.selections.zip (extents.zip verdicts)).map fun x =>
            finding file x.1 x.2.1 x.2.2 := by
  unfold analyzeFile at h
  split at h
  next file hfile =>
    split at h
    next code hcode =>
      simp only [bind_eq_ok, mapError_eq_ok, hactive] at h
      obtain ⟨bytes, hbytes, verdicts, hverdicts, ⟨⟩⟩ := h
      refine ⟨file, List.mem_of_find?_eq_some hfile, by simpa using List.find?_some hfile, code,
        hcode, bytes, hbytes, verdicts, hverdicts, ?_⟩
      rw [List.map_map]
      rfl
    next => cases h
  next => cases h

section Interrupted

variable {name : String} {cause : BatchError}

theorem contents_ne_interrupted {filename : String} :
    contents host request filename ≠ .error (.interrupted name cause) := by
  intro h
  unfold contents at h
  split at h
  · cases h
  · obtain ⟨e, -, ⟨⟩⟩ := mapError_eq_error.mp h

theorem locate_ne_interrupted {disk : Disk} {sel : Selection} :
    locate disk program scope sel ≠ .error (.interrupted name cause) := by
  intro h
  obtain ⟨e, -, ⟨⟩⟩ := mapError_eq_error.mp h

theorem extentsIn_ne_interrupted {disk : Disk} {file : SourceFile} {sels : List Selection} :
    extentsIn disk program scope file sels ≠ .error (.interrupted name cause) := by
  induction sels with
  | nil => simp [extentsIn]
  | cons sel rest ih =>
    intro h
    simp only [extentsIn, bind_eq_error] at h
    rcases h with h | ⟨found, -, h⟩
    · exact locate_ne_interrupted h
    · split at h
      · cases h
      · rcases bind_eq_error.mp h with h | ⟨es, -, ⟨⟩⟩
        exact ih h

theorem target_ne_interrupted {disk : Disk} {first : Selection} {rest : List Selection} :
    target disk program scope first rest ≠ .error (.interrupted name cause) := by
  intro h
  simp only [target, bind_eq_error] at h
  rcases h with h | ⟨found, -, h | ⟨es, -, ⟨⟩⟩⟩
  · exact locate_ne_interrupted h
  · exact extentsIn_ne_interrupted h

/-- An analysis that was not canceled is interrupted only by code that is not well placed. -/
theorem analyzeFile_interrupted {source : SourceFile} {extents : List Extent}
    (hactive : host.canceled = false)
    (h : analyzeFile host request program source extents = .error (.interrupted name cause)) :
    ∃ file ∈ program.files, ∃ code, file.code = some code ∧ ¬ code.WellPlaced := by
  unfold analyzeFile at h
  split at h
  next file hfile =>
    split at h
    next code hcode =>
      refine ⟨file, List.mem_of_find?_eq_some hfile, code, hcode, fun hplaced => ?_⟩
      simp only [bind_eq_error, mapError_eq_error, hactive] at h
      rcases h with hcontents | ⟨bytes, -, ⟨e, hanalyze, -⟩ | ⟨verdicts, -, ⟨⟩⟩⟩
      · exact contents_ne_interrupted hcontents
      · obtain ⟨verdicts, hverdicts⟩ :=
          analyzeAll_wellPlaced hplaced (GoCode.boundariesOf bytes) extents
        rw [hverdicts] at hanalyze
        cases hanalyze
    next => cases h
  next => cases h

theorem investigate_interrupted {loaded : Except String Program} {first : Selection}
    {rest : List Selection} (hactive : host.canceled = false)
    (h : investigate host request scope loaded first rest = .error (.interrupted name cause)) :
    ∃ program, loaded = .ok program ∧ ∃ file ∈ program.files, ∃ code, file.code = some code ∧
      ¬ code.WellPlaced := by
  simp only [investigate, bind_eq_error, mapError_eq_error, mapError_eq_ok] at h
  rcases h with ⟨e, -, ⟨⟩⟩ | ⟨program, hprogram, h | ⟨found, -, h⟩⟩
  · exact absurd h target_ne_interrupted
  · exact ⟨program, hprogram, analyzeFile_interrupted hactive h⟩

end Interrupted

theorem investigate_eq_ok {loaded : Except String Program} {first : Selection}
    {rest : List Selection} {pairs : List (LoadedFile × Finding)} (hactive : host.canceled = false)
    (hselections : request.selections = first :: rest)
    (h : investigate host request scope loaded first rest = .ok pairs) :
    ∃ program, loaded = .ok program ∧ ∃ file code bytes,
      Accounts host request program file code bytes (pairs.map (·.2)) := by
  simp only [investigate, bind_eq_ok, mapError_eq_ok] at h
  obtain ⟨program, hprogram, ⟨source, extents⟩, htarget, hfile⟩ := h
  have hextents := target_eq_ok htarget
  obtain ⟨file, hmem, hname, code, hcode, bytes, hbytes, verdicts, hverdicts, hfindings⟩ :=
    analyzeFile_eq_ok hactive hfile
  have hverdict := analyzeAll_eq_ok hverdicts
  rw [← hname] at hextents hbytes
  rw [← hselections] at hextents
  have hsize : request.selections.length ≤ (extents.zip verdicts).length := by
    rw [List.length_zip, ← hverdict.length_eq, ← hextents.length_eq, Nat.min_self]
  have hpairs := forall_mem_zip_zip hextents hverdict
  refine ⟨program, hprogram, file, code, bytes, ?_⟩
  rw [hfindings]
  refine
    { loaded := hmem, checked := hcode, read := hbytes,
      selections := ?_, extents := ?_, verdicts := ?_ }
  · calc ((request.selections.zip (extents.zip verdicts)).map fun x =>
          finding file x.1 x.2.1 x.2.2).map (·.selection)
        = ((request.selections.zip (extents.zip verdicts)).map Prod.fst).map some := by
          rw [List.map_map, List.map_map]; rfl
      _ = request.selections.map some := by rw [List.map_fst_zip hsize]
  · intro f hf
    obtain ⟨x, hx, rfl⟩ := List.mem_map.mp hf
    exact ⟨rfl, x.1, rfl, (hpairs x hx).1⟩
  · intro f hf
    obtain ⟨x, hx, rfl⟩ := List.mem_map.mp hf
    exact (hpairs x hx).2

theorem programErrors_eq_nil {errors : List String} : programErrors errors = [] ↔ errors = [] := by
  constructor
  · intro h
    have htake := (List.append_eq_nil_iff.mp h).1
    simpa [errorLimit] using htake
  · rintro rfl
    rfl

/-- The opening entries hold an error only where the errors of the program are to be reported. -/
theorem containsErrors_openingLog (message : String) (policy : ErrorPolicy)
    (loaded : Except String Program) :
    (openingLog message policy loaded).containsErrors = true ↔
      policy = .report ∧ ∃ program, loaded = .ok program ∧ program.errors ≠ [] := by
  cases loaded with
  | error e =>
    simp only [openingLog, ErrorPolicy.containsErrors_apply, Log.containsErrors_addErrors,
      Log.containsErrors_add]
    simp [Log.containsErrors]
  | ok program =>
    simp only [openingLog, ErrorPolicy.containsErrors_apply, Log.containsErrors_addErrors,
      Log.containsErrors_add]
    simp [Log.containsErrors, programErrors_eq_nil]

theorem Obstacle.entries_report (o : Obstacle) (directory : String) (log : Log) :
    ∃ e : Entry, (o.report directory log).entries = log.entries ++ [e] ∧ e.severity = .error ∧
      e.message = o.message ∧ e.isInitial = false := by
  cases o with
  | outsideScope sel scope cause =>
    simp only [Obstacle.report, Log.associate, Log.entries_add, Log.modifyLast_append]
    exact ⟨_, rfl, rfl, rfl, rfl⟩
  | _ => exact ⟨_, rfl, rfl, rfl, rfl⟩

def entriesOf (directory : String) (verbose : Bool) (file : LoadedFile) (f : Finding) :
    List Entry :=
  f.verdict.diagnostics.map (.ofDiagnostic directory f.filename) ++
    if verbose ∧ f.verdict.Legal then
      (descriptions file f).map (.remark directory f.filename f.extent)
    else []

theorem entries_report (directory : String) (verbose : Bool) (log : Log) (file : LoadedFile)
    (f : Finding) :
    (report directory verbose log file f).entries =
      log.entries ++ entriesOf directory verbose file f := by
  have hdiagnostics := log.entries_foldl
    (fun log d => log.entries_diagnostic directory f.filename d) f.verdict.diagnostics
  rw [← List.map_eq_flatMap] at hdiagnostics
  unfold report entriesOf
  simp only
  split
  · rw [Log.entries_foldl _ (fun log text => log.entries_remark directory f.filename f.extent text),
      hdiagnostics, ← List.map_eq_flatMap, List.append_assoc]
  · rw [hdiagnostics, List.append_nil]

theorem errors_entriesOf (directory : String) (verbose : Bool) (file : LoadedFile) (f : Finding) :
    (entriesOf directory verbose file f).filter (fun e => e.severity = .error) =
      f.verdict.diagnostics.map (.ofDiagnostic directory f.filename) := by
  have hdiagnostics : (f.verdict.diagnostics.map (Entry.ofDiagnostic directory f.filename)).filter
      (fun e => e.severity = .error) =
      f.verdict.diagnostics.map (.ofDiagnostic directory f.filename) := by
    rw [List.filter_eq_self]
    intro e he
    obtain ⟨d, -, rfl⟩ := List.mem_map.mp he
    rfl
  have hremarks : ((descriptions file f).map (Entry.remark directory f.filename f.extent)).filter
      (fun e => e.severity = .error) = [] := by
    rw [List.filter_eq_nil_iff]
    intro e he
    obtain ⟨text, -, rfl⟩ := List.mem_map.mp he
    simp [Entry.remark]
  rw [entriesOf, List.filter_append, hdiagnostics]
  split
  · rw [hremarks, List.append_nil]
  · rw [List.filter_nil, List.append_nil]

theorem errors_findings (directory : String) (verbose : Bool)
    (pairs : List (LoadedFile × Finding)) :
    (pairs.flatMap fun x => entriesOf directory verbose x.1 x.2).filter
      (fun e => e.severity = .error) = (pairs.map (·.2)).flatMap fun f => f.verdict.diagnostics.map
      (.ofDiagnostic directory f.filename) := by
  rw [List.flatMap_map, List.filter_flatMap]
  simp only [errors_entriesOf]

theorem isInitial_entriesOf (directory : String) (verbose : Bool) (file : LoadedFile)
    (f : Finding) :
    ∀ e ∈ entriesOf directory verbose file f, e.isInitial = false := by
  intro e he
  rcases List.mem_append.mp he with he | he
  · obtain ⟨d, -, rfl⟩ := List.mem_map.mp he
    rfl
  · split at he
    · obtain ⟨text, -, rfl⟩ := List.mem_map.mp he
      rfl
    · cases he

/-- What the loader gives for the scope that the outcome names. -/
def loadedFor (host : Host) (request : Request) : Except String Program :=
  host.load { request with scope := (run host request).scope }

theorem run_cases (host : Host) {request : Request} {first : Selection} {rest : List Selection}
    (hselections : request.selections = first :: rest) :
    ∃ scope, (∃ obstacle, investigate host request scope (loadedFor host request) first rest =
        .error obstacle ∧ (run host request).findings = [] ∧
        (run host request).log = obstacle.report host.disk.current
          (openingLog (scopeMessage request first) request.policy (loadedFor host request))) ∨
      ∃ pairs, investigate host request scope (loadedFor host request) first rest = .ok pairs ∧
        (run host request).findings = pairs.map (·.2) ∧
        (run host request).log = pairs.foldl
          (fun log x => report host.disk.current request.verbose log x.1 x.2)
          (openingLog (scopeMessage request first) request.policy (loadedFor host request)) := by
  have hloaded : loadedFor host request =
      host.load { request with
        scope := some (request.scope.getD (defaultScope host.disk.current first.filename)) } := by
    have hscope : (run host request).scope =
        some (request.scope.getD (defaultScope host.disk.current first.filename)) := by
      rw [run, hselections]
      simp only
      split <;> rfl
    rw [loadedFor, hscope]
  refine ⟨" ".intercalate (request.scope.getD (defaultScope host.disk.current first.filename)), ?_⟩
  rw [hloaded, run, hselections]
  simp only
  split
  next obstacle hinvestigate => exact Or.inl ⟨obstacle, hinvestigate, rfl, rfl⟩
  next pairs hinvestigate => exact Or.inr ⟨pairs, hinvestigate, rfl, rfl⟩

/-- One error was logged that says why nothing was analyzed.  The analysis itself fails only in code
that is not well placed. -/
def Halted (host : Host) (request : Request) (later : List Entry) : Prop :=
  ∃ (obstacle : Obstacle) (e : Entry), later = [e] ∧ e.severity = .error ∧
    e.message = obstacle.message ∧
    ∀ name cause, obstacle = .interrupted name cause → ∃ program, loadedFor host request =
      .ok program ∧ ∃ file ∈ program.files, ∃ code, file.code = some code ∧ ¬ code.WellPlaced

theorem Accounts.extractable_iff {file : LoadedFile} {code : GoCode.File} {bytes : List UInt8}
    {o : Outcome} (h : Accounts host request program file code bytes o.findings) :
    o.Extractable request ↔ ∀ f ∈ o.findings, f.verdict.diagnostics = [] := by
  have hlength : o.findings.length = request.selections.length := by
    simpa using congrArg List.length h.selections
  exact ⟨fun ho => ho.2, fun ho => ⟨hlength, ho⟩⟩

theorem containsErrors_append {log : Log} {opening later : List Entry}
    (h : log.entries = opening ++ later) :
    log.containsErrors = true ↔
      (∃ e ∈ opening, e.severity = .error) ∨ later.filter (fun e => e.severity = .error) ≠ [] := by
  rw [Log.containsErrors_iff, h]
  simp [or_and_right, exists_or]

/-- A check with selections logs the opening entries first.  Then it either logs one error and has
no findings, or it has a finding for each selection and logs the diagnostics of each.  The log
contains an error exactly if not every selection can be extracted or an error of the program is
reported. -/
theorem run_accounts (host : Host) (request : Request) (hselections : request.selections ≠ [])
    (hactive : host.canceled = false) :
    (∃ opening later, (run host request).log.entries = opening ++ later ∧
      (∀ e ∈ opening, e.isInitial = true) ∧ (∀ e ∈ later, e.isInitial = false) ∧
      ((run host request).findings = [] ∧ Halted host request later ∨
        ∃ program file code bytes, loadedFor host request = .ok program ∧
          Accounts host request program file code bytes (run host request).findings ∧
          later.filter (fun e => e.severity = .error) = (run host request).findings.flatMap fun f =>
            f.verdict.diagnostics.map (.ofDiagnostic host.disk.current f.filename))) ∧
    ((run host request).log.containsErrors = true ↔
      ¬ (run host request).Extractable request ∨
        request.policy = .report ∧ ∃ program, loadedFor host request = .ok program ∧
        program.errors ≠ []) := by
  obtain ⟨first, rest, hfirst⟩ := List.exists_cons_of_ne_nil hselections
  have hinitial := request.policy.isInitial_apply
  have hopening := containsErrors_openingLog (scopeMessage request first) request.policy
    (loadedFor host request)
  obtain ⟨scope, ⟨obstacle, hobstacle, hfindings, hlog⟩ | ⟨pairs, hpairs, hfindings, hlog⟩⟩ :=
    run_cases host hfirst
  · obtain ⟨e, hentries, herror, hmessage, hlate⟩ := obstacle.entries_report host.disk.current
      (openingLog (scopeMessage request first) request.policy (loadedFor host request))
    rw [← hlog] at hentries
    refine ⟨⟨_, [e], hentries, hinitial _, by simpa using hlate,
      Or.inl ⟨hfindings, obstacle, e, rfl, herror, hmessage, ?_⟩⟩, ?_⟩
    · rintro name cause rfl
      exact investigate_interrupted hactive hobstacle
    · have hextractable : ¬ (run host request).Extractable request := fun h => by
        simpa [hfindings, hfirst] using h.1
      have herrors : (run host request).log.containsErrors = true := by
        rw [Log.containsErrors_iff, hentries]
        exact ⟨e, by simp, herror⟩
      exact iff_of_true herrors (Or.inl hextractable)
  · obtain ⟨program, hprogram, file, code, bytes, haccounts⟩ :=
      investigate_eq_ok hactive hfirst hpairs
    have hentries := Log.entries_foldl
      (openingLog (scopeMessage request first) request.policy (loadedFor host request))
      (fun log x => entries_report host.disk.current request.verbose log x.1 x.2) pairs
    rw [← hlog] at hentries
    rw [← hfindings] at haccounts
    have hdiagnostics := errors_findings host.disk.current request.verbose pairs
    rw [← hfindings] at hdiagnostics
    refine ⟨⟨_, _, hentries, hinitial _, fun e he => ?_,
      Or.inr ⟨program, file, code, bytes, hprogram, haccounts, hdiagnostics⟩⟩, ?_⟩
    · obtain ⟨x, -, he⟩ := List.mem_flatMap.mp he
      exact isInitial_entriesOf _ _ _ _ e he
    · rw [containsErrors_append hentries, ← Log.containsErrors_iff, hopening, hdiagnostics,
        haccounts.extractable_iff, or_comm]
      simp [List.flatMap_eq_nil_iff]

/-- A host whose program is one file with an error in it. -/
def storingHost : Host where
  disk := { current := "/w" }
  load _ := .ok
    { errors := ["declared and not used: h"]
      files :=
        [{ source := { name := "/w/a.go", size := 110, lines := [0] },
           code := some GoCode.storingFile }] }

/-- Two selections, a statement and the index in it, where errors of the program count as
warnings. -/
def storingRequest : Request where
  selections := [⟨"/w/a.go", .bytes 69 8⟩, ⟨"/w/a.go", .bytes 71 1⟩]
  overlay := [("/w/a.go", [])]
  policy := .downgrade

theorem storing_accounts : storingRequest.selections ≠ [] ∧ storingHost.canceled = false ∧
    (run storingHost storingRequest).findings.map (·.verdict.selected) = [[7], [10, 11]] ∧
    (run storingHost storingRequest).log.entries.map (·.severity) = [.info, .warning, .error] ∧
    ((run storingHost storingRequest).log.containsErrors = true ↔
      ¬ (run storingHost storingRequest).Extractable storingRequest ∨
        storingRequest.policy = .report ∧
        ∃ program, loadedFor storingHost storingRequest = .ok program ∧ program.errors ≠ []) := by
  have hselections : storingRequest.selections ≠ [] := by simp [storingRequest]
  exact ⟨hselections, rfl, by decide +kernel, by decide +kernel,
    (run_accounts storingHost storingRequest hselections rfl).2⟩

end Extractability

end Extraction
