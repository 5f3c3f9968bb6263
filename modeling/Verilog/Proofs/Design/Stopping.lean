import Verilog.Proofs.Design.Steps

/-!
# Runs that stop at the first error, and runs that do not

Where a run does not stop at the first error, a preprocessed text whose marks can be paired becomes
a file (`SourceFile.ofPreprocessed_of_lenient`), and every list of files has a design
(`compileDesign_of_lenient`), which is a forest (`isForest_compileDesign`).

Whether a run is to stop at the first error is asked in one place only, where diagnostics are
reported. So all the programs of a run report the same either way, and end alike but for stopping
(`Step.Reports`): a run that stops at the first error is the run that does not, cut off behind that
error (`stops_at_firstError`).
-/

namespace Verilog

open Step Session

/-! ### Runs that come to an end -/

/-- **In a run that does not stop at errors** every preprocessed text whose marks can be paired
becomes a file. -/
theorem SourceFile.ofPreprocessed_of_lenient {p : PreprocessedText} {m : MarkedText}
    (hm : MarkedText.ofText p = .ok m) {s : Session} (hs : s.config.failFast = false) :
    ∃ f s', ofPreprocessed p s = .ok f s' ∧ s'.config.failFast = false :=
  (composed_ofPreprocessed hm).succeeds alike_upToStopping UpToStopping.refl hs

theorem SourceFile.ofText_of_ofPreprocessed {path text : String} {p : PreprocessedText}
    {s s₁ s' : Session} {f : SourceFile} (hp : preprocessText path text s = .ok p s₁)
    (hf : ofPreprocessed p s₁ = .ok f s') : ofText path text s = .ok f s' :=
  (Step.bind_of_ok hp).trans hf

/-- **In a run that does not stop at errors** every list of files has a design. -/
theorem compileDesign_of_lenient (files : List SourceFile) {s : Session}
    (hs : s.config.failFast = false) : ∃ r s', compileDesign files s = .ok r s' := by
  let start : Compilation := { session := s, limit := Compilation.defaultLimit }
  have hstart : (sessionOf start).config.failFast = false := hs
  obtain ⟨design, c, hrun, -⟩ := (Compiling.composed_addFiles files {}).succeeds
    alike_upToStopping UpToStopping.refl hstart
  exact ⟨(design, c.ir), c.session, by rw [compileDesign, hrun]⟩

/-- **A design is a forest**: of whatever files that have been read, in whatever order, the objects
of their design refer to one another by numbers that are there, and only to their children. -/
theorem isForest_compileDesign (files : List SourceFile) (hfiles : ∀ f ∈ files, f.IsRead)
    (s s' : Session) (design : Design) (ir : Ir) (h : compileDesign files s = .ok (design, ir) s') :
    design.IsForest ir := by
  rw [compileDesign] at h
  split at h
  · rename_i design' c hrun
    obtain ⟨⟨rfl, rfl⟩, rfl⟩ : (design' = design ∧ c.ir = ir) ∧ c.session = s' := by
      simpa using h
    have hempty : ({} : Ir).Backed ({} : Design).definitions.values := .empty
    refine Ir.Backed.isForest (Compiling.from_addFiles (fun f hf => ?_) hempty _ _ _ rfl hrun)
    obtain ⟨text, s₀, s₁, hread⟩ := hfiles f hf
    exact SourceFile.declares_ofPreprocessed text s₀ f s₁ hread
  · cases h

/-- A module with an assignment, a gate and a construct. -/
def gatedModule : String :=
  "module m; assign x = a + b; and g(y, a); if (P) begin assign z = a; end endmodule\n"

/-- Can a preprocessed text be read back, in a session that does not stop at errors? -/
def readable (p : PreprocessedText) (s : Session) : Bool :=
  (MarkedText.ofText p).toBool && !s.config.failFast

/-- Such a text is a file, of which a design can be made. -/
theorem exists_of_readable {path text : String} {s : Session}
    (h : (preprocessText path text).endsIn readable s = true) : ∃ f s₁ design ir s',
    SourceFile.ofText path text s = .ok f s₁ ∧ f.IsRead ∧
      compileDesign [f] s₁ = .ok (design, ir) s' := by
  obtain ⟨p, s₀, hp, hread⟩ := Step.exists_of_endsIn h
  rw [readable, Bool.and_eq_true, Bool.not_eq_true'] at hread
  cases hm : MarkedText.ofText p with
  | error fault => simp [hm, Except.toBool] at hread
  | ok m =>
    obtain ⟨f, s₁, hf, hl⟩ := SourceFile.ofPreprocessed_of_lenient hm hread.2
    obtain ⟨⟨design, ir⟩, s', hd⟩ := compileDesign_of_lenient [f] hl
    exact ⟨f, s₁, design, ir, s', SourceFile.ofText_of_ofPreprocessed hp hf, ⟨p, s₀, s₁, hf⟩, hd⟩

theorem isForest_compileDesign_gatedModule : ∃ f s design ir s',
    SourceFile.ofText "m.sv" gatedModule bareSession = .ok f s ∧
      compileDesign [f] s = .ok (design, ir) s' ∧ design.IsForest ir := by
  have h : (preprocessText "m.sv" gatedModule).endsIn readable bareSession = true := by
    decide +kernel
  obtain ⟨f, s, design, ir, s', hf, hread, hd⟩ := exists_of_readable h
  exact ⟨f, s, design, ir, s', hf, hd,
    isForest_compileDesign [f] (List.forall_mem_singleton.mpr hread) s s' design ir hd⟩

/-! ### The first error -/

/-- Is a diagnostic an error or worse? -/
def Diagnostic.isError (d : Diagnostic) : Bool := d.severity.isError

/-- The first error among some diagnostics. -/
def firstError? (ds : List Diagnostic) : Option Diagnostic := ds.find? (·.isError)

/-- Some diagnostics up to the first error, and with it. -/
def untilError (ds : List Diagnostic) : List Diagnostic :=
  ds.takeWhile (!·.isError) ++ (firstError? ds).toList

section

variable {s : Session} {ds es : List Diagnostic}

theorem firstError?_append (h : ∀ d ∈ es, d.isError = false) :
    firstError? (es ++ ds) = firstError? ds := by
  have hnone : es.find? (·.isError) = none := by simpa using h
  rw [firstError?, List.find?_append, hnone, Option.none_or, firstError?]

theorem untilError_append (h : ∀ d ∈ es, d.isError = false) :
    untilError (es ++ ds) = es ++ untilError ds := by
  rw [untilError, firstError?_append h, List.takeWhile_append_of_pos (by simpa using h), untilError,
    List.append_assoc]

/-- **What a run reports that stops at the first error.** -/
theorem reportAll_of_stopping (hs : s.config.failFast = true) : reportAll ds s =
    match firstError? ds with
    | none => .ok () (s.addAll (untilError ds))
    | some d => .error (.firstError d) (s.addAll (untilError ds)) := by
  induction ds generalizing s with
  | nil => rfl
  | cons d ds ih =>
    rw [reportAll_cons, hs, Bool.true_and]
    cases hd : d.isError with
    | true =>
      have hfirst : firstError? (d :: ds) = some d := by simp [firstError?, hd]
      have huntil : untilError (d :: ds) = [d] := by simp [untilError, hfirst, hd]
      have hsev : d.severity.isError = true := hd
      rw [hfirst, huntil, if_pos hsev]
      rfl
    | false =>
      have hone : ∀ e ∈ [d], e.isError = false := by simpa using hd
      have hfirst : firstError? (d :: ds) = firstError? ds := firstError?_append hone
      have huntil : untilError (d :: ds) = d :: untilError ds := untilError_append hone
      have hsev : ¬d.severity.isError = true := by simpa [Diagnostic.isError] using hd
      rw [hfirst, huntil, if_neg hsev]
      exact ih hs

end

/-! ### Runs -/

/-- Reads a file and compiles it. -/
def compileFile (path : String) : Reporting (SourceFile × Design × Ir) := do
  let f ← SourceFile.ofFile path
  let design ← compileDesign [f]
  return (f, design)

theorem reports_compileFile (path : String) :
    Reports UpToStopping (fun _ => True) (compileFile path) :=
  (reports_ofFile path).bind alike_upToStopping fun f =>
    (reports_compileDesign alike_upToStopping [f]).bind alike_upToStopping fun _ => .pure _

/-- The session of a configuration does not hang on whether its runs are to stop. -/
theorem start_stopping (config : Config) (files : FileStore) (failFast : Bool) :
    Session.start { config with failFast } files =
      (Session.start config files).stopping failFast := by
  obtain ⟨_, _, _, _, _, _, logFile, _⟩ := config
  cases logFile with
  | none => rfl
  | some path =>
    unfold Session.start
    dsimp only
    split <;> rfl

/-- That a log file cannot be opened is no error. -/
theorem no_error_start (config : Config) (files : FileStore) :
    ∀ d ∈ (Session.start config files).diagnostics.toList, d.isError = false := by
  unfold Session.start
  dsimp only
  split
  · simp
  · split
    · simp
    · rename_i path _ _
      intro d hd
      have hone : d =
          { message := s!"cannot open log file {path}", kind := .logFileNotOpened } := by
        simpa [Session.add] using hd
      rw [hone]
      rfl

/-- **A run that stops at the first error is a beginning of the run that does not.** What it reports
is what the other one reports up to its first error. If there is one, the run fails with it; if
there is none, both runs give the same, or fail alike. -/
theorem stops_at_firstError (config : Config) (files : FileStore) (path : String) :
    let run (failFast : Bool) : Ending Session (SourceFile × Design × Ir) :=
      compileFile path (Session.start { config with failFast } files)
    let reported := (run false).state.diagnostics.toList
    (run true).state.diagnostics.toList = untilError reported ∧
      (run true).toExcept = match firstError? reported with
        | some d => .error (.firstError d)
        | none => (run false).toExcept := by
  intro run reported
  let s := Session.start config files
  have hs := no_error_start config files
  have hrun (failFast : Bool) : run failFast = compileFile path (s.stopping failFast) :=
    congrArg (compileFile path) (start_stopping config files failFast)
  -- both runs report the same up to where one stops, since they look at nothing else
  obtain ⟨ds, r, -, hr⟩ := reports_compileFile path s
  have hlenient := hr (s.stopping false) ⟨false, rfl⟩
  have hstopping := hr (s.stopping true) ⟨true, rfl⟩
  rw [EndsAs, reportAll_of_lenient rfl] at hlenient
  rw [EndsAs, reportAll_of_stopping rfl] at hstopping
  have hstate (t : Session) : (Ending.inSession t r).state = t := by
    cases r <;> rfl
  have hexcept (t : Session) : (Ending.inSession t r).toExcept = r.toExcept := by
    cases r <;> rfl
  have hdiags (failFast : Bool) (es : List Diagnostic) :
      ((s.stopping failFast).addAll es).diagnostics.toList = s.diagnostics.toList ++ es := by
    simp [diagnostics_addAll, stopping]
  have hlenient : run false = _ := (hrun false).trans hlenient
  have hreported : reported = s.diagnostics.toList ++ ds := by
    change (run false).state.diagnostics.toList = _
    rw [hlenient, hstate, hdiags]
  rw [hreported, untilError_append hs, firstError?_append hs, hlenient, hexcept]
  cases hfirst : firstError? ds with
  | none =>
    rw [hfirst] at hstopping
    have hstopping : run true = _ := (hrun true).trans hstopping
    rw [hstopping, hstate, hexcept, hdiags]
    exact ⟨rfl, rfl⟩
  | some d =>
    rw [hfirst] at hstopping
    obtain ⟨st, hst, hend⟩ := hstopping
    have hst : run true = _ := (hrun true).trans hst
    rw [hst]
    refine ⟨?_, rfl⟩
    change (sessionOf st).diagnostics.toList = _
    rw [hend, hdiags]

end Verilog
