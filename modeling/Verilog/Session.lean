import Verilog.Config.Basic
import Verilog.Diagnostic.Basic

/-!
# Sessions

A session is what the files of one run share: the configuration, the diagnostics reported so far,
the log they are also written to, and the files there are. Steps that report are programs over a
session that a failure ends; what was reported before a failure stays.
-/

namespace Verilog

/-- What is wrong with the marks of a preprocessed text. -/
inductive MarkFault where
  | endWithoutBegin (line column : Nat)
  | malformedEnd (line column : Nat)
  | neverClosed (line column : Nat)
  | leftOpen
  deriving DecidableEq, Repr

/-- What is wrong with the marks, in words. -/
def MarkFault.message : MarkFault → String
  | endWithoutBegin line column => s!"end marker without begin at {line}:{column}"
  | malformedEnd line column => s!"malformed end marker at {line}:{column}"
  | neverClosed line column => s!"begin marker at {line}:{column} is never closed"
  | leftOpen => "begin marker left open after the walk"

/-- What ends the work on a file. -/
inductive Failure where
  | unbalancedMarks (file : String) (fault : MarkFault)
  | negativePauseCount (file : String)
  | unreadable (path : String)
  | badConfig (path : String)
  /-- The first error, where a run is to stop at it. -/
  | firstError (d : Diagnostic)
  deriving DecidableEq, Repr

/-- A failure in words. -/
def Failure.message : Failure → String
  | unbalancedMarks file fault =>
    s!"unbalanced preprocessor markers in {file}: " ++ fault.message
  | negativePauseCount file => s!"emission pause count went negative in {file}"
  | unreadable path => s!"failed to read {path}"
  | badConfig path => s!"invalid configuration {path}"
  | firstError d => "stopping after first error: " ++ d.text

/-- What the files of one run share. -/
structure Session where
  config : Config
  diagnostics : Diagnostics := #[]
  log : MessageLog
  files : FileStore

namespace Session

/-- Adds a diagnostic, and logs it. -/
def add (s : Session) (d : Diagnostic) : Session :=
  let (_, log, files) := s.log.log d.text s.files
  { s with diagnostics := s.diagnostics.push d, log, files }

/-- The session of a configuration. A log file that cannot be opened is reported. -/
def start (config : Config) (files : FileStore) : Session :=
  let s : Session := { config, log := { capacity := config.logCapacity }, files }
  match config.logFile with
  | none => s
  | some path =>
    let (result, log, files) := s.log.bind path s.files
    let s := { s with log, files }
    if result.succeeded then s
    else s.add { message := s!"cannot open log file {path}", kind := .logFileNotOpened }

end Session

/-- A program over a state that a failure may end. -/
abbrev Step (σ : Type) := EStateM Failure σ

/-- A program over a session. -/
abbrev Reporting := Step Session

/-- Reports a diagnostic. An error is a failure where a run is to stop at the first. -/
def report (d : Diagnostic) : Reporting Unit := do
  modify fun s => s.add d
  if (← get).config.failFast && d.severity.isError then throw (.firstError d)

/-- A program over a part of the state. -/
def Step.onPart {σ τ α : Type} (part : σ → τ) (put : τ → σ → σ) (x : Step τ α) : Step σ α :=
  fun s => match x (part s) with
  | .ok a t => .ok a (put t s)
  | .error e t => .error e (put t s)

end Verilog
