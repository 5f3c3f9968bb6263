import Mathlib.Data.List.Forall2
import Verilog.Proofs.Files.Places

/-!
# What becomes of logged messages

Whatever calls a log gets, and whatever its files do in between, the messages that were written,
with those that wait behind them, are the messages that were logged, in the order in which they were
logged, but for as many as were given up.

A run is observed by a medium that keeps what was opened and which lines were added
(`ObservedMedium`); the observation makes no difference to the log (`LogTurn.run_observed`). Within
one call an operation on the medium that fails is the last one, so a medium that may be replaced
before each call (`LogTurn.meanwhile`) can fail in every pattern there is.
-/

namespace Verilog

variable {σ : Type} [LogMedium σ]

/-! ### Calls, and the world between them -/

/-- A call of a log. -/
inductive LogCall where
  | log (message : String)
  | bind (path : String)
  | flush

/-- The message that a call brings. -/
def LogCall.arrival : LogCall → List String
  | log message => [message]
  | bind _ | flush => []

/-- The path that a call binds the log to. -/
def LogCall.binding? : LogCall → Option String
  | bind path => some path
  | log _ | flush => none

/-- What a call does. -/
def LogCall.run (call : LogCall) (log : MessageLog) (medium : σ) :
    LogResult × MessageLog × σ :=
  match call with
  | .log message => log.log message medium
  | .bind path => log.bind path medium
  | .flush => log.flush medium

/-- A call, and what becomes of the medium before it. -/
structure LogTurn (σ : Type) where
  meanwhile : σ → σ
  call : LogCall

namespace LogTurn

/-- What a turn does. -/
def take (turn : LogTurn σ) (log : MessageLog) (medium : σ) : LogResult × MessageLog × σ :=
  turn.call.run log (turn.meanwhile medium)

/-- What turns do one after the other. -/
def run (turns : List (LogTurn σ)) (log : MessageLog) (medium : σ) : MessageLog × σ :=
  turns.foldl (fun s turn => (turn.take s.1 s.2).2) (log, medium)

/-- The messages that turns bring. -/
def arrivals (turns : List (LogTurn σ)) : List String := turns.flatMap (·.call.arrival)

/-- The path that turns leave a new log bound to: that of the last call that binds it. -/
def bound (turns : List (LogTurn σ)) : Option String :=
  (turns.filterMap (·.call.binding?)).getLast?

end LogTurn

/-! ### Observation -/

/-- A medium, and what a log has done with it so far. -/
structure ObservedMedium (σ : Type) where
  medium : σ
  /-- The paths that were opened, each with the file it led to. -/
  opened : List (String × FileLocation) := []
  /-- The lines that were added, each with the file it was added to. -/
  lines : List (FileLocation × String) := []

namespace ObservedMedium

instance : LogMedium (ObservedMedium σ) where
  openAppend o path := (LogMedium.openAppend o.medium path).map fun r =>
    (r.1, { o with medium := r.2, opened := o.opened ++ [(path, r.1)] })
  append o file line := (LogMedium.append o.medium file line).map fun medium =>
    { o with medium, lines := o.lines ++ [(file, line)] }

theorem openAppend_eq (o : ObservedMedium σ) (path : String) :
    LogMedium.openAppend o path = (LogMedium.openAppend o.medium path).map fun r =>
      (r.1, { o with medium := r.2, opened := o.opened ++ [(path, r.1)] }) := rfl

theorem append_eq (o : ObservedMedium σ) (file : FileLocation) (line : String) :
    LogMedium.append o file line = (LogMedium.append o.medium file line).map fun medium =>
      { o with medium, lines := o.lines ++ [(file, line)] } := rfl

/-- What an operation gives without the observation. -/
def forget {α β : Type} (r : α × β × ObservedMedium σ) : α × β × σ := (r.1, r.2.1, r.2.2.medium)

end ObservedMedium

open ObservedMedium

namespace MessageLog

variable (log : MessageLog) (o : ObservedMedium σ)

theorem openFile_observed : log.openFile o.medium = (log.openFile o).map forget := by
  rw [openFile, openFile]
  split
  · rfl
  · rfl
  · rw [openAppend_eq, Option.map_map, Option.map_map]
    rfl

theorem writeAll_observed (file : FileLocation) (queue : List String) :
    writeAll file queue o.medium =
      ((writeAll file queue o).1, (writeAll file queue o).2.medium) := by
  induction queue generalizing o with
  | nil => rfl
  | cons message more ih =>
    rw [writeAll, writeAll, append_eq]
    cases h : LogMedium.append o.medium file (lineOf message) with
    | none => rfl
    | some medium => exact ih { o with medium, lines := o.lines ++ [(file, lineOf message)] }

theorem flushBound_observed : log.flushBound o.medium = forget (log.flushBound o) := by
  rw [flushBound, flushBound]
  split
  · rfl
  rw [openFile_observed]
  cases h : log.openFile o with
  | none => rfl
  | some r =>
    obtain ⟨file, log, o⟩ := r
    simp only [Option.map_some, forget, writeAll_observed o]

theorem flush_observed : log.flush o.medium = forget (log.flush o) := by
  rw [flush, flush]
  split
  · rfl
  · exact flushBound_observed log o

theorem bind_observed (path : String) :
    log.bind path o.medium = forget (log.bind path o) := by
  simp only [bind, openFile_observed _ o]
  cases h : openFile { log with path := some path, handle := none } o with
  | none => rfl
  | some r =>
    obtain ⟨file, log, o⟩ := r
    exact flushBound_observed log o

theorem log_observed (message : String) :
    log.log message o.medium = forget (log.log message o) := by
  rw [MessageLog.log, MessageLog.log]
  split
  · rfl
  rw [openFile_observed]
  cases h : log.openFile o with
  | none => rfl
  | some r =>
    obtain ⟨file, log, o⟩ := r
    simp only [Option.map_some, forget, flushBound_observed log o]
    rcases log.flushBound o with ⟨result, log, o⟩
    cases result with
    | cannotWrite => rfl
    | enqueued => rfl
    | written =>
      simp only [append_eq]
      cases LogMedium.append o.medium file (lineOf message) <;> rfl

end MessageLog

theorem LogCall.run_observed (call : LogCall) (log : MessageLog) (o : ObservedMedium σ) :
    call.run log o.medium = forget (call.run log o) := by
  cases call with
  | log message => exact MessageLog.log_observed log o message
  | bind path => exact MessageLog.bind_observed log o path
  | flush => exact MessageLog.flush_observed log o

namespace LogTurn

/-- A turn on an observed medium. -/
def observed (turn : LogTurn σ) : LogTurn (ObservedMedium σ) where
  meanwhile o := { o with medium := turn.meanwhile o.medium }
  call := turn.call

theorem take_observed (turn : LogTurn σ) (log : MessageLog) (o : ObservedMedium σ) :
    turn.take log o.medium = forget (turn.observed.take log o) :=
  turn.call.run_observed log { o with medium := turn.meanwhile o.medium }

/-- The observation makes no difference. -/
theorem run_observed (turns : List (LogTurn σ)) (log : MessageLog) (o : ObservedMedium σ) :
    run turns log o.medium =
      ((run (turns.map observed) log o).1, (run (turns.map observed) log o).2.medium) := by
  induction turns generalizing log o with
  | nil => rfl
  | cons turn turns ih =>
    simp only [run, List.map_cons, List.foldl_cons] at ih ⊢
    rw [take_observed turn log o]
    exact ih _ _

end LogTurn

/-! ### The account of a log -/

/-- Is a text the line of a message, with the line feed the message ends in or with one added? -/
def IsLineOf (line message : String) : Prop :=
  (message.toList.getLast? = some '\n' ∧ line = message) ∨
    (message.toList.getLast? ≠ some '\n' ∧ line = message ++ "\n")

theorem isLineOf_lineOf (message : String) : IsLineOf (MessageLog.lineOf message) message := by
  rw [MessageLog.lineOf]
  split
  · rename_i h
    exact .inl ⟨endsWith_newline.mp h, rfl⟩
  · rename_i h
    exact .inr ⟨fun hlast => h (endsWith_newline.mpr hlast), rfl⟩

/-- The account of what was logged: of the messages that were written, each with the file it went
to, and of those that wait. -/
structure MessageLog.Accounts (capacity : Nat) (log : MessageLog) (o : ObservedMedium σ)
    (logged : List String) (written : List (FileLocation × String)) : Prop where
  /-- The lines that were added are those of the messages that were written. -/
  lines : List.Forall₂ (fun line message => line.1 = message.1 ∧ IsLineOf line.2 message.2)
    o.lines written
  /-- The messages keep their order. -/
  order : (written.map (·.2) ++ log.queue).Sublist logged
  /-- As many are missing as were given up. -/
  count : (written.map (·.2) ++ log.queue).length + log.dropped = logged.length
  bounded : log.queue.length ≤ capacity
  limit : log.capacity = capacity
  /-- The open file is what the bound path last led to. -/
  handle : ∀ file, log.handle = some file →
    ∃ path, log.path = some path ∧ o.opened.getLast? = some (path, file)

namespace MessageLog

variable {log log' : MessageLog} {o o' : ObservedMedium σ} {logged : List String}
  {written : List (FileLocation × String)} {file : FileLocation} {message : String} {capacity : Nat}

omit [LogMedium σ] in
theorem accounts_new (capacity : Nat) (medium : σ) :
    Accounts capacity { capacity } ({ medium } : ObservedMedium σ) [] [] where
  lines := .nil
  order := .slnil
  count := rfl
  bounded := Nat.zero_le _
  limit := rfl
  handle _ h := nomatch h

omit [LogMedium σ] in
/-- A message that waits takes its place behind the others. -/
theorem Accounts.enqueue (h : log.Accounts capacity o logged written) (message : String) :
    (log.enqueue message).Accounts capacity o (logged ++ [message]) written := by
  have hcount := h.count
  have hlimit := h.limit
  have hbounded := h.bounded
  rw [MessageLog.enqueue]
  split
  · rename_i hzero
    -- Nothing may wait, so nothing does.
    have hnil : log.queue = [] := List.eq_nil_of_length_eq_zero (by omega)
    refine ⟨h.lines, h.order.trans (List.sublist_append_left ..), ?_, hbounded, hlimit, h.handle⟩
    simp only [hnil, List.append_nil, List.length_append, List.length_singleton] at hcount ⊢
    omega
  · refine ⟨h.lines, ?_, ?_, ?_, hlimit, h.handle⟩
    · rw [← List.append_assoc]
      exact (((List.drop_sublist ..).append_left _).trans h.order).append_right _
    · simp only [List.length_append, List.length_drop, List.length_singleton] at hcount ⊢
      omega
    · simp only [List.length_append, List.length_drop, List.length_singleton]
      omega

/-- What is opened is the file of the bound path; nothing else changes. -/
theorem Accounts.openFile (h : log.Accounts capacity o logged written)
    (hopen : log.openFile o = some (file, log', o')) :
    log'.Accounts capacity o' logged written ∧ log'.handle = some file ∧ log'.queue = log.queue ∧
      log'.path = log.path := by
  rw [MessageLog.openFile] at hopen
  split at hopen
  · rename_i handle hhandle
    cases hopen
    exact ⟨h, hhandle, rfl, rfl⟩
  · cases hopen
  · rename_i path hhandle hpath
    rw [openAppend_eq, Option.map_map, Option.map_eq_some_iff] at hopen
    obtain ⟨r, -, hr⟩ := hopen
    cases hr
    refine ⟨⟨h.lines, h.order, h.count, h.bounded, h.limit, ?_⟩, rfl, rfl, rfl⟩
    intro file hfile
    cases hfile
    exact ⟨path, hpath, List.getLast?_concat⟩

/-- A line that is added is that of its message. -/
theorem lines_append
    (h : List.Forall₂ (fun line message => line.1 = message.1 ∧ IsLineOf line.2 message.2)
      o.lines written)
    (happend : LogMedium.append o file (lineOf message) = some o') :
    List.Forall₂ (fun line message => line.1 = message.1 ∧ IsLineOf line.2 message.2)
      o'.lines (written ++ [(file, message)]) ∧ o'.opened = o.opened := by
  rw [append_eq, Option.map_eq_some_iff] at happend
  obtain ⟨medium, -, rfl⟩ := happend
  exact ⟨List.rel_append h (.cons ⟨rfl, isLineOf_lineOf message⟩ .nil), rfl⟩

/-- The line of the first message that waits goes behind all others. -/
theorem Accounts.append {queue : List String} (h : log.Accounts capacity o logged written)
    (hqueue : log.queue = message :: queue)
    (happend : LogMedium.append o file (lineOf message) = some o') :
    Accounts capacity { log with queue } o' logged (written ++ [(file, message)]) := by
  obtain ⟨hlines, hopened⟩ := lines_append h.lines happend
  have hsame : (written ++ [(file, message)]).map (·.2) ++ queue =
      written.map (·.2) ++ log.queue := by
    rw [hqueue, List.map_append, List.append_assoc]
    rfl
  have hbounded := h.bounded
  rw [hqueue, List.length_cons] at hbounded
  refine ⟨hlines, hsame ▸ h.order, hsame ▸ h.count, Nat.le_of_succ_le hbounded, h.limit, ?_⟩
  rw [hopened]
  exact h.handle

/-- So does the line of a message that need not wait. -/
theorem Accounts.append_arrival (h : log.Accounts capacity o logged written)
    (hqueue : log.queue = []) (happend : LogMedium.append o file (lineOf message) = some o') :
    log.Accounts capacity o' (logged ++ [message]) (written ++ [(file, message)]) := by
  obtain ⟨hlines, hopened⟩ := lines_append h.lines happend
  have horder := h.order
  have hcount := h.count
  rw [hqueue, List.append_nil] at horder hcount
  refine ⟨hlines, ?_, ?_, h.bounded, h.limit, ?_⟩
  · rw [hqueue, List.append_nil, List.map_append]
    exact horder.append_right _
  · simp only [hqueue, List.append_nil, List.map_append, List.map_singleton, List.length_append,
      List.length_singleton] at hcount ⊢
    omega
  · rw [hopened]
    exact h.handle

/-- Writing takes messages from the queue, in order. -/
theorem Accounts.writeAll (file : FileLocation) (queue : List String) {log : MessageLog}
    {o : ObservedMedium σ} {written : List (FileLocation × String)}
    (h : log.Accounts capacity o logged written) (hqueue : log.queue = queue) :
    ∃ done, done ++ (writeAll file queue o).1 = queue ∧
      Accounts capacity { log with queue := (MessageLog.writeAll file queue o).1 }
        (MessageLog.writeAll file queue o).2 logged (written ++ done.map (file, ·)) := by
  induction queue generalizing log o written with
  | nil =>
    refine ⟨[], rfl, ?_⟩
    rw [List.map_nil, List.append_nil, MessageLog.writeAll, ← hqueue]
    exact h
  | cons message queue ih =>
    rw [MessageLog.writeAll]
    split
    · rename_i medium happend
      obtain ⟨done, hdone, haccounts⟩ := ih (h.append hqueue happend) rfl
      refine ⟨message :: done, congrArg (message :: ·) hdone, ?_⟩
      rw [List.append_assoc] at haccounts
      exact haccounts
    · refine ⟨[], rfl, ?_⟩
      rw [List.map_nil, List.append_nil, ← hqueue]
      exact h

/-- Flushing writes messages to one file, the open one if there is one; all of them where it
succeeds. -/
theorem Accounts.flushBound (h : log.Accounts capacity o logged written) :
    ∃ file done, (log.flushBound o).2.1.Accounts capacity (log.flushBound o).2.2 logged
        (written ++ done.map (file, ·)) ∧
      (log.flushBound o).2.1.path = log.path ∧
      (log.flushBound o).1 ≠ .enqueued ∧
      (∀ handle, log.handle = some handle →
        file = handle ∧ (log.flushBound o).2.1.handle = some handle) ∧
      ((log.flushBound o).1 = .written →
        done = log.queue ∧ (log.flushBound o).2.1.queue = []) := by
  rw [MessageLog.flushBound]
  split
  · rename_i hempty
    have hnil : log.queue = [] := List.isEmpty_iff.mp hempty
    refine ⟨log.handle.getD [], [], ?_, rfl, by simp, ?_, fun _ => ⟨hnil.symm, hnil⟩⟩
    · rw [List.map_nil, List.append_nil]
      exact h
    · rintro handle hhandle
      rw [hhandle]
      exact ⟨rfl, rfl⟩
  · split
    · rename_i hopen
      refine ⟨log.handle.getD [], [], ?_, rfl, by simp, ?_, by simp⟩
      · rw [List.map_nil, List.append_nil]
        exact h
      · rintro handle hhandle
        rw [hhandle]
        exact ⟨rfl, rfl⟩
    · rename_i file log₁ o₁ hopen
      obtain ⟨h₁, hhandle₁, hqueue₁, hpath₁⟩ := h.openFile hopen
      obtain ⟨done, hdone, haccounts⟩ := h₁.writeAll file _ rfl
      refine ⟨file, done, haccounts, hpath₁, ?_, ?_, ?_⟩
      · dsimp only
        split <;> simp
      · rintro handle hhandle
        -- A file that is open is the one that is written to.
        rw [MessageLog.openFile, hhandle] at hopen
        cases hopen
        exact ⟨rfl, hhandle₁⟩
      · dsimp only
        split
        · rename_i hempty
          rw [List.isEmpty_iff.mp hempty, List.append_nil, hqueue₁] at hdone
          exact fun _ => ⟨hdone, List.isEmpty_iff.mp hempty⟩
        · simp

/-! ### The calls -/

theorem Accounts.flush (h : log.Accounts capacity o logged written) :
    ∃ more, (log.flush o).2.1.Accounts capacity (log.flush o).2.2 logged (written ++ more) ∧
      (log.flush o).2.1.path = log.path := by
  rw [MessageLog.flush]
  split
  · refine ⟨[], ?_, rfl⟩
    rw [List.append_nil]
    exact h
  · obtain ⟨file, done, haccounts, hpath, -⟩ := h.flushBound
    exact ⟨_, haccounts, hpath⟩

omit [LogMedium σ] in
/-- A log that is bound anew has no open file. -/
theorem Accounts.rebind (h : log.Accounts capacity o logged written) (path : String) :
    Accounts capacity { log with path := some path, handle := none } o logged written :=
  ⟨h.lines, h.order, h.count, h.bounded, h.limit, nofun⟩

theorem Accounts.bind (h : log.Accounts capacity o logged written) (path : String) :
    ∃ more, (log.bind path o).2.1.Accounts capacity (log.bind path o).2.2 logged
      (written ++ more) ∧ (log.bind path o).2.1.path = some path := by
  rw [MessageLog.bind]
  split
  · refine ⟨[], ?_, rfl⟩
    rw [List.append_nil]
    exact h.rebind path
  · rename_i file log₁ o₁ hopen
    obtain ⟨h₁, -, -, hpath₁⟩ := (h.rebind path).openFile hopen
    obtain ⟨file, done, haccounts, hpath, -⟩ := h₁.flushBound
    exact ⟨_, haccounts, hpath.trans hpath₁⟩

/-- What logging a message comes to. It is written to the open file, behind all that waited, or it
waits; it waits without complaint only where no file is bound. -/
theorem Accounts.logs (h : log.Accounts capacity o logged written) (message : String) :
    ∃ more, (log.log message o).2.1.Accounts capacity (log.log message o).2.2 (logged ++ [message])
        (written ++ more) ∧
      (log.log message o).2.1.path = log.path ∧
      ((log.log message o).1 = .enqueued → log.path = none) ∧
      ((log.log message o).1 = .written → (log.log message o).2.1.queue = [] ∧
        ∃ file, (log.log message o).2.1.handle = some file ∧
          more = (log.queue ++ [message]).map (file, ·)) := by
  rw [MessageLog.log]
  split
  · rename_i hpath
    refine ⟨[], ?_, ?_, fun _ => Option.isNone_iff_eq_none.mp hpath, by simp⟩
    · rw [List.append_nil]
      exact h.enqueue message
    · exact path_enqueue
  split
  · refine ⟨[], ?_, ?_, by simp, by simp⟩
    · rw [List.append_nil]
      exact h.enqueue message
    · exact path_enqueue
  rename_i file log₁ o₁ hopen
  obtain ⟨h₁, hhandle₁, hqueue₁, hpath₁⟩ := h.openFile hopen
  obtain ⟨file', done, h₂, hpath₂, hresult, hfile, hwritten⟩ := h₁.flushBound
  obtain ⟨rfl, hhandle₂⟩ := hfile file hhandle₁
  generalize log₁.flushBound o₁ = flushed at h₂ hpath₂ hresult hhandle₂ hwritten ⊢
  obtain ⟨result, log₂, o₂⟩ := flushed
  cases result with
  | cannotWrite =>
    exact ⟨_, h₂.enqueue message, path_enqueue.trans (hpath₂.trans hpath₁), by simp, by simp⟩
  | enqueued => exact absurd rfl hresult
  | written =>
    obtain ⟨hdone, hqueue₂⟩ := hwritten rfl
    dsimp only
    split
    · rename_i o₃ happend
      have h₃ := h₂.append_arrival hqueue₂ happend
      refine ⟨_, ?_, hpath₂.trans hpath₁, by simp, fun _ => ⟨hqueue₂, file', hhandle₂, rfl⟩⟩
      rw [List.map_append, ← hqueue₁, ← hdone, ← List.append_assoc]
      exact h₃
    · exact ⟨_, h₂.enqueue message, path_enqueue.trans (hpath₂.trans hpath₁), by simp, by simp⟩

end MessageLog

/-- A call goes on with the account. -/
theorem LogCall.accounts_run (call : LogCall) {log : MessageLog} {o : ObservedMedium σ}
    {logged : List String} {written : List (FileLocation × String)} {capacity : Nat}
    (h : log.Accounts capacity o logged written) :
    ∃ more, (call.run log o).2.1.Accounts capacity (call.run log o).2.2 (logged ++ call.arrival)
        (written ++ more) ∧
      (call.run log o).2.1.path = call.binding?.or log.path := by
  cases call with
  | log message =>
    obtain ⟨more, haccounts, hpath, -⟩ := h.logs message
    exact ⟨more, haccounts, hpath⟩
  | bind path =>
    rw [arrival, List.append_nil]
    exact h.bind path
  | flush =>
    rw [arrival, List.append_nil]
    exact h.flush

namespace LogTurn

omit [LogMedium σ] in
/-- What becomes of the medium between calls does not concern the account. -/
theorem accounts_meanwhile (turn : LogTurn σ) {log : MessageLog} {o : ObservedMedium σ}
    {logged : List String} {written : List (FileLocation × String)} {capacity : Nat}
    (h : log.Accounts capacity o logged written) :
    log.Accounts capacity (turn.observed.meanwhile o) logged written :=
  ⟨h.lines, h.order, h.count, h.bounded, h.limit, h.handle⟩

theorem accounts_run (turns : List (LogTurn σ)) {log : MessageLog} {o : ObservedMedium σ}
    {logged : List String} {written : List (FileLocation × String)} {capacity : Nat}
    (h : log.Accounts capacity o logged written) :
    ∃ more, (run (turns.map observed) log o).1.Accounts capacity (run (turns.map observed) log o).2
        (logged ++ arrivals turns) (written ++ more) ∧
      (run (turns.map observed) log o).1.path = (bound turns).or log.path := by
  induction turns generalizing log o logged written with
  | nil =>
    refine ⟨[], ?_, rfl⟩
    rw [arrivals, List.flatMap_nil, List.append_nil, List.append_nil]
    exact h
  | cons turn turns ih =>
    obtain ⟨first, hfirst, hpath⟩ := turn.call.accounts_run (turn.accounts_meanwhile h)
    obtain ⟨more, hmore, hpaths⟩ := ih hfirst
    refine ⟨first ++ more, ?_, hpaths.trans ?_⟩
    · rw [arrivals, List.flatMap_cons, ← List.append_assoc, ← List.append_assoc]
      exact hmore
    · -- A later binding counts for more than an earlier one.
      rw [hpath, bound, bound, List.filterMap_cons]
      cases turn.call.binding? with
      | none => rw [Option.none_or]
      | some path =>
        rw [List.getLast?_cons, Option.some_or, Option.some_or]
        cases (turns.filterMap (·.call.binding?)).getLast? <;> rfl

/-- **The account of every run of a log.** After any calls, on any media, the messages that were
written, followed by those that wait, are the logged ones in their order, without as many as were
given up, and no more wait than may. If then a message is logged, it is only said to wait where no
file is bound, and only said to be written where it and, before it, all that waited were added to
the file that the bound path was opened as. -/
theorem run_accounts (capacity : Nat) (medium : σ) (turns : List (LogTurn σ)) :
    let start : ObservedMedium σ := { medium }
    let r := run (turns.map observed) { capacity } start
    run turns { capacity } medium = (r.1, r.2.medium) ∧ r.1.path = bound turns ∧
      ∃ written, r.1.Accounts capacity r.2 (arrivals turns) written ∧
        ∀ meanwhile message,
          let turn : LogTurn σ := ⟨meanwhile, .log message⟩
          let s := turn.observed.take r.1 r.2
          turn.take r.1 r.2.medium = (s.1, s.2.1, s.2.2.medium) ∧
            s.2.1.path = r.1.path ∧
            (s.1 = .enqueued → r.1.path = none) ∧
            (s.1 = .written → s.2.1.queue = [] ∧
              ∃ path file, r.1.path = some path ∧ s.2.2.opened.getLast? = some (path, file) ∧
                s.2.1.Accounts capacity s.2.2 (arrivals turns ++ [message])
                  (written ++ (r.1.queue ++ [message]).map (file, ·))) := by
  intro start r
  obtain ⟨written, haccounts, hbound⟩ :=
    accounts_run turns (MessageLog.accounts_new capacity medium)
  refine ⟨run_observed turns _ start, hbound.trans Option.or_none, written, haccounts, ?_⟩
  intro meanwhile message turn s
  obtain ⟨more, hlogs, hpath, henqueued, hwritten⟩ :=
    (turn.accounts_meanwhile haccounts).logs message
  refine ⟨turn.take_observed r.1 r.2, hpath, henqueued, ?_⟩
  intro hs
  obtain ⟨hqueue, file, hhandle, rfl⟩ := hwritten hs
  obtain ⟨path, hbound, hopened⟩ := hlogs.handle file hhandle
  exact ⟨hqueue, path, file, hpath.symm.trans hbound, hopened, hlogs⟩

end LogTurn

end Verilog
