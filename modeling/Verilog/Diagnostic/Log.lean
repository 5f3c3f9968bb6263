import Verilog.Files.Store

/-!
# The message log

Messages go to a file once one is bound and can be opened; until then they wait in a queue that
holds a limited number, the oldest making room for new ones. Whatever waits is written before
anything newer, and a message whose writing fails goes on waiting.
-/

namespace Verilog

/-- What lines can be written to: files that are opened by path, either of which may fail. -/
class LogMedium (σ : Type) where
  openAppend : σ → String → Option (FileLocation × σ)
  append : σ → FileLocation → String → Option σ

instance : LogMedium FileStore where
  openAppend := FileStore.openAppend
  append := FileStore.append

/-- How an operation on a log ended. -/
inductive LogResult where
  | cannotWrite | written | enqueued
  deriving DecidableEq, Repr

namespace LogResult

/-- The name a result is shown under. -/
def name : LogResult → String
  | cannotWrite => "FailedToOpenFileForWrite"
  | written => "Ok"
  | enqueued => "Enqueued"

/-- The number of a result; negative for a failure. -/
def code : LogResult → Int
  | cannotWrite => -1
  | written => 0
  | enqueued => 1

/-- Did the operation succeed? -/
def succeeded (r : LogResult) : Bool := 0 ≤ r.code

end LogResult

/-- A log: the file it is bound to, and what waits to be written. -/
structure MessageLog where
  path : Option String := none
  /-- The open file. -/
  handle : Option FileLocation := none
  queue : List String := []
  /-- How many messages may wait. -/
  capacity : Nat
  /-- How many messages were given up. -/
  dropped : Nat := 0

/-- The number of messages that may wait where nothing else is said. -/
def defaultLogCapacity : Nat := 100

namespace MessageLog

variable {σ : Type} [LogMedium σ]

/-- Lets a message wait, and gives up the oldest ones for which there is no room. -/
def enqueue (log : MessageLog) (message : String) : MessageLog :=
  if log.capacity = 0 then { log with dropped := log.dropped + 1 }
  else
    let excess := log.queue.length + 1 - log.capacity
    { log with
      queue := log.queue.drop excess ++ [message]
      dropped := log.dropped + excess }

/-- Opens the bound file if it is not open. -/
def openFile (log : MessageLog) (medium : σ) : Option (FileLocation × MessageLog × σ) :=
  match log.handle, log.path with
  | some handle, _ => some (handle, log, medium)
  | none, none => none
  | none, some path =>
    (LogMedium.openAppend medium path).map fun r =>
      (r.1, { log with handle := some r.1 }, r.2)

/-- A message as a line. -/
def lineOf (message : String) : String :=
  if message.endsWith "\n" then message else message ++ "\n"

/-- Writes messages in order; what cannot be written is left over. -/
def writeAll (handle : FileLocation) : List String → σ → List String × σ
  | [], medium => ([], medium)
  | message :: more, medium =>
    match LogMedium.append medium handle (lineOf message) with
    | some medium => writeAll handle more medium
    | none => (message :: more, medium)

/-- Writes what waits to the bound file. -/
def flushBound (log : MessageLog) (medium : σ) : LogResult × MessageLog × σ :=
  if log.queue.isEmpty then (.written, log, medium)
  else
    match log.openFile medium with
    | none => (.cannotWrite, log, medium)
    | some (handle, log, medium) =>
      let (queue, medium) := writeAll handle log.queue medium
      (if queue.isEmpty then .written else .cannotWrite, { log with queue }, medium)

/-- Writes what waits, if a file is bound. -/
def flush (log : MessageLog) (medium : σ) : LogResult × MessageLog × σ :=
  if log.path.isNone then
    (if log.queue.isEmpty then .written else .enqueued, log, medium)
  else log.flushBound medium

/-- Binds the log to a file and writes what waits. -/
def bind (log : MessageLog) (path : String) (medium : σ) : LogResult × MessageLog × σ :=
  let log := { log with path := some path, handle := none }
  match log.openFile medium with
  | none => (.cannotWrite, log, medium)
  | some (_, log, medium) => log.flushBound medium

/-- Logs a message. -/
def log (log : MessageLog) (message : String) (medium : σ) : LogResult × MessageLog × σ :=
  if log.path.isNone then (.enqueued, log.enqueue message, medium)
  else
    match log.openFile medium with
    | none => (.cannotWrite, log.enqueue message, medium)
    | some (handle, log, medium) =>
      match log.flushBound medium with
      | (.written, log, medium) =>
        match LogMedium.append medium handle (lineOf message) with
        | some medium => (.written, log, medium)
        | none => (.cannotWrite, log.enqueue message, medium)
      | (result, log, medium) => (result, log.enqueue message, medium)

end MessageLog

end Verilog
