import Verilog.CommandLine.Arguments
import Verilog.Config.File
import Verilog.Design.Compile
import Verilog.Ir.Json
import Verilog.Text.Basic

/-!
# Runs of the program

A run reads the files that the command line names, compiles them into a design and writes what is
asked for. It takes the files there are and gives the files there are afterwards; it succeeds if no
error was reported. What was written before a run stops stays written.
-/

namespace Verilog

/-- What stops a run. -/
inductive RunFault where
  | reading (path : String) (cause : Failure)
  | writing (path : String)
  | failed (cause : Failure)
  deriving DecidableEq, Repr

/-- A fault in words. -/
def RunFault.message : RunFault → String
  | reading path _ => s!"while parsing {path}"
  | writing path => s!"cannot write {path}"
  | failed cause => cause.message

/-- A program over a session that a fault stops. -/
abbrev Running := EStateM RunFault Session

namespace Running

/-- Runs a step and gives its failure as a fault. -/
def ofReporting {α : Type} (fault : Failure → RunFault) (x : Reporting α) : Running α := fun s =>
  match x s with
  | .ok a s => .ok a s
  | .error e s => .error (fault e) s

/-- Writes a file. -/
def writeFile (path text : String) : Running Unit := do
  match (← get).files.write path text with
  | some files => modify fun s => { s with files }
  | none => throw (.writing path)

/-- Reads the files of a command line. If asked to, writes beside each the text that is left of it
when it is preprocessed. -/
def readFiles (writeText : Bool) : List String → Running (List SourceFile)
  | [] => return []
  | path :: paths => do
    let f ← ofReporting (.reading path) (SourceFile.ofFile path)
    if writeText then
      writeFile (path ++ ".pp") (String.ofList (withoutMarks f.text.text.toList))
    let more ← readFiles writeText paths
    return f :: more

/-- Compiles the files of a command line. If asked to, writes the objects they become. -/
def compileFiles (dumpIr : Option String) (files : List SourceFile) : Running Unit := do
  let (_, ir) ← ofReporting .failed (compileDesign files)
  match dumpIr with
  | some path => writeFile path ir.json
  | none => return

/-- Writes what the log still holds. -/
def flushLog : Running Unit :=
  modify fun s =>
    let (_, log, files) := s.log.flush s.files
    { s with log, files }

/-- Follows a command line. -/
def follow (o : Options) (a : Arguments) : Running Bool := do
  let files ← readFiles (o.has .writeText) a.files
  if !o.has .syntaxOnly then compileFiles (o.value? .dumpIr) files
  flushLog
  return !(← get).diagnostics.hasErrors

end Running

/-- How a run ended. -/
inductive RunResult where
  | finished (success : Bool)
  /-- Nothing was read, since the arguments could not be followed. -/
  | badArguments (fault : ArgumentFault)
  | stopped (fault : RunFault)
  deriving DecidableEq, Repr

/-- A run that is over. -/
structure Run where
  result : RunResult
  diagnostics : Diagnostics := #[]
  /-- The files there are afterwards. -/
  files : FileStore

namespace Run

/-- The configuration of a command line. -/
def config (o : Options) (a : Arguments) (files : FileStore) : Except Failure Config := do
  let c ← match o.value? .config with
    | some path => Config.ofFile path files
    | none => .ok {}
  return c.withCommandLine o a

/-- Runs the program. -/
def ofOptions (o : Options) (files : FileStore) : Run :=
  match Arguments.ofWords o.arguments with
  | .error fault => { result := .badArguments fault, files }
  | .ok a =>
    match config o a files with
    | .error e => { result := .stopped (.failed e), files }
    | .ok c =>
      match Running.follow o a (Session.start c files) with
      | .ok success s =>
        { result := .finished success, diagnostics := s.diagnostics, files := s.files }
      | .error fault s =>
        { result := .stopped fault, diagnostics := s.diagnostics, files := s.files }

end Run

/-! ### Files that a run may need

A run works on the files it is given. Which files these should be is found out step by step: from a
file that is read, every name it mentions between quotes or angle brackets may be that of a file it
includes, and a file that was not found in a run may be supplied for the next.
-/

/-- The texts within a line between two marks. -/
def textsBetween (opening closing : Char) (s : List Char) : List String :=
  ((splitAtChar opening s).drop 1).filterMap fun piece =>
    match cutAtChar closing piece with
    | (name, some _) => if name.contains '\n' then none else some (String.ofList name)
    | (_, none) => none

/-- The texts within a line between two quotes, or between a quote and the next. -/
def textsInQuotes (s : List Char) : List String :=
  (((splitAtChar '"' s).drop 1).filter fun piece => !piece.contains '\n').map String.ofList

/-- The names that a text mentions. -/
def mentionedNames (text : String) : List String :=
  (textsInQuotes text.toList ++ textsBetween '<' '>' text.toList).eraseDups

namespace Config

/-- The paths of the files that a file may include. -/
def includable (c : Config) (path text : String) : List String :=
  let names := mentionedNames text ++ c.defines.values.flatMap mentionedNames
  names.flatMap (includeCandidates c.includeDirs (some path))

/-- The paths of the files that were looked for and not found. -/
def missing (c : Config) (ds : Diagnostics) : List String :=
  ds.toList.flatMap fun d =>
    match d.kind, d.place with
    | .includeNotFound name, some place => includeCandidates c.includeDirs (some place.file) name
    | _, _ => []

end Config

namespace Options

/-- The paths that a run writes to, the log aside. -/
def outputs (o : Options) (a : Arguments) : List String :=
  (if o.has .writeText then a.files.map (· ++ ".pp") else []) ++ (o.value? .dumpIr).toList

end Options

end Verilog
