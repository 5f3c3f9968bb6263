import Verilog.CommandLine.Run

/-!
# The command line program

The program loads the files that a run may need, makes the run and writes the files that changed.
It ends with 0 if no error was reported, with 1 if there were errors, and with 2 if the run stopped.
-/

namespace Verilog

namespace Program

/-- How the program is called. -/
def usage : String :=
  "Usage: verilog [OPTIONS] [+incdir+<path>]... [+define+<macro>[=<value>]]... <file>...\n\n" ++
  "Options:\n" ++
  "  -v, --verbose             Verbose output\n" ++
  "  -s, --syntax-only         Stop after parsing\n" ++
  "      --config <path>       TOML configuration file\n" ++
  "      --dump-ir <path>      Write the design as JSON to this file\n" ++
  "      --write-pp            Write each preprocessed file next to its source\n" ++
  "      --log-file <path>     Also write diagnostics to this file\n" ++
  "      --lib <name>          Library the design elements are registered under\n" ++
  "      --fail-fast           Stop at the first error\n" ++
  "      --pp-output-location  Report locations in the preprocessed text\n" ++
  "  -h, --help                Show this text\n" ++
  "  -V, --version             Show the version"

/-- Loads a file, if it can be read. -/
def load (path : String) (files : FileStore) : IO FileStore := do
  if path.isEmpty || (files.canonical? path).isSome then return files
  match ← (IO.FS.readBinFile path).toBaseIO with
  | .ok content => return files.insert path content
  | .error _ => return files

/-- Loads the directory that a path leads to, if there is one. -/
def loadDirectory (path : String) (files : FileStore) : IO FileStore := do
  match ← (IO.FS.realPath (path ++ "/.")).toBaseIO with
  | .ok _ => return files.makeDirectories path
  | .error _ => return files

/-- Loads the directories around a path that is written to. -/
def loadPlace (path : String) (files : FileStore) : IO FileStore := do
  let around := (Path.parent? path.toList).map String.ofList
  let files ← loadDirectory path files
  match around with
  | some dir => if dir.isEmpty then return files else loadDirectory dir files
  | none => return files

/-- Loads files, and all files that they may include. -/
partial def gather (c : Config) : List String → FileStore → IO FileStore
  | [], files => return files
  | path :: todo, files => do
    if (files.canonical? path).isSome then gather c todo files
    else
      let files ← load path files
      match files.text? path with
      | some text => gather c (c.includable path text ++ todo) files
      | none => gather c todo files

/-- Makes a run, and makes it again as long as files that were missing can be supplied. -/
partial def settle (o : Options) (c : Config) (files : FileStore) : IO (Run × FileStore) := do
  let r := Run.ofOptions o files
  let more ← gather c (c.missing r.diagnostics) files
  if more.entries.length = files.entries.length then return (r, files)
  else settle o c more

/-- Makes the run of a command line, and gives the files there were before it. -/
def runWith (o : Options) : IO (Run × FileStore) := do
  let files := FileStore.empty
  match Arguments.ofWords o.arguments with
  | .error _ => return (Run.ofOptions o files, files)
  | .ok a =>
    let files ← (o.value? .config).toList.foldlM (fun files path => load path files) files
    match Run.config o a files with
    | .error _ => return (Run.ofOptions o files, files)
    | .ok c =>
      let files ← gather c a.files files
      let log := c.logFile.toList
      let files ← log.foldlM (fun files path => load path files) files
      let files ← (log ++ o.outputs a).foldlM (fun files path => loadPlace path files) files
      settle o c files

/-- Writes the files that a run changed. -/
def writeChanges (r : Run) (before : FileStore) : IO Unit := do
  for (loc, content) in r.files.changedSince before do
    IO.FS.writeBinFile loc.path content

/-- Says how a run ended, and gives the exit code. -/
def conclude (r : Run) : IO UInt32 := do
  match r.result with
  | .finished success =>
    for d in r.diagnostics do
      IO.eprintln d.text
    if !r.diagnostics.isEmpty then IO.eprintln r.diagnostics.summary
    return if success then 0 else 1
  | .badArguments fault =>
    IO.eprintln ("Error: " ++ fault.message ++ "\n\n" ++ usage)
    return 1
  | .stopped fault =>
    IO.eprintln ("Error: " ++ fault.message)
    return 2

end Program

end Verilog

open Verilog in
/-- Follows the command line. -/
def main (args : List String) : IO UInt32 := do
  match Options.ofWords args with
  | .error .helpAsked =>
    IO.println Program.usage
    return 0
  | .error .versionAsked =>
    IO.println "verilog 0.1.0"
    return 0
  | .error _ =>
    IO.eprintln Program.usage
    return 2
  | .ok o =>
    let (r, before) ← Program.runWith o
    Program.writeChanges r before
    Program.conclude r
