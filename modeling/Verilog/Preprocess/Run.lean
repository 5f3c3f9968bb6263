import Verilog.Preprocess.Scan

/-!
# Preprocessing a file

A file that is included is looked for beside the file that includes it, then in the include
directories, then under its name alone. Its lines form a section of their own. A file that is
already being preprocessed is not included again, so inclusions nest no deeper than there are files.
-/

namespace Verilog

/-- The paths under which an included file is looked for. -/
def includeCandidates (includeDirs : List String) (source : Option String) (name : String) :
    List String :=
  let beside := (Path.parent? (nameText source).toList).toList
  let dirs := beside ++ includeDirs.map String.toList
  (dirs.map (Path.join · name.toList) ++ [name.toList]).map String.ofList

/-- The path under which an included file is found. -/
def resolveInclude (files : FileStore) (includeDirs : List String) (source : Option String)
    (name : String) : Option String :=
  (includeCandidates includeDirs source name).find? files.isFile

/-- Do two paths lead to the same file? Paths that lead to no file are the same if their components
are. -/
def sameFile (files : FileStore) (a b : String) : Bool :=
  match files.canonical? a, files.canonical? b with
  | some x, some y => x == y
  | _, _ => Path.components a.toList == Path.components b.toList

namespace Preprocessing

/-- A step during which one more file is being preprocessed. -/
def inside (path : String) (x : Preprocessing Unit) : Preprocessing Unit := fun st =>
  match x { st with including := path :: st.including } with
  | .ok _ after => .ok () { after with including := st.including }
  | .error e after => .error e { after with including := st.including }

end Preprocessing

/-- Includes files, with so many inclusions nested in one another. -/
def includeWithin (includeDirs : List String) : Nat → Includer
  | 0 => fun _ => pure none
  | depth + 1 => fun request => do
    let st ← get
    let files := st.session.files
    let place : FilePlace := ⟨nameText request.source, request.line, request.column⟩
    let refuse (fault : DirectiveFault) : Preprocessing (Option String) := do
      Preprocessing.report (fault.diagnostic place)
      return none
    match resolveInclude files includeDirs request.source request.name with
    | none => refuse (.includeNotFound request.name)
    | some path =>
      if st.including.any (sameFile files · path) then
        refuse (.includeCycle request.name path)
      else
        match files.text? path with
        | none => refuse (.includeNotText request.name path)
        | some text =>
          Preprocessing.startSection ⟨st.line, some path, 1⟩
          Preprocessing.inside path
            ((DirectiveText.ofText text (some path) request.node true).scan expandText
              (includeWithin includeDirs depth))
          return some path

/-- The node of a whole text: it takes all its lines, and one column more than its last line. That
column is reckoned in sixteen bits, so that it is none where they are full. -/
def topNode (text : List Char) (file : Option String) : Node :=
  let lines := textLines text
  { kind := .ppTopLevelRule, file, line := 1, column := 1, endLine := max 1 lines.length,
    endColumn := ((lines.getLast?.getD []).length + 1) % 65536 }

/-- Preprocesses a text that counts as the content of a file. -/
def preprocessText (path text : String) : Reporting PreprocessedText := do
  let session ← get
  let config := session.config
  let file := some path
  let (top, nodes) := ({ file, library := config.library } : NodeTable).add
    (topNode text.toList file)
  let start : PreprocessState :=
    { session, nodes, lines := .ofFile file, including := [path]
      macros := MacroTable.defineAll {} config.defines.entries }
  let depth := session.files.entries.length + 1
  let run := (DirectiveText.ofText text file top true).scan expandText
    (includeWithin config.includeDirs depth)
  match run start with
  | .ok _ st =>
    set st.session
    return { file, text := st.text, nodes := st.nodes, lines := st.lines,
             includes := st.includes.toList, macros := st.macros, states := st.states.toList }
  | .error e st =>
    set st.session
    throw e

/-- Preprocesses a file. -/
def preprocessFile (path : String) : Reporting PreprocessedText := do
  match (← get).files.text? path with
  | none => throw (.unreadable path)
  | some text => preprocessText path text

end Verilog
