import Verilog.Location.Mapper
import Verilog.Macro.Table
import Verilog.Node.Table
import Verilog.Session

/-!
# The state of preprocessing

While a text is preprocessed there grow: the text with marks that comes out, the nodes of its
directives and macro uses, the map of its lines, the macros in force, and the settings that hold
from some line on.
-/

namespace Verilog

/-- The inclusion of a file. -/
structure IncludeEdge where
  /-- The file that includes. -/
  source : Option String
  /-- The name as it is written. -/
  name : String
  /-- The file that was included, if it could be read. -/
  resolved : Option String
  line : Nat
  column : Nat
  node : NodeId
  deriving DecidableEq, Repr

/-- The settings that hold from a preprocessed line on. -/
structure DirectiveState where
  line : Nat := 0
  time : Option TimeScale := none
  /-- The type of undeclared nets; `slNoType` if there must be none. -/
  netType : NodeKind := .paNetTypeWire
  deriving DecidableEq, Repr

/-- The settings that hold on a line: the last ones stated not after it. -/
def DirectiveState.holdingAt (states : List DirectiveState) (line : Nat) : DirectiveState :=
  (states.reverse.find? fun s => s.line ≤ line).getD {}

/-- The state of preprocessing. -/
structure PreprocessState where
  session : Session
  /-- The text that came out so far. -/
  text : String := ""
  /-- The line that the next character of the text lands on. -/
  line : Nat := 1
  nodes : NodeTable
  lines : LineMap
  macros : MacroTable
  includes : Array IncludeEdge := #[]
  states : Array DirectiveState := #[]
  /-- The macros being expanded, the innermost one first. -/
  expanding : List String := []
  /-- The files being preprocessed, the innermost one first. -/
  including : List String := []

/-- A preprocessed text. -/
structure PreprocessedText where
  file : Option String
  /-- The text with marks. -/
  text : String
  nodes : NodeTable
  lines : LineMap
  includes : List IncludeEdge
  /-- The macros in force at the end. -/
  macros : MacroTable
  states : List DirectiveState

/-- The settings that hold on a preprocessed line. -/
def PreprocessedText.stateAt (p : PreprocessedText) (line : Nat) : DirectiveState :=
  DirectiveState.holdingAt p.states line

/-- A step of preprocessing. -/
abbrev Preprocessing := Step PreprocessState

namespace Preprocessing

/-- Adds to the text. -/
def emit (s : String) : Preprocessing Unit :=
  modify fun st => { st with line := st.line + newlines s.toList, text := st.text ++ s }

/-- Adds line feeds to the text. -/
def emitNewlines (n : Nat) : Preprocessing Unit := emit (String.ofList (List.replicate n '\n'))

/-- Reports a diagnostic. -/
def report (d : Diagnostic) : Preprocessing Unit :=
  Step.onPart (·.session) (fun session st => { st with session }) (Verilog.report d)

/-- Changes the macros in force. -/
def modifyMacros (f : MacroTable → MacroTable) : Preprocessing Unit :=
  modify fun st => { st with macros := f st.macros }

/-- States settings that hold from the current line on. -/
def changeSettings (f : DirectiveState → DirectiveState) : Preprocessing Unit :=
  modify fun st =>
    let settings := f (st.states.back?.getD {})
    { st with states := st.states.push { settings with line := st.line } }

/-- Starts a section of the line map. -/
def startSection (s : LineSection) : Preprocessing Unit :=
  modify fun st => { st with lines := st.lines.push s }

end Preprocessing

end Verilog
