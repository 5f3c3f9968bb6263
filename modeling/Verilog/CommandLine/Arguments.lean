import Verilog.CommandLine.Options
import Verilog.Config.Basic
import Verilog.Text.Basic

/-!
# Arguments of the command line

The words that are left when the options are taken off name the files to read, or begin with a plus
sign: `+incdir+` stands before directories and `+define+` before macros, with more plus signs
between them. Other words with a plus sign are passed over. Some switches may also stand among the
arguments, where they mean nothing.
-/

namespace Verilog

/-- What the arguments say. -/
structure Arguments where
  files : List String := []
  includeDirs : List String := []
  /-- Macros, each with its text behind an equals sign if it has one. -/
  defines : List String := []
  deriving DecidableEq, Repr

/-- Why arguments are not followed. -/
inductive ArgumentFault where
  | emptyIncludeDir
  | emptyDefine
  | unknownOption (word : String)
  | noFiles
  deriving DecidableEq, Repr

/-- A fault in words. -/
def ArgumentFault.message : ArgumentFault → String
  | emptyIncludeDir => "Empty path in +incdir+ directive"
  | emptyDefine => "Empty define in +define+ directive"
  | unknownOption word => s!"Unknown option: {word}"
  | noFiles => "No input files specified"

/-- What an argument is. -/
inductive ArgumentWord where
  | includeDirs (pieces : List String)
  | defines (pieces : List String)
  | ignored
  | option
  | file
  deriving DecidableEq, Repr

namespace ArgumentWord

/-- The text behind a word. -/
def behind? (w s : List Char) : Option (List Char) :=
  if w.isPrefixOf s then some (s.drop w.length) else none

/-- The pieces between plus signs that are not empty. -/
def pieces (s : List Char) : List String :=
  ((splitAtChar '+' s).filter fun piece => !piece.isEmpty).map String.ofList

/-- Is the word a switch that may stand among the arguments? -/
def isSwitch (w : String) : Bool :=
  ["-v", "--verbose", "-s", "--syntax-only", "--fail-fast"].contains w

/-- What an argument is. A list of directories or macros must have some text behind its sign. -/
def ofWord (w : String) : Except ArgumentFault ArgumentWord :=
  let s := w.toList
  match behind? "+incdir+".toList s, behind? "+define+".toList s with
  | some dirs, _ =>
    if dirs.isEmpty then .error .emptyIncludeDir else .ok (.includeDirs (pieces dirs))
  | none, some macros =>
    if macros.isEmpty then .error .emptyDefine else .ok (.defines (pieces macros))
  | none, none =>
    match s with
    | '+' :: _ => .ok .ignored
    | '-' :: _ => if isSwitch w then .ok .option else .error (.unknownOption w)
    | _ => .ok .file

end ArgumentWord

namespace Arguments

/-- Adds an argument. -/
def add (a : Arguments) (w : String) : Except ArgumentFault Arguments := do
  match ← ArgumentWord.ofWord w with
  | .includeDirs dirs => return { a with includeDirs := a.includeDirs ++ dirs }
  | .defines defines => return { a with defines := a.defines ++ defines }
  | .ignored | .option => return a
  | .file => return { a with files := a.files ++ [w] }

/-- Reads arguments; there must be a file among them. -/
def ofWords (ws : List String) : Except ArgumentFault Arguments := do
  let a ← ws.foldlM add {}
  if a.files.isEmpty then .error .noFiles else .ok a

end Arguments

namespace Config

/-- Defines a macro by its name and, behind an equals sign, its text. -/
def defineWord (c : Config) (w : String) : Config :=
  let (name, text) := cutAtChar '=' w.toList
  c.define (String.ofList name) (String.ofList (text.getD []))

/-- The configuration changed by a command line: directories come after those there are, and what
is given replaces what was set. -/
def withCommandLine (c : Config) (o : Options) (a : Arguments) : Config :=
  let c := a.defines.foldl defineWord { c with includeDirs := c.includeDirs ++ a.includeDirs }
  { c with
    failFast := c.failFast || o.has .failFast
    preprocessedPlaces := c.preprocessedPlaces || o.has .preprocessedPlaces
    library := (o.value? .library).getD c.library
    logFile := (o.value? .logFile).or c.logFile }

end Config

end Verilog
