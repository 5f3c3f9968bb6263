/-!
# Diagnostics

A diagnostic says what is wrong with a text: its kind, which fixes a code and how severe it is, a
message, perhaps a place, and suggestions.
-/

namespace Verilog

/-- How severe a diagnostic is. -/
inductive Severity where
  | note | warning | error | fatal
  deriving DecidableEq, Repr

namespace Severity

/-- The name a severity is shown under. -/
def name : Severity → String
  | note => "Note"
  | warning => "Warning"
  | error => "Error"
  | fatal => "Fatal"

/-- The tag a severity is printed with. -/
def tag : Severity → String
  | note => "NTE"
  | warning => "WRN"
  | error => "ERR"
  | fatal => "FAT"

/-- Is it an error or worse? -/
def isError : Severity → Bool
  | note | warning => false
  | error | fatal => true

end Severity

/-- What a diagnostic is about. Some kinds name the macro, file or definition concerned. -/
inductive DiagnosticKind where
  | lexical
  | syntactic
  | elseWithoutIf
  | elsifWithoutIf
  | endifWithoutIf
  | unterminatedConditional
  | unknownMacro (name : String)
  | undefUnknownMacro (name : String)
  | macroRedefinition (name : String)
  | macroArity (name : String)
  | recursiveMacro (name : String)
  | reservedMacroName (name : String)
  | includeNotFound (name : String)
  | includeCycle (name : String)
  | illegalLineLevel
  | malformedDirective
  | unknownGenerateConstruct
  | missingCondition
  | malformedIncrement
  | loopDepth
  | duplicateDefinition (name : String)
  | logFileNotOpened
  deriving DecidableEq, Repr

namespace DiagnosticKind

/-- How severe diagnostics of a kind are. -/
def severity : DiagnosticKind → Severity
  | undefUnknownMacro _ => .note
  | macroRedefinition _ | unknownGenerateConstruct | malformedIncrement | duplicateDefinition _
  | logFileNotOpened => .warning
  | _ => .error

/-- The code a kind is printed with. -/
def code : DiagnosticKind → String
  | lexical => "PA0101"
  | syntactic => "PA0203"
  | elseWithoutIf => "PP0101"
  | elsifWithoutIf => "PP0102"
  | endifWithoutIf => "PP0103"
  | unterminatedConditional => "PP0104"
  | unknownMacro _ => "PP0105"
  | undefUnknownMacro _ => "PP0106"
  | macroRedefinition _ => "PP0107"
  | macroArity _ => "PP0108"
  | recursiveMacro _ => "PP0109"
  | reservedMacroName _ => "PP0110"
  | includeNotFound _ => "PP0111"
  | includeCycle _ => "PP0112"
  | illegalLineLevel => "PP0113"
  | malformedDirective => "PP0114"
  | unknownGenerateConstruct => "CP0301"
  | missingCondition => "CP0302"
  | malformedIncrement => "CP0303"
  | loopDepth => "CP0304"
  | duplicateDefinition _ => "CP0305"
  | logFileNotOpened => "CM0001"

end DiagnosticKind

/-- A place in a file, as it is shown. -/
structure FilePlace where
  file : String
  line : Nat
  column : Nat
  deriving DecidableEq, Repr

/-- Something that is wrong with a text. -/
structure Diagnostic where
  message : String
  kind : DiagnosticKind
  place : Option FilePlace := none
  suggestions : List String := []
  deriving DecidableEq, Repr

namespace Diagnostic

/-- How severe a diagnostic is. -/
def severity (d : Diagnostic) : Severity := d.kind.severity

/-- A diagnostic in words. -/
def text (d : Diagnostic) : String :=
  let tag := d.severity.tag
  let code := d.kind.code
  let place := match d.place with
    | some p => s!"{p.file}:{p.line}:{p.column}: "
    | none => ""
  let hints := ", ".intercalate d.suggestions
  let suggestions := if d.suggestions.isEmpty then "" else s!" (Suggestions: {hints})"
  s!"[{tag}:{code}] " ++ place ++ d.message ++ suggestions

end Diagnostic

/-- Diagnostics in the order in which they were reported. -/
abbrev Diagnostics := Array Diagnostic

namespace Diagnostics

/-- The number of diagnostics of a severity. -/
def count (ds : Diagnostics) (s : Severity) : Nat := ds.countP (·.severity == s)

/-- Is there an error? -/
def hasErrors (ds : Diagnostics) : Bool := ds.any (·.severity.isError)

/-- Is there a diagnostic with this code? -/
def hasCode (ds : Diagnostics) (code : String) : Bool := ds.any (·.kind.code == code)

/-- The number of diagnostics about how a text is written. -/
def syntaxCount (ds : Diagnostics) : Nat :=
  ds.countP fun d => d.kind == .lexical || d.kind == .syntactic

/-- How many diagnostics there are of each sort, one line each. -/
def summary (ds : Diagnostics) : String :=
  let fatal := ds.count .fatal
  let syntactic := ds.syntaxCount
  let errors := ds.count .error
  let warnings := ds.count .warning
  let notes := ds.count .note
  s!"[  FATAL] : {fatal}\n[ SYNTAX] : {syntactic}\n[  ERROR] : {errors}\n" ++
    s!"[WARNING] : {warnings}\n[   NOTE] : {notes}"

end Diagnostics

end Verilog
