import Verilog.Diagnostic.Basic

/-!
# What can be wrong with directives
-/

namespace Verilog

/-- What is wrong with a directive or a macro use. -/
inductive DirectiveFault where
  | malformed (directive : String)
  | elsifWithoutIf
  | elseWithoutIf
  | endifWithoutIf
  | unterminatedConditional
  | reservedName (name : String)
  | redefinition (name : String)
  | undefUnknown (name : String)
  | unknownMacro (name : String)
  | recursion (name : String)
  | arity (name : String) (expected given : Nat)
  | includeNotFound (name : String)
  | includeCycle (name path : String)
  /-- A file to be included is not a text. -/
  | includeNotText (name path : String)
  | malformedLine
  | lineLevel (level : Nat)
  | malformedTimescale (text : String)
  | unsupportedNetType (name : String)
  deriving DecidableEq, Repr

namespace DirectiveFault

/-- The kind of diagnostic a fault is reported as. -/
def kind : DirectiveFault → DiagnosticKind
  | malformed _ | malformedLine | malformedTimescale _ | unsupportedNetType _ =>
    .malformedDirective
  | elsifWithoutIf => .elsifWithoutIf
  | elseWithoutIf => .elseWithoutIf
  | endifWithoutIf => .endifWithoutIf
  | unterminatedConditional => .unterminatedConditional
  | reservedName name => .reservedMacroName name
  | redefinition name => .macroRedefinition name
  | undefUnknown name => .undefUnknownMacro name
  | unknownMacro name => .unknownMacro name
  | recursion name => .recursiveMacro name
  | arity name _ _ => .macroArity name
  | includeNotFound name | includeNotText name _ => .includeNotFound name
  | includeCycle name _ => .includeCycle name
  | lineLevel _ => .illegalLineLevel

/-- A fault in words. -/
def message : DirectiveFault → String
  | malformed directive => s!"malformed directive {directive}"
  | elsifWithoutIf => "`elsif without `ifdef"
  | elseWithoutIf => "`else without `ifdef"
  | endifWithoutIf => "`endif without `ifdef"
  | unterminatedConditional => "conditional is not closed at end of file"
  | reservedName name => s!"`{name}` is a reserved directive name"
  | redefinition name => s!"macro {name} redefined"
  | undefUnknown name => s!"undefining unknown macro {name}"
  | unknownMacro name => s!"unknown macro {name}"
  | recursion name => s!"recursive expansion of macro {name}"
  | arity name expected given => s!"macro {name} expects {expected} argument(s), got {given}"
  | includeNotFound name => s!"cannot find include file {name}"
  | includeCycle _ path => s!"include cycle through {path}"
  | includeNotText _ path =>
    s!"cannot read include file {path}: stream did not contain valid UTF-8"
  | malformedLine => "malformed `line"
  | lineLevel level => s!"`line level {level} must be 0, 1 or 2"
  | malformedTimescale text => s!"malformed `timescale {text}"
  | unsupportedNetType name => s!"unsupported `default_nettype {name}"

/-- What could be done about a fault. -/
def suggestions : DirectiveFault → List String
  | unterminatedConditional => ["add a matching `endif"]
  | includeNotFound _ => ["check +incdir+ paths"]
  | _ => []

/-- The diagnostic of a fault at a place. -/
def diagnostic (fault : DirectiveFault) (place : FilePlace) : Diagnostic :=
  { message := fault.message, kind := fault.kind, place := some place,
    suggestions := fault.suggestions }

end DirectiveFault

end Verilog
