import Verilog.Node.Kind
import Verilog.Time.Scale

/-!
# Design elements

The declarations a design is made of: modules, interfaces and the like. An element is recorded with
the node that declares it and the settings that were in force where it begins.
-/

namespace Verilog

/-- The kinds of declarations that are design elements. -/
inductive ElementKind where
  | module | primitive | interface | program | package | config | checker | classType | function
  | task
  /-- A mark for a line directive. -/
  | line
  deriving DecidableEq, Repr

namespace ElementKind

/-- The name a kind is shown under. -/
def name : ElementKind → String
  | module => "Module"
  | primitive => "Primitive"
  | interface => "Interface"
  | program => "Program"
  | package => "Package"
  | config => "Config"
  | checker => "Checker"
  | classType => "Class"
  | function => "Function"
  | task => "Task"
  | line => "SlLine"

/-- All kinds. -/
def all : List ElementKind :=
  [module, primitive, interface, program, package, config, checker, classType, function, task,
    line]

/-- The kind of element that a declaration is. -/
def ofNode? : NodeKind → Option ElementKind
  | .paModuleDeclaration => some module
  | .paInterfaceDeclaration => some interface
  | .paUdpDeclaration => some primitive
  | .paPackageDeclaration => some package
  | .paProgramDeclaration => some program
  | .paClassDeclaration => some classType
  | .paConfigDeclaration => some config
  | .paCheckerDeclaration => some checker
  | .paFunctionDeclaration => some function
  | .paTaskDeclaration => some task
  | _ => none

end ElementKind

/-- A declaration that is part of a design. -/
structure DesignElement where
  /-- Library and dotted path, an at sign between. -/
  name : Option String
  file : Option String
  kind : ElementKind
  /-- Counted from one in the order of declaration. -/
  uniqueId : Nat := 0
  node : Nat
  line : Nat := 0
  column : Nat := 0
  endLine : Nat := 0
  endColumn : Nat := 0
  /-- The position of the element around it. -/
  parent : Option Nat := none
  /-- The time scale in force, if one was set. -/
  time : Option TimeScale := none
  /-- The type of undeclared nets in force; `slNoType` if there must be none. -/
  netType : NodeKind := .paNetTypeWire
  deriving Repr

end Verilog
