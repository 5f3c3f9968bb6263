import Verilog.Directive.Lexicon

/-!
# Macros

A macro is a name, perhaps with formal arguments, and a body of tokens. The table of the macros in
force keeps them in the order in which their names were first defined; a later definition of a name
takes the place of the earlier one.
-/

namespace Verilog

/-- A formal argument. -/
structure FormalArgument where
  name : String
  /-- The text used where no actual argument is given. -/
  default : Option String := none
  deriving DecidableEq, Repr

/-- A token of a macro body. -/
structure BodyToken where
  kind : DirectiveKind
  text : String
  deriving DecidableEq, Repr

/-- The definition of a macro. -/
structure MacroDefinition where
  name : String
  /-- None if the macro takes no parentheses. -/
  formals : Option (List FormalArgument) := none
  body : List BodyToken
  /-- Does the body go over several lines? -/
  escaped : Bool := false
  /-- The node that defines it; zero if no text does. -/
  node : Nat := 0
  file : Option String := none
  line : Nat := 0
  column : Nat := 0
  endLine : Nat := 0
  endColumn : Nat := 0
  deriving DecidableEq, Repr

namespace MacroDefinition

/-- The macro without arguments that stands for a text. -/
def ofText (name value : String) : MacroDefinition :=
  { name, body := (DirectiveToken.ofText value).map fun t => ⟨t.kind, t.text⟩ }

/-- The number of formal arguments. -/
def arity (m : MacroDefinition) : Nat := (m.formals.getD []).length

/-- The body as it is written, without the blanks around it. -/
def bodyText (m : MacroDefinition) : String :=
  trimText (String.join (m.body.map (·.text)))

/-- What a formal argument is replaced by: the actual argument at its position, or its default. -/
def actualFor (actuals : List String) : List FormalArgument → String → Option String
  | [], _ => none
  | f :: formals, name =>
    if f.name = name then some (actuals.head?.getD (f.default.getD ""))
    else actualFor actuals.tail formals name

/-- What a token of the body becomes: formal arguments are replaced, tokens pasted, quotes made
plain, comments dropped, and lines joined. -/
def substituteToken (formals : List FormalArgument) (actuals : List String) (t : BodyToken) :
    String :=
  match t.kind with
  | .identifier => (actualFor actuals formals t.text).getD t.text
  | .tickTick | .oneLineComment => ""
  | .tickQuote => "\""
  | .lineContinuation => " "
  | _ => t.text

/-- The text of a use of the macro. Macro uses in it are left as they are. -/
def substitute (m : MacroDefinition) (actuals : List String) : String :=
  trimText (String.join (m.body.map (substituteToken (m.formals.getD []) actuals)))

end MacroDefinition

/-- The macros in force. -/
structure MacroTable where
  macros : List MacroDefinition := []
  deriving DecidableEq, Repr

namespace MacroTable

/-- The macro with a name. -/
def get? (t : MacroTable) (name : String) : Option MacroDefinition :=
  t.macros.find? (·.name == name)

/-- Is there a macro with this name? -/
def contains (t : MacroTable) (name : String) : Bool := (t.get? name).isSome

/-- Puts a definition in the place of the one of the same name, or at the end. -/
def put (m : MacroDefinition) : List MacroDefinition → List MacroDefinition
  | [] => [m]
  | d :: ds => if d.name = m.name then m :: ds else d :: put m ds

/-- Defines a macro. -/
def define (t : MacroTable) (m : MacroDefinition) : MacroTable := ⟨put m t.macros⟩

/-- Defines macros without arguments, one after the other. -/
def defineAll (t : MacroTable) (texts : List (String × String)) : MacroTable :=
  texts.foldl (fun t d => t.define (.ofText d.1 d.2)) t

/-- Forgets the macro with a name. -/
def undefine (t : MacroTable) (name : String) : MacroTable :=
  ⟨t.macros.filter (·.name != name)⟩

end MacroTable

end Verilog
