import Verilog.Preprocess.Text

/-!
# Macro uses

The text of a macro use is the body of the macro with the arguments put in, and with the macro uses
in it expanded in turn. Uses may nest, but a macro is not expanded inside its own expansion, and
not more than a fixed number of expansions are open at once.
-/

namespace Verilog

/-- The number of expansions that may be open at once. -/
def maxExpansionDepth : Nat := 64

/-- What expands the macro uses in the text of a macro: given the file of the use, the name of the
macro and the text. -/
abbrev Expander := Option String → String → String → Preprocessing String

/-- The actual arguments of a macro use with their defaults, or what is wrong with them. An empty
argument list is no argument for a macro that takes none. -/
def completeArguments (name : String) (formals : List FormalArgument) (actuals : List String) :
    Except DirectiveFault (List String) :=
  let actuals := if formals.isEmpty && actuals == [""] then [] else actuals
  if actuals.length > formals.length ||
      (formals.drop actuals.length).any (·.default.isNone) then
    .error (.arity name formals.length actuals.length)
  else
    .ok (List.zipWith (fun actual (f : FormalArgument) =>
      if actual == "" then f.default.getD actual else actual) actuals formals)

namespace DirectiveText

/-- The actual arguments of a macro use as they are written. -/
def actualsOf (d : DirectiveText) (use : ParseTree) : List String :=
  match use.find? .ppMacroActualArgs with
  | some arguments =>
    (arguments.children.filter (·.isNode .ppMacroArg)).map d.trimmedTextOf
  | none => []

/-- What is written after the name of a macro in parentheses. -/
def trailingTextOf (d : DirectiveText) (use : ParseTree) : String :=
  match use.find? .ppMacroActualArgs, use.first?, use.last? with
  | some _, some first, some last =>
    String.join (((d.tokens.toList.take (last + 1)).drop (first + 1)).map (·.text))
  | _, _, _ => ""

/-- The text of a macro use before the uses in it are expanded. A macro that takes no parentheses
keeps the ones written after it. -/
def substitutedText (d : DirectiveText) (m : MacroDefinition) (use : ParseTree) :
    Except DirectiveFault String :=
  match m.formals with
  | none => .ok (m.substitute [] ++ d.trailingTextOf use)
  | some formals => (completeArguments m.name formals (d.actualsOf use)).map m.substitute

/-- The expanded text of a macro use; none if it cannot be expanded, which is reported. -/
def evaluate (expand : Expander) (d : DirectiveText) (use : ParseTree) :
    Preprocessing (Option String) := do
  match d.usedName use with
  | none => return none
  | some name =>
    let st ← get
    match st.macros.get? name with
    | none =>
      d.report (.unknownMacro name) use.first?
      return none
    | some m =>
      if st.expanding.contains name || st.expanding.length ≥ maxExpansionDepth then
        d.report (.recursion name) use.first?
        return none
      match d.substitutedText m use with
      | .error fault =>
        d.report fault use.first?
        return none
      | .ok text => some <$> expand d.file name text

/-- An expanded text on one line. -/
def flatten (s : List Char) : List Char :=
  (s.filter (· != '\r')).map fun c => if c = '\n' then ' ' else c

end DirectiveText

end Verilog
