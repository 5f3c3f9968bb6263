import Verilog.Preprocess.Conditional
import Verilog.Preprocess.Use

/-!
# Directives

What each directive does. A directive is acted on where text is active; the conditional ones are
acted on everywhere.
-/

namespace Verilog

/-- What a scan of a text keeps from one piece to the next. -/
structure ScanScope where
  conditions : Conditionals := []
  /-- The file that a line directive named, and what is added to the lines of the text. -/
  origin : Option (Option String × Int) := none

/-- What includes a file. -/
structure IncludeRequest where
  source : Option String
  name : String
  node : NodeId
  line : Nat
  column : Nat

/-- What appends a preprocessed file and gives its path; none if it cannot be included, which is
reported. -/
abbrev Includer := IncludeRequest → Preprocessing (Option String)

namespace ScanScope

/-- The file and line that a line of the text counts as. -/
def sourcePlace (scope : ScanScope) (file : Option String) (line : Nat) :
    Option String × Nat :=
  match scope.origin with
  | some (origin, delta) => (origin, wrapLine (max 1 (line + delta)).toNat)
  | none => (file, wrapLine line)

end ScanScope

namespace DirectiveText

/-! ### Conditional directives -/

/-- The chains after a conditional directive; a branch or end without a chain is reported. -/
def stepConditions (d : DirectiveText) (kind : NodeKind) (t : ParseTree) (cs : Conditionals) :
    Preprocessing Conditionals := do
  let name := (d.macroNameOf t).getD ""
  let defined := (← get).macros.contains name
  let range := d.rangeOf t
  let orReport (next : Option Conditionals) (fault : DirectiveFault) :
      Preprocessing Conditionals :=
    match next with
    | some next => pure next
    | none => do d.report fault t.first?; pure cs
  match kind with
  | .ppIfdefDirective => return cs.openChain defined range.line range.column
  | .ppIfndefDirective => return cs.openChain (!defined) range.line range.column
  | .ppElsifDirective => orReport (cs.nextBranch? defined) .elsifWithoutIf
  | .ppElseDirective => orReport cs.lastBranch? .elseWithoutIf
  | .ppEndifDirective => orReport cs.closeChain? .endifWithoutIf
  | _ => return cs

/-- Is the directive one that is acted on in inactive text too? -/
def isConditional : NodeKind → Bool
  | .ppIfdefDirective | .ppIfndefDirective | .ppElsifDirective | .ppElseDirective
  | .ppEndifDirective => true
  | _ => false

/-! ### Macros -/

/-- The formal arguments that a definition lists. -/
def formalsOf (d : DirectiveText) (t : ParseTree) : Option (List FormalArgument) :=
  (t.find? .ppFormalArgList).map fun list =>
    (list.children.filter (·.isNode .ppFormalArg)).map fun formal =>
      { name := ((formal.find? .ppPsIdentifier).map d.trimmedTextOf).getD ""
        default := (formal.find? .ppDefaultValue).map d.trimmedTextOf }

/-- The macro that a definition defines. -/
def definitionOf (d : DirectiveText) (name : String) (node : NodeId) (t : ParseTree) :
    MacroDefinition :=
  let body := t.children.find? fun c =>
    c.isNode .ppSimpleMacroDefinitionBody || c.isNode .ppEscapedMacroDefinitionBody
  let range := d.rangeOf t
  { name
    formals := d.formalsOf t
    body := (body.map fun b => (d.tokensOf b).map fun t => ⟨t.kind, t.text⟩).getD []
    escaped := body.any (·.isNode .ppEscapedMacroDefinitionBody)
    node, file := d.file, line := range.line, column := range.column, endLine := range.endLine,
    endColumn := range.endColumn }

/-- Does a definition say something else than an earlier one? -/
def redefines (earlier later : MacroDefinition) : Bool :=
  earlier.formals != later.formals || earlier.bodyText != later.bodyText

/-- Defines a macro, unless its name is reserved. -/
def define (d : DirectiveText) (node : NodeId) (t : ParseTree) : Preprocessing Unit := do
  match d.macroNameOf t with
  | none => return
  | some name =>
    if reservedMacroNames.contains name then
      d.report (.reservedName name) t.first?
    else
      let m := d.definitionOf name node t
      if ((← get).macros.get? name).any (redefines · m) then
        d.report (.redefinition name) t.first?
      Preprocessing.modifyMacros (·.define m)

/-- Forgets a macro. -/
def undefine (d : DirectiveText) (t : ParseTree) : Preprocessing Unit := do
  let name := (d.macroNameOf t).getD ""
  if (← get).macros.contains name then Preprocessing.modifyMacros (·.undefine name)
  else d.report (.undefUnknown name) t.first?

/-! ### Files and lines -/

/-- The name of the file that a directive includes; it may be given by a macro. -/
def includedName (expand : Expander) (d : DirectiveText) (t : ParseTree) :
    Preprocessing (Option String) := do
  let written ← match t.find? .ppString with
    | some string => pure (some (d.textOf string))
    | none =>
      match t.children.find? fun c => c.kind?.any (·.isMacroUse) with
      | some use => d.evaluate expand use
      | none => pure none
  return written.map fun text =>
    String.ofList (stripEnds (fun c => c == '"' || c == '<' || c == '>') (trim text.toList))

/-- Includes a file on lines of its own, and goes on with the lines of this one. -/
def includeFile (expand : Expander) (includer : Includer) (d : DirectiveText) (scope : ScanScope)
    (node : NodeId) (t : ParseTree) : Preprocessing Unit := do
  if !d.recording then return
  match ← d.includedName expand t with
  | none => return
  | some name =>
    let range := d.rangeOf t
    let edge := (← get).includes.size
    modify fun st =>
      { st with
        includes := st.includes.push
          { source := d.file, name, resolved := none, line := range.line,
            column := range.column, node } }
    Preprocessing.emit "\n"
    let resolved ← includer
      { source := d.file, name, node, line := range.line, column := range.column }
    modify fun st =>
      { st with includes := st.includes.modify edge fun e => { e with resolved } }
    if !(← get).text.endsWith "\n" then Preprocessing.emit "\n"
    let (file, line) := scope.sourcePlace d.file range.endLine
    Preprocessing.startSection ⟨(← get).line, file, line⟩

/-- Takes the following lines for lines of another place. -/
def renumber (d : DirectiveText) (scope : ScanScope) (t : ParseTree) :
    Preprocessing ScanScope := do
  let numbers := (t.children.filter (·.isNode .ppNumber)).map fun n =>
    readUnsigned 10 32 (d.textOf n).toList
  match numbers, t.find? .ppString with
  | some target :: some level :: _, some path =>
    if level > 2 then
      d.report (.lineLevel level) t.first?
      return scope
    else
      let file := String.ofList (stripEnds (· == '"') (d.textOf path).toList)
      Preprocessing.startSection ⟨(← get).line + 1, some file, target⟩
      let delta := (target : Int) - ((d.rangeOf t).endLine + 1)
      return { scope with origin := some (some file, delta) }
  | _, _ =>
    d.report .malformedLine t.first?
    return scope

/-! ### Settings -/

/-- Changes the settings; only the text of a file does. -/
def changeSettings (d : DirectiveText) (f : DirectiveState → DirectiveState) :
    Preprocessing Unit :=
  if d.recording then Preprocessing.changeSettings f else pure ()

/-- Sets the time scale. -/
def setTimeScale (d : DirectiveText) (t : ParseTree) : Preprocessing Unit :=
  let text := String.join ((t.leaves.drop 1).filterMap fun i => (d.tokens[i]?).map (·.text))
  match TimeScale.parse? text.toList with
  | some time => d.changeSettings fun s => { s with time := some time }
  | none => d.report (.malformedTimescale (trimText text)) t.first?

/-- The type that undeclared nets get by a name. -/
def netTypeOf? : String → Option NodeKind
  | "wire" => some .paNetTypeWire
  | "uwire" => some .paNetTypeUwire
  | "tri" => some .paNetTypeTri
  | "wand" => some .paNetTypeWand
  | "wor" => some .paNetTypeWor
  | "none" => some .slNoType
  | _ => none

/-- Sets the type of undeclared nets. -/
def setNetType (d : DirectiveText) (t : ParseTree) : Preprocessing Unit :=
  let name := (d.macroNameOf t).getD ""
  match netTypeOf? name with
  | some netType => d.changeSettings fun s => { s with netType }
  | none => d.report (.unsupportedNetType name) t.first?

/-! ### All directives -/

/-- Acts on a directive in active text that is not conditional. -/
def act (expand : Expander) (includer : Includer) (d : DirectiveText) (scope : ScanScope)
    (kind : NodeKind) (node : NodeId) (t : ParseTree) : Preprocessing ScanScope := do
  match kind with
  | .ppUndefDirective => d.undefine t; return scope
  | .ppUndefineallDirective => Preprocessing.modifyMacros fun _ => {}; return scope
  | .ppIncludeDirective => d.includeFile expand includer scope node t; return scope
  | .ppLineDirective => d.renumber scope t
  | .ppTimescaleDirective => d.setTimeScale t; return scope
  | .ppDefaultNettypeDirective => d.setNetType t; return scope
  | .ppResetallDirective => d.changeSettings fun _ => {}; return scope
  | .ppSvFileDirective =>
    let file := nameText (scope.sourcePlace d.file 0).1
    Preprocessing.emit ("\"" ++ file ++ "\"")
    return scope
  | .ppSvLineDirective =>
    let line := (scope.sourcePlace d.file (d.rangeOf t).line).2
    Preprocessing.emit (toString line)
    return scope
  | _ =>
    if kind.isMacroDefinition then d.define node t
    return scope

end DirectiveText

end Verilog
