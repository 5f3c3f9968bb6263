import Verilog.Directive.Grammar
import Verilog.Preprocess.Cause
import Verilog.Preprocess.State

/-!
# A text being preprocessed

What is said of a text with directives piece by piece: the text and the place of a tree over its
tokens, the name a directive or use concerns, and the node that is recorded for it.
-/

namespace Verilog

/-- A text being preprocessed. -/
structure DirectiveText where
  tokens : Array DirectiveToken
  file : Option String
  /-- The node that the nodes of the text hang under. -/
  parent : NodeId
  /-- Is it the text of a file, as opposed to the text of a macro? Only for a file are nodes and
  marks recorded, and settings and inclusions obeyed. -/
  recording : Bool
  deriving DecidableEq

/-- The lines and columns that something takes. -/
structure TextRange where
  line : Nat := 0
  column : Nat := 0
  endLine : Nat := 0
  endColumn : Nat := 0
  deriving DecidableEq, Repr

namespace NodeKind

/-- Is the kind a directive or a predefined text? -/
def isDirective : NodeKind → Bool
  | .ppIncludeDirective | .ppLineDirective | .ppTimescaleDirective | .ppResetallDirective
  | .ppDefaultNettypeDirective | .ppUndefDirective | .ppUndefineallDirective | .ppIfdefDirective
  | .ppIfndefDirective | .ppElsifDirective | .ppElseDirective | .ppEndifDirective
  | .ppCelldefineDirective | .ppEndcelldefineDirective | .ppSvFileDirective
  | .ppSvLineDirective => true
  | k => k.isMacroDefinition

end NodeKind

namespace DirectiveText

/-- The text to preprocess in a file. -/
def ofText (text : String) (file : Option String) (parent : NodeId) (recording : Bool) :
    DirectiveText :=
  { tokens := (DirectiveToken.ofText text).toArray, file, parent, recording }

/-- The tokens of a tree. -/
def tokensOf (d : DirectiveText) (t : ParseTree) : List DirectiveToken :=
  t.leaves.filterMap fun i => d.tokens[i]?

/-- The text of a tree. -/
def textOf (d : DirectiveText) (t : ParseTree) : String :=
  String.join ((d.tokensOf t).map (·.text))

/-- The text of a tree without the blanks around it. -/
def trimmedTextOf (d : DirectiveText) (t : ParseTree) : String := trimText (d.textOf t)

/-- The number of line feeds in a tree. -/
def newlinesIn (d : DirectiveText) (t : ParseTree) : Nat :=
  (d.tokensOf t).foldl (fun n token => n + token.newlineCount) 0

/-- The range of a tree. -/
def rangeOf (d : DirectiveText) (t : ParseTree) : TextRange :=
  match t.first?.bind (d.tokens[·]?), t.last?.bind (d.tokens[·]?) with
  | some first, some last => ⟨first.line, first.column, last.endLine, last.endColumn⟩
  | _, _ => {}

/-- Reports a fault at a token. -/
def report (d : DirectiveText) (fault : DirectiveFault) (token : Option Nat) :
    Preprocessing Unit :=
  let place := match token.bind (d.tokens[·]?) with
    | some t => (t.line, t.column)
    | none => (0, 0)
  Preprocessing.report (fault.diagnostic ⟨nameText d.file, place.1, place.2⟩)

/-- The name of the macro that a directive concerns. -/
def macroNameOf (d : DirectiveText) (t : ParseTree) : Option String :=
  (t.children.find? fun c => c.isNode .ppPsIdentifier || c.isNode .ppEscapedIdentifier).map
    d.trimmedTextOf

/-- The name of the macro that is used. -/
def usedName (d : DirectiveText) (t : ParseTree) : Option String :=
  (t.first?.bind (d.tokens[·]?)).map fun token =>
    String.ofList (token.text.toList.dropWhile (· == backquote))

/-- The name a node is recorded under; none if it would be empty. -/
def nodeName (d : DirectiveText) (kind : NodeKind) (t : ParseTree) : Option String :=
  let name := match kind with
    | .ppMacroInstanceWithArgs | .ppMacroInstanceNoArgs => d.usedName t
    | .ppUndefDirective | .ppIfdefDirective | .ppIfndefDirective | .ppElsifDirective
    | .ppSimpleNoArgsMacroDefinition | .ppSimpleArgsMacroDefinition
    | .ppMultilineNoArgsMacroDefinition | .ppMultilineArgsMacroDefinition => d.macroNameOf t
    | .ppPsIdentifier | .ppEscapedIdentifier | .ppString | .ppNumber | .ppDefaultValue
    | .ppMacroArg | .ppSimpleMacroDefinitionBody | .ppEscapedMacroDefinitionBody =>
      some (d.trimmedTextOf t)
    | _ => none
  name.filter (· != "")

mutual

/-- Adds the nodes of a tree under a node, and gives the first of them. -/
def record (d : DirectiveText) (table : NodeTable) (parent : NodeId) :
    ParseTree → NodeId × NodeTable
  | .leaf _ => (0, table)
  | .node kind ts =>
    let range := d.rangeOf (.node kind ts)
    let node : Node :=
      { name := d.nodeName kind (.node kind ts), kind, file := d.file, line := range.line,
        column := range.column, endLine := range.endLine, endColumn := range.endColumn }
    let (id, table) := table.addChild parent node
    (id, d.recordAll table id ts)

/-- Adds the nodes of a list of trees under a node. -/
def recordAll (d : DirectiveText) (table : NodeTable) (parent : NodeId) :
    List ParseTree → NodeTable
  | [] => table
  | t :: ts => d.recordAll (d.record table parent t).2 parent ts

end

end DirectiveText

end Verilog
