import Verilog.Preprocess.Directive
import Verilog.Source.Mark

/-!
# Scanning a text

A text is scanned piece by piece. Text between directives is copied where it is active; every
directive and every active macro use of a file leaves a pair of marks around the text it gives, and
as many line feeds as it takes lines, so that the lines that come out are those that went in.
-/

namespace Verilog

namespace DirectiveText

/-- Copies a token of the text. In inactive text only line feeds are kept, and a directive that is
not written as it should be leaves nothing. -/
def copyToken (d : DirectiveText) (scope : ScanScope) (i : Nat) : Preprocessing Unit := do
  match d.tokens[i]? with
  | none => return
  | some token =>
    if token.kind.isDirective then
      if scope.conditions.active then d.report (.malformed token.text) (some i)
      Preprocessing.emitNewlines token.newlineCount
    else if !scope.conditions.active then Preprocessing.emitNewlines token.newlineCount
    else if token.kind = .lineContinuation then Preprocessing.emit "\n"
    else Preprocessing.emit token.text

/-- Records the node of a directive or use, and opens its marks if it is to have any. -/
def openMarks (d : DirectiveText) (marked : Bool) (t : ParseTree) : Preprocessing NodeId := do
  if !d.recording then return 0
  let id ← modifyGet fun st =>
    let (id, nodes) := d.record st.nodes d.parent t
    (id, { st with nodes })
  if marked then Preprocessing.emit (String.ofList beginMark)
  return id

/-- Makes up for the lines of a directive or use, and closes its marks. -/
def closeMarks (d : DirectiveText) (marked : Bool) (node : NodeId) (t : ParseTree) :
    Preprocessing Unit := do
  Preprocessing.emitNewlines (d.newlinesIn t)
  if marked && d.recording then Preprocessing.emit (String.ofList (endMark node))

/-- Scans a directive. -/
def scanDirective (expand : Expander) (includer : Includer) (d : DirectiveText)
    (scope : ScanScope) (kind : NodeKind) (t : ParseTree) : Preprocessing ScanScope := do
  let node ← d.openMarks true t
  let scope ← if isConditional kind then do
      let conditions ← d.stepConditions kind t scope.conditions
      pure { scope with conditions }
    else if scope.conditions.active then d.act expand includer scope kind node t
    else pure scope
  d.closeMarks true node t
  return scope

/-- Scans a macro use. Its node is led to the definition of the macro. -/
def scanUse (expand : Expander) (d : DirectiveText) (scope : ScanScope) (t : ParseTree) :
    Preprocessing Unit := do
  let active := scope.conditions.active
  let node ← d.openMarks active t
  if active then
    match ← d.evaluate expand t with
    | some text => Preprocessing.emit (String.ofList (flatten text.toList))
    | none => pure ()
    modify fun st =>
      let definition := (((d.usedName t).bind st.macros.get?).map (·.node)).getD 0
      { st with nodes := st.nodes.modify node fun n => { n with definition } }
  d.closeMarks active node t

/-- Scans one piece of the text. -/
def scanPiece (expand : Expander) (includer : Includer) (d : DirectiveText) (scope : ScanScope)
    (t : ParseTree) : Preprocessing ScanScope := do
  match t with
  | .leaf i => d.copyToken scope i; return scope
  | .node kind ts =>
    if kind.isDirective then d.scanDirective expand includer scope kind t
    else if kind.isMacroUse then d.scanUse expand scope t; return scope
    else
      (ParseTree.leavesAll ts).forM (d.copyToken scope)
      return scope

/-- Reports the chains of conditional directives that a file leaves open. -/
def reportOpenChains (d : DirectiveText) (conditions : Conditionals) : Preprocessing Unit :=
  if d.recording then
    conditions.reverse.forM fun c =>
      Preprocessing.report
        (DirectiveFault.unterminatedConditional.diagnostic ⟨nameText d.file, c.line, c.column⟩)
  else pure ()

/-- Scans a whole text. -/
def scan (expand : Expander) (includer : Includer) (d : DirectiveText) : Preprocessing Unit := do
  let tree := DirectiveGrammar.parse d.tokens.toList
  let scope ← tree.children.foldlM (d.scanPiece expand includer) {}
  d.reportOpenChains scope.conditions

end DirectiveText

/-! ### Expansion -/

/-- A step that leaves the text, the line and the open expansions as they were, and gives the text
it made. -/
def Preprocessing.apart (x : Preprocessing Unit) (name : String) : Preprocessing String := fun st =>
  let restore (after : PreprocessState) : PreprocessState :=
    { after with text := st.text, line := st.line, expanding := st.expanding }
  match x { st with text := "", expanding := name :: st.expanding } with
  | .ok _ after => .ok after.text (restore after)
  | .error e after => .error e (restore after)

/-- Expands the macro uses in the text of a macro, with so many expansions nested in it. -/
def expandWithin : Nat → Expander
  | 0 => fun _ _ text => pure text
  | depth + 1 => fun file name text =>
    if text.toList.contains backquote then
      Preprocessing.apart
        ((DirectiveText.ofText text file 0 false).scan (expandWithin depth) fun _ => pure none)
        name
    else pure text

/-- Expands the macro uses in the text of a macro. -/
def expandText : Expander := expandWithin maxExpansionDepth

end Verilog
