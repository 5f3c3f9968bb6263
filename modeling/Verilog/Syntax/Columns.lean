import Verilog.Location.Mapper
import Verilog.Syntax.MarkedText

/-!
# The columns of a marked text

The column that a token of a marked text comes from is fixed token by token. A mark comes from where
its directive or macro use begins or ends. Any other token keeps its distance from the last column
that is certain: the start of its line, or the end of the last mark. Within a use on one line it
does not leave the columns of that use, whatever the length of the text it stands for.
-/

namespace Verilog

/-- What column tracing knows between two tokens. -/
structure ColumnTrace where
  offsets : OffsetMap := {}
  /-- The nodes whose text is being read, the innermost one first. -/
  regions : List Node := []
  /-- The last certain column of the marked text. -/
  column : Int := 1
  /-- The column it comes from. -/
  origin : Int := 1

namespace ColumnTrace

/-- The column that a token comes from, before it is confined to a region. -/
def expected (t : ColumnTrace) (column : Nat) : Int := t.origin + (column - t.column)

/-- A column moved into the columns of a use on one line. Included text is not confined. -/
def confine (region : Option Node) (column : Int) : Int :=
  match region with
  | some n =>
    if n.kind != .ppIncludeDirective && n.line == n.endLine then
      max (n.column : Int) (min column (n.endColumn - 1))
    else column
  | none => column

/-- Goes on to a line if the token begins one. -/
def enterLine (t : ColumnTrace) (token : SourceToken) : ColumnTrace :=
  if token.column = 1 then { t with column := 1, origin := 1 } else t

/-- Fixes the column of a mark, and counts from its end on. -/
def atMark (t : ColumnTrace) (token : SourceToken) (origin : Nat) (regions : List Node) :
    ColumnTrace :=
  { offsets := t.offsets.pin token.line token.column (max 1 origin), regions,
    column := token.endColumn, origin }

/-- Fixes the column of one more token; `node` is the node it is a mark of. -/
def step (directives : NodeTable) (t : ColumnTrace) (token : SourceToken) (mark : Option NodeId) :
    ColumnTrace :=
  let t := t.enterLine token
  match token.kind, mark with
  | .preprocBegin, some id =>
    let node := directives.node id
    t.atMark token node.column (node :: t.regions)
  | .preprocEnd, some id => t.atMark token (directives.node id).endColumn t.regions.tail
  | _, _ =>
    let column := OffsetMap.clamp 1 maxColumn
      (confine t.regions.head? (t.expected token.column))
    { t with offsets := t.offsets.pin token.line token.column column }

end ColumnTrace

/-- Where the columns of a marked text come from. -/
def MarkedText.offsets (m : MarkedText) : OffsetMap :=
  ((m.tokens.zip m.marks).foldl (fun t x => t.step m.text.nodes x.1 x.2)
    ({} : ColumnTrace)).offsets

end Verilog
