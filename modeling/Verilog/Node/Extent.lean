import Verilog.Diagnostic.Basic
import Verilog.Ir.Basic
import Verilog.Node.Query

/-!
# Where trees stand

Where a node starts, as diagnostics name it; the stretch of the source from one node to another, as
objects of a design keep it; and the columns a tree takes on each line on which a
node of it starts: the smallest column at which one starts, and how far those that end on the same
line reach. Nodes are met in order; the first of a line gives both columns, whether it ends on that
line or not.
-/

namespace Verilog

/-- The place where a node starts. -/
def NodeTable.place (t : NodeTable) (id : NodeId) : FilePlace :=
  ⟨Verilog.nameText (t.fileOf id), (t.node id).line, (t.node id).column⟩

/-- Is the kind a dimension of an array? -/
def NodeKind.isDimension (k : NodeKind) : Bool :=
  k == .paPackedDimension || k == .paUnpackedDimension

namespace NodeTable

/-- The last of the dimensions that begin with a node; the node itself if it is no dimension. -/
def lastDimension (t : NodeTable) (id : NodeId) : NodeId :=
  ((t.chain (t.size + 1) id).takeWhile fun id => (t.kind id).isDimension).getLast?.getD id

/-- The stretch from the start of one node to the end of another, taken from the file of the first.
If the other is a dimension of an array, the dimensions that follow it are taken in. -/
def range? (t : NodeTable) (first last : NodeId) : Option SourceRange :=
  if t.contains first then
    let start := t.node first
    let stop := t.node (t.lastDimension (if t.contains last then last else first))
    some { file := Verilog.nameText (t.fileOf first), line := start.line, column := start.column,
           endLine := stop.endLine, endColumn := stop.endColumn }
  else none

end NodeTable

/-- The columns taken on one line. -/
structure LineExtent where
  line : Nat
  first : Nat
  last : Nat
  deriving DecidableEq, Repr

namespace LineExtent

/-- The columns of a line after one more node that starts on it. -/
def widen (e : LineExtent) (n : Node) : LineExtent :=
  { e with
    first := min e.first n.column
    last := if n.endLine = n.line then max e.last n.endColumn else e.last }

/-- The columns of all lines, by line, after one more node. -/
def insert (n : Node) : List LineExtent → List LineExtent
  | [] => [⟨n.line, n.column, n.endColumn⟩]
  | e :: es =>
    if n.line < e.line then ⟨n.line, n.column, n.endColumn⟩ :: e :: es
    else if n.line = e.line then e.widen n :: es
    else e :: insert n es

end LineExtent

/-- The columns that the nodes of a tree take, by line. -/
def NodeTable.lineExtents (t : NodeTable) (root : NodeId) : List LineExtent :=
  (t.preorder root).foldl (fun es id => LineExtent.insert (t.node id) es) []

end Verilog
