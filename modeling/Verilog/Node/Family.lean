import Verilog.Node.Table

/-!
# Source order and families

How siblings are put into the order of the source, how the nodes of a table are linked step by step,
and how what stands below a node is copied to another table.
-/

namespace Verilog

/-! ### Source order among siblings

Nodes that are added late are linked behind their siblings; sorting a chain by place puts them where
they stand in the source. Nodes at the same place keep their order.
-/

namespace NodeTable

/-- Does a node start no later than another? -/
def startsBefore (t : NodeTable) (a b : NodeId) : Bool :=
  let x := t.node a
  let y := t.node b
  x.line < y.line || (x.line == y.line && x.column ≤ y.column)

/-- Does each member of a list of nodes start no later than the next? -/
def inOrder (t : NodeTable) : List NodeId → Bool
  | a :: b :: ids => t.startsBefore a b && t.inOrder (b :: ids)
  | _ => true

/-- Links siblings one behind the other. -/
def link (t : NodeTable) : List NodeId → NodeTable
  | [] => t
  | [last] => t.modify last fun n => { n with sibling := 0 }
  | a :: b :: ids => (t.modify a fun n => { n with sibling := b }).link (b :: ids)

/-- Links nodes as the children of a node, in the order in which they start. -/
def linkFamily (t : NodeTable) (parent : NodeId) (ids : List NodeId) : NodeTable :=
  let sorted := ids.mergeSort t.startsBefore
  (t.modify parent fun n => { n with child := sorted.head?.getD 0 }).link sorted

/-- Puts the children of a node into the order in which they start. -/
def sortChildren (t : NodeTable) (parent : NodeId) : NodeTable :=
  let ids := t.children parent
  if t.inOrder ids then t else t.linkFamily parent ids

/-- Puts the children of every node into the order in which they start. -/
def sortTree (t : NodeTable) : NodeTable :=
  (t.ids.filter fun id => t.child id != 0).foldl sortChildren t

end NodeTable

/-! ### Linking step by step -/

/-- A step that links nodes. -/
inductive LinkStep where
  /-- A node is put behind the last child of another. -/
  | append (parent child : NodeId)
  /-- The children of a node are put into the order in which they start. -/
  | sort (parent : NodeId)
  deriving DecidableEq, Repr

/-- Does a step. -/
def LinkStep.run (t : NodeTable) : LinkStep → NodeTable
  | append parent child => t.append parent child
  | sort parent => t.sortChildren parent

namespace NodeTable

/-- Links the nodes of a table by steps that are done one after the other. -/
def linkBy (t : NodeTable) (steps : List LinkStep) : NodeTable := steps.foldl LinkStep.run t

end NodeTable

/-! ### Copies -/

namespace NodeTable

/-- Copies a node and its descendants at most `depth - 1` levels down to a place below another. -/
def graftWithin (source : NodeTable) : (depth : Nat) → NodeId → (parent : NodeId) → NodeTable →
    NodeTable
  | 0, _, _, t => t
  | depth + 1, id, parent, t =>
    let node := { source.node id with
      file := source.fileOf id, parent := 0, child := 0, sibling := 0 }
    let (copy, t) := t.addChild parent node
    (source.children id).foldl (fun t child => graftWithin source depth child copy t) t

/-- Copies a node of another table and all below it to a place below a node. -/
def graft (t : NodeTable) (source : NodeTable) (id parent : NodeId) : NodeTable :=
  graftWithin source (source.size + 1) id parent t

end NodeTable

end Verilog
