import Verilog.Node.Table

/-!
# Queries on node tables

Children, descendants and ancestors of a kind. A descent goes at most as deep as there are nodes,
which is enough for any tree.
-/

namespace Verilog

namespace NodeTable

/-- The first child of a kind, or no node. -/
def childOf (t : NodeTable) (parent : NodeId) (kind : NodeKind) : NodeId :=
  ((t.children parent).find? fun id => t.kind id == kind).getD 0

/-- The children of a kind. -/
def childrenOf (t : NodeTable) (parent : NodeId) (kind : NodeKind) : List NodeId :=
  (t.children parent).filter fun id => t.kind id == kind

/-- The children of a node that give the tree its shape: no comments, blanks and marks. -/
def shape (t : NodeTable) (id : NodeId) : List NodeId :=
  (t.children id).filter fun child => !(t.kind child).isTrivia

/-- The ancestors of a node from the nearest on, at most `fuel` of them. -/
def ancestorsWithin (t : NodeTable) : Nat → NodeId → List NodeId
  | 0, _ => []
  | fuel + 1, id =>
    let up := t.parent id
    if up = 0 then [] else up :: t.ancestorsWithin fuel up

/-- The nearest ancestor of one of some kinds, or no node. -/
def ancestorOf (t : NodeTable) (id : NodeId) (kinds : List NodeKind) : NodeId :=
  ((t.ancestorsWithin (t.size + 1) id).find? fun up => kinds.contains (t.kind up)).getD 0

/-- A node and its descendants at most `depth - 1` levels down, a node before those below it. -/
def preorderWithin (t : NodeTable) : Nat → NodeId → List NodeId
  | 0, _ => []
  | depth + 1, id => id :: (t.children id).flatMap (t.preorderWithin depth)

/-- A node and its descendants, a node before those below it. -/
def preorder (t : NodeTable) (root : NodeId) : List NodeId :=
  if root = 0 then [] else t.preorderWithin (t.size + 1) root

/-- The first node of a kind among a node and its descendants at most `depth - 1` levels down. -/
def findWithin (t : NodeTable) (kind : NodeKind) : Nat → NodeId → Option NodeId
  | 0, _ => none
  | depth + 1, id =>
    if t.kind id == kind then some id
    else (t.children id).findSome? (t.findWithin kind depth)

/-- The first node of a kind among a node and its descendants, or no node. -/
def first (t : NodeTable) (root : NodeId) (kind : NodeKind) : NodeId :=
  if root = 0 then 0 else (t.findWithin kind (t.size + 1) root).getD 0

/-- The nodes of a kind among a node and its descendants. -/
def collect (t : NodeTable) (root : NodeId) (kind : NodeKind) : List NodeId :=
  (t.preorder root).filter fun id => t.kind id == kind

end NodeTable

end Verilog
