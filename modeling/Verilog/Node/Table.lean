import Verilog.Design.Element
import Verilog.Node.Kind

/-!
# Node tables

The tree of a file is kept as a table of nodes that are linked by number: a node knows its parent,
its first child and its next sibling. Numbers count from one and zero means no node; a number past
the end of the table behaves as a node without name, kind and links.

The chain of a node's children is the one view of the links that all queries are built on. Links
may be set freely, so a chain is followed for at most as many steps as there are nodes; a chain
that does not come back to a node it has left is no longer than that.
-/

namespace Verilog

/-- The number of a node in its table; zero is no node. -/
abbrev NodeId := Nat

/-- What is shown for a name that is missing. -/
def missingName : String := "@@BAD_SYMBOL@@"

/-- The text of a name that may be missing. -/
def nameText (name : Option String) : String := name.getD missingName

/-- A node of a tree. -/
structure Node where
  name : Option String := none
  kind : NodeKind
  file : Option String
  line : Nat := 0
  column : Nat := 0
  endLine : Nat := 0
  endColumn : Nat := 0
  parent : NodeId := 0
  definition : NodeId := 0
  child : NodeId := 0
  sibling : NodeId := 0
  deriving Repr, Inhabited

/-- The nodes of one file and the design elements found in it. -/
structure NodeTable where
  /-- The path of the file. -/
  file : Option String
  /-- The library its elements belong to. -/
  library : String
  /-- The nodes; the one with number one comes first. -/
  nodes : Array Node := #[]
  elements : Array DesignElement := #[]

namespace NodeTable

/-- The number of nodes. -/
def size (t : NodeTable) : Nat := t.nodes.size

/-- The first node, which is the root of the tree. -/
def root (t : NodeTable) : NodeId := if t.nodes.isEmpty then 0 else 1

/-- The numbers of all nodes. -/
def ids (t : NodeTable) : List NodeId := (List.range t.size).map (· + 1)

/-- Is there a node with this number? -/
def contains (t : NodeTable) (id : NodeId) : Bool := id != 0 && id ≤ t.size

/-- The node with a number, an empty one if there is none. -/
def node (t : NodeTable) (id : NodeId) : Node :=
  match id with
  | 0 => { kind := .slNoType, file := t.file }
  | i + 1 => (t.nodes[i]?).getD { kind := .slNoType, file := t.file }

/-- Adds a node and gives its number. -/
def add (t : NodeTable) (node : Node) : NodeId × NodeTable :=
  (t.size + 1, { t with nodes := t.nodes.push node })

/-- Changes the node with a number, if there is one. -/
def modify (t : NodeTable) (id : NodeId) (f : Node → Node) : NodeTable :=
  match id with
  | 0 => t
  | i + 1 => { t with nodes := t.nodes.modify i f }

/-- The kind of a node. -/
def kind (t : NodeTable) (id : NodeId) : NodeKind := (t.node id).kind

/-- The name of a node. -/
def name (t : NodeTable) (id : NodeId) : Option String := (t.node id).name

/-- The text of the name of a node. -/
def nameText (t : NodeTable) (id : NodeId) : String := Verilog.nameText (t.name id)

/-- The first child of a node. -/
def child (t : NodeTable) (id : NodeId) : NodeId := (t.node id).child

/-- The next sibling of a node. -/
def sibling (t : NodeTable) (id : NodeId) : NodeId := (t.node id).sibling

/-- The parent of a node. -/
def parent (t : NodeTable) (id : NodeId) : NodeId := (t.node id).parent

/-- The file a node came from: the table's file if the node has none. -/
def fileOf (t : NodeTable) (id : NodeId) : Option String := (t.node id).file <|> t.file

/-- The chain of siblings from a node on, at most `fuel` of them. -/
def chain (t : NodeTable) : Nat → NodeId → List NodeId
  | 0, _ => []
  | fuel + 1, id => if id = 0 then [] else id :: t.chain fuel (t.sibling id)

/-- The children of a node in order. -/
def children (t : NodeTable) (id : NodeId) : List NodeId := t.chain (t.size + 1) (t.child id)

/-- Links a node behind the last child of another. -/
def append (t : NodeTable) (parent child : NodeId) : NodeTable :=
  if parent = 0 || child = 0 then t
  else
    let linked := match (t.children parent).getLast? with
      | some last => t.modify last fun n => { n with sibling := child }
      | none => t.modify parent fun n => { n with child := child }
    linked.modify child fun n => { n with parent := parent }

/-- Adds a node behind the last child of another. -/
def addChild (t : NodeTable) (parent : NodeId) (node : Node) : NodeId × NodeTable :=
  let (id, t) := t.add node
  (id, t.append parent id)

/-- Adds a design element, numbered after those before it, and gives its position. -/
def addElement (t : NodeTable) (e : DesignElement) : Nat × NodeTable :=
  (t.elements.size,
    { t with elements := t.elements.push { e with uniqueId := t.elements.size + 1 } })

/-- The first design element with a name. -/
def element? (t : NodeTable) (name : String) : Option DesignElement :=
  t.elements.find? fun e => e.name == some name

end NodeTable

end Verilog
