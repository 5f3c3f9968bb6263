import Verilog.Collection.OrderedMap
import Verilog.Node.Extent

/-!
# Definitions and signals

A definition is a module, an interface or a primitive, with its ports, signals and modports, and the
object that stands for it in the design. A gate has a definition too, which no file holds.

A signal is a port, net or variable of a component. It is known by the nodes that declare it, in the
tree of its file; its name and the name of its type are read off that tree.
-/

namespace Verilog

/-! ### Signals -/

/-- A port, net or variable. -/
structure Signal where
  /-- The component it belongs to. -/
  component : String
  /-- The tree of the file it is declared in. -/
  nodes : NodeTable
  node : NodeId
  nameNode : NodeId
  /-- The node of the net it stands for; its own node unless the net is declared apart. -/
  netNode : NodeId := node
  netNameNode : NodeId := nameNode
  /-- The name of its type, if that is an interface or comes from a package. -/
  typeName : NodeId := 0
  packed : NodeId := 0
  unpacked : NodeId := 0
  /-- The type of net or variable; `slNoType` if none is written. -/
  netType : NodeKind := .slNoType
  /-- The direction; `slNoType` if it has none. -/
  direction : NodeKind := .slNoType
  signed : Bool := false

namespace Signal

/-- The name of a signal. -/
def name (s : Signal) : String := s.nodes.nameText s.nameNode

/-- The name of the net it stands for. -/
def netName (s : Signal) : String := s.nodes.nameText s.netNameNode

/-- Does its type have a name? -/
def hasTypeName (s : Signal) : Bool := s.typeName != 0

/-- The node that selects a modport of its type, if there is one. -/
def modportNode (s : Signal) : NodeId :=
  let select := s.nodes.sibling s.typeName
  if s.hasTypeName && s.nodes.kind select == .slStringConst then select else 0

/-- The modport that may be named behind the name of an interface. -/
def selectedModport (t : NodeTable) (typeName : NodeId) : Option String :=
  let select := t.sibling typeName
  let modport := if t.kind select == .slStringConst then select else t.child select
  if select != 0 && t.kind modport == .slStringConst then some (t.nameText modport) else none

/-- The name of its type: a type in a package, or an interface, perhaps with a modport. -/
def typeText (s : Signal) : String :=
  let t := s.nodes
  if !s.hasTypeName then ""
  else if t.kind s.typeName == .paClassScope then
    t.nameText (t.child (t.child s.typeName)) ++ "::" ++ t.nameText (t.sibling s.typeName)
  else
    match selectedModport t s.typeName with
    | some modport => t.nameText s.typeName ++ "." ++ modport
    | none => t.nameText s.typeName

end Signal

/-! ### Definitions -/

/-- What a definition describes. -/
inductive DefinitionKind where
  | module | interface | primitive
  /-- A definition without a source. -/
  | unknown
  deriving DecidableEq, Repr

namespace DefinitionKind

/-- The name a kind is shown under. -/
def name : DefinitionKind → String
  | module => "Module"
  | interface => "Interface"
  | primitive => "Udp"
  | unknown => "Unknown"

/-- The kind of definition that a node is. -/
def ofNode : NodeKind → DefinitionKind
  | .paUdpDeclaration => primitive
  | .paInterfaceDeclaration => interface
  | _ => module

end DefinitionKind

/-- The lists of objects that a definition can refer to. -/
inductive HandleRole where
  | assigns | processes | parameters | assertions | parameterAssigns | declaredParameterAssigns
  | subroutines | subroutineDeclarations
  deriving DecidableEq, Repr

namespace HandleRole

/-- All roles in order. -/
def all : List HandleRole :=
  [assigns, processes, parameters, assertions, parameterAssigns, declaredParameterAssigns,
    subroutines, subroutineDeclarations]

end HandleRole

/-- A clocking block that a modport names. -/
structure ClockingBlock where
  name : String
  node : NodeId
  deriving DecidableEq, Repr

/-- A modport: a view of the signals of an interface. -/
structure Modport where
  /-- The definition it belongs to. -/
  parent : String
  name : String
  nodes : NodeTable
  node : NodeId
  object : ObjectId
  ports : List Signal := []

namespace Modport

/-- Are two modports declared as the same one in the same place? -/
def same (a b : Modport) : Bool :=
  a.parent == b.parent && a.name == b.name && a.nodes.file == b.nodes.file && a.node == b.node

end Modport

/-- A module, an interface, a primitive or a gate. -/
structure Definition where
  name : String
  /-- The nodes that declare it, each in the tree of its file. -/
  roots : List (NodeTable × NodeId) := []
  object : ObjectId
  modports : OrderedMap String Modport := {}
  clocking : OrderedMap String (List ClockingBlock) := {}
  /-- The classes declared in it. -/
  classes : OrderedMap String NodeId := {}
  ports : List Signal := []
  signals : List Signal := []
  handles : List (HandleRole × ListId) := []

namespace Definition

/-- The object of a definition, and the node of the word that opens it. -/
def headOf (kind : NodeKind) (name : String) : DesignObject × NodeKind :=
  let given := if name.isEmpty then none else some name
  match DefinitionKind.ofNode kind with
  | .primitive => ({ kind := .primitiveDefinition, definition := given }, .paPrimitive)
  | .interface => ({ kind := .interfaceInstance, name := given }, .paInterface)
  | _ => ({ kind := .moduleInstance, name := given }, .paModuleKeyword)

/-- The definition that a node declares, and its object. -/
def declare (name : String) (t : NodeTable) (root : NodeId) (ir : Ir) : Definition × Ir :=
  let (head, opening) := headOf (t.kind root) name
  let (object, ir) := ir.add { head with range := t.range? (t.first root opening) root }
  ({ name, roots := [(t, root)], object }, ir)

/-- A definition without a source, and its object. -/
def builtIn (name : String) (ir : Ir) : Definition × Ir :=
  let (object, ir) := ir.add { kind := .moduleInstance, definition := some name }
  ({ name, object }, ir)

variable (d : Definition)

/-- What the definition describes. -/
def kind : DefinitionKind :=
  match d.roots with
  | [] => .unknown
  | (t, root) :: _ => .ofNode (t.kind root)

/-- Can there be instances of it? -/
def isInstantiable : Bool := d.kind != .interface

/-- The number of nodes below those that declare it. -/
def size : Nat := d.roots.foldl (fun n r => n + ((r.1.preorder r.2).length - 1)) 0

/-- The first port with a name. -/
def port? (name : String) : Option Signal := d.ports.find? (·.name == name)

/-- The first signal with a name. -/
def signal? (name : String) : Option Signal := d.signals.find? (·.name == name)

/-- The list in a role. -/
def handle? (role : HandleRole) : Option ListId :=
  (d.handles.find? (·.1 == role)).map (·.2)

/-- Puts a list in a role. -/
def withHandle (role : HandleRole) (list : ListId) : Definition :=
  { d with handles := setRole role list d.handles }

/-- Makes the modport with a name, and its object. -/
def addModport (name : String) (t : NodeTable) (node : NodeId) (ir : Ir) : Definition × Ir :=
  let (object, ir) := ir.add {
    kind := .modport, name := some name, parent := some d.object, range := t.range? node node }
  let modport : Modport := { parent := d.name, name, nodes := t, node, object }
  ({ d with modports := d.modports.insert name modport }, ir)

/-- Adds a port to the modport with a name. The modport is made when its name comes for the first
time; in a definition without a source there is none. -/
def addModportPort (name : String) (s : Signal) (node : NodeId) (ir : Ir) : Definition × Ir :=
  let add (d : Definition) : Definition :=
    { d with modports := d.modports.modify name fun m => { m with ports := m.ports ++ [s] } }
  if d.modports.contains name then (add d, ir)
  else
    match d.roots with
    | [] => (d, ir)
    | (t, _) :: _ =>
      let (d, ir) := d.addModport name t node ir
      (add d, ir)

/-- The port of a modport that is declared at a node. -/
def modportPort? (modport : String) (node : NodeId) : Option Signal :=
  (d.modports.get? modport).bind fun m => m.ports.find? (·.node == node)

/-- The clocking blocks that a modport names. -/
def clockingBlocks (modport : String) : List ClockingBlock :=
  (d.clocking.get? modport).getD []

/-- Adds a clocking block to those that a modport names. -/
def addClockingBlock (modport : String) (b : ClockingBlock) : Definition :=
  { d with clocking := d.clocking.insert modport (d.clockingBlocks modport ++ [b]) }

/-- The clocking block of a modport that is declared at a node. -/
def clockingBlock? (modport : String) (node : NodeId) : Option ClockingBlock :=
  (d.clockingBlocks modport).find? (·.node == node)

end Definition

end Verilog
