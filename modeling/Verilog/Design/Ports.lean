import Verilog.Design.Definition

/-!
# Ports, signals and modports of a definition

Ports are declared in the header, or named there and declared in the body. A port of the header
without a direction has that of the port before it; a declaration in the body gives the port of its
name its direction and type, or makes a port if there is none of that name.
-/

namespace Verilog

namespace NodeKind

/-- Is the kind a direction? -/
def isDirection : NodeKind → Bool
  | .paPortDirInp | .paPortDirOut | .paPortDirInout | .paPortDirRef => true
  | _ => false

/-- Is the kind a type of net? -/
def isNetType : NodeKind → Bool
  | .paNetTypeWire | .paNetTypeUwire | .paNetTypeTri | .paNetTypeWand | .paNetTypeWor
  | .paNetTypeSupply0 | .paNetTypeSupply1 => true
  | _ => false

end NodeKind

/-- The signal that a declaration declares: its type is that of the node `owner`, its unpacked
dimensions are those of `node`. -/
def declaredSignal (component : String) (t : NodeTable) (owner node nameNode : NodeId)
    (direction : NodeKind) : Signal :=
  let dataType := t.childOf owner .paDataType
  let typeNode := t.child dataType
  let unpacked := t.childOf node .paUnpackedDimension
  let base : Signal := { component, nodes := t, node, nameNode, unpacked, direction }
  if dataType != 0 then
    match t.kind typeNode with
    | .slStringConst | .paClassScope => { base with typeName := typeNode }
    | kind =>
      { base with
        netType := kind
        packed := t.childOf dataType .paPackedDimension
        signed := (t.children owner ++ t.children dataType).any fun id =>
          t.kind id == .paSigningSigned }
  else
    { base with
      netType := (((t.children owner).map t.kind).find? NodeKind.isNetType).getD .slNoType
      packed := t.childOf owner .paPackedDimension
      signed := (t.children owner).any fun id => t.kind id == .paSigningSigned }

/-- The port that a declaration of the header declares, and the direction that holds from it on. -/
def headerPort (component : String) (t : NodeTable) (direction : NodeKind) (id : NodeId) :
    Signal × NodeKind :=
  let nameNode := t.childOf id .slStringConst
  let interface := t.childOf id .paInterfacePortHeader
  if interface != 0 then
    ({ component, nodes := t, node := id, nameNode, typeName := t.child interface
       unpacked := t.childOf id .paUnpackedDimension }, direction)
  else
    let direction := (((t.children id).map t.kind).find? NodeKind.isDirection).getD direction
    (declaredSignal component t id id nameNode direction, direction)

/-- The ports that declarations of the header declare. -/
def headerPorts (component : String) (t : NodeTable) : NodeKind → List NodeId → List Signal
  | _, [] => []
  | direction, id :: ids =>
    let (port, direction) := headerPort component t direction id
    port :: headerPorts component t direction ids

/-- The port that is only named in the header. -/
def namedPort (component : String) (t : NodeTable) (id : NodeId) : Signal :=
  { component, nodes := t, node := id, nameNode := t.childOf id .slStringConst }

/-- Gives a port what a declaration in the body says of it. -/
def Signal.declaredAs (port declared : Signal) (node : NodeId) : Signal :=
  { port with
    direction := declared.direction, netType := declared.netType, signed := declared.signed
    netNode := node, netNameNode := declared.nameNode }

/-- Gives the first port of a name what a declaration in the body says of it. -/
def declarePort (declared : Signal) (node : NodeId) : List Signal → List Signal
  | [] => [declared]
  | port :: ports =>
    if port.name = declared.name then port.declaredAs declared node :: ports
    else port :: declarePort declared node ports

/-- The direction of the ports that a node of the body declares. -/
def bodyDirection : NodeKind → NodeKind
  | .paInputDeclaration => .paPortDirInp
  | .paOutputDeclaration => .paPortDirOut
  | _ => .paPortDirInout

/-- The ports after a declaration in the body. -/
def declarePorts (component : String) (t : NodeTable) (ports : List Signal) (item : NodeId) :
    List Signal :=
  match t.shape item with
  | [] => ports
  | declaration :: _ =>
    let direction := bodyDirection (t.kind declaration)
    let names := t.childOf declaration .paListOfPortIdentifiers
    (t.childrenOf names .slStringConst).foldl (fun ports nameNode =>
      declarePort (declaredSignal component t declaration names nameNode direction) declaration
        ports) ports

/-- The ports of the component that a node declares. -/
def portsOf (component : String) (t : NodeTable) (root : NodeId) : List Signal :=
  let header := t.childrenOf (t.childOf root .paListOfPortDeclarations) .paAnsiPortDeclaration
  let named := t.childrenOf (t.childOf root .paListOfPorts) .paPort
  let ports := headerPorts component t .paPortDirInout header ++
    named.map (namedPort component t)
  (t.childrenOf root .paPortDeclaration).foldl (declarePorts component t) ports

/-- The nets and variables of the component that a node declares. -/
def signalsOf (component : String) (t : NodeTable) (root : NodeId) : List Signal :=
  (t.shape root).flatMap fun item =>
    let declarations := match t.kind item with
      | .paNetDeclaration => t.childrenOf item .paNetDeclAssignment
      | .paDataDeclaration => t.childrenOf item .paVariableDeclAssignment
      | _ => []
    declarations.map fun id =>
      declaredSignal component t item id (t.childOf id .slStringConst) .slNoType

/-! ### Modports -/

/-- What an item of a modport names. -/
inductive ModportEntry where
  | port (s : Signal)
  | clocking (b : ClockingBlock)

/-- The ports among the parts of a group, each with the last direction before it. -/
def modportPorts (component : String) (t : NodeTable) :
    NodeKind → List NodeId → List ModportEntry × NodeKind
  | direction, [] => ([], direction)
  | direction, part :: parts =>
    let kind := t.kind part
    if kind.isDirection then modportPorts component t kind parts
    else
      let (entries, last) := modportPorts component t direction parts
      if kind == .paModportSimplePort then
        let nameNode := t.childOf part .slStringConst
        let port : Signal := { component, nodes := t, node := part, nameNode, direction }
        (.port port :: entries, last)
      else (entries, last)

/-- What the groups of a modport name. -/
def modportEntries (component : String) (t : NodeTable) : NodeKind → List NodeId → List ModportEntry
  | _, [] => []
  | direction, id :: ids =>
    match t.shape id with
    | [] => modportEntries component t direction ids
    | group :: _ =>
      match t.kind group with
      | .paModportSimplePortsDeclaration =>
        let (entries, direction) := modportPorts component t direction (t.shape group)
        entries ++ modportEntries component t direction ids
      | .paModportClockingDeclaration =>
        .clocking ⟨t.nameText (t.childOf group .slStringConst), group⟩ ::
          modportEntries component t direction ids
      | _ => modportEntries component t direction ids

namespace Definition

/-- Adds what an item of a modport names to the modport. -/
def addEntry (name : String) (item : NodeId) (acc : Definition × Ir) (e : ModportEntry) :
    Definition × Ir :=
  match e with
  | .port s => acc.1.addModportPort name s item acc.2
  | .clocking b => (acc.1.addClockingBlock name b, acc.2)

/-- Adds the modport of an item. -/
def addModportItem (t : NodeTable) (acc : Definition × Ir) (item : NodeId) : Definition × Ir :=
  let name := t.nameText (t.childOf item .slStringConst)
  let groups := t.childrenOf item .paModportPortsDeclaration
  (modportEntries acc.1.name t .slNoType groups).foldl (addEntry name item) acc

/-- Adds the modports that are declared below a node. -/
def addModports (d : Definition) (t : NodeTable) (root : NodeId) (ir : Ir) : Definition × Ir :=
  let items := (t.childrenOf root .paModportDeclaration).flatMap fun id =>
    t.childrenOf id .paModportItem
  items.foldl (addModportItem t) (d, ir)

end Definition

end Verilog
