import Verilog.Expr.Read
import Verilog.Generate.Basic
import Verilog.Node.Extent

/-!
# Generate constructs of a syntax tree

Items that belong to no design, such as processes, give nothing. A block without `begin` and `end`
holds the one item it is made of.
-/

namespace Verilog

namespace NodeTable

variable (t : NodeTable)

/-- The name of a node; none if there is no node. -/
def nameIfAny (id : NodeId) : Option String := if id = 0 then none else some (t.nameText id)

/-- The assignments of an item, one for each net. -/
def netAssigns (item : NodeId) : List NetAssign :=
  (t.childrenOf item .paNetAssignment).map fun id =>
    let sides := t.shape id
    { left := sides[0]?.bind t.expr?, right := sides[1]?.bind t.expr?, range := t.range? id id }

/-- The node of the name of an instance. -/
def instanceName (id : NodeId) : NodeId :=
  t.childOf (t.childOf id .paNameOfInstance) .slStringConst

/-- The name of a gate. -/
def gateName? : NodeKind → Option String
  | .paNInpGateAnd => some "and"
  | .paNInpGateNand => some "nand"
  | .paNInpGateOr => some "or"
  | .paNInpGateNor => some "nor"
  | .paNInpGateXor => some "xor"
  | .paNInpGateXnor => some "xnor"
  | _ => none

/-- The name of the gate that an item is made of. -/
def gateOf? (item : NodeId) : Option String := ((t.shape item).head?.map t.kind).bind gateName?

/-- The modules that an item makes instances of. -/
def moduleInstances (item : NodeId) : List Instantiation :=
  let definition := t.nameText (t.childOf item .slStringConst)
  (t.childrenOf item .paHierarchicalInstance).map fun id =>
    { definition, name := some (t.nameText (t.instanceName id)), range := t.range? id id }

/-- The gates that an item makes instances of. -/
def gateInstances (item : NodeId) : List Instantiation :=
  let definition := (t.gateOf? item).getD ""
  (t.childrenOf item .paNInputGateInstance).map fun id =>
    { definition, name := t.nameIfAny (t.instanceName id), range := t.range? id id }

/-- The names that an item declares. -/
def declaredNames (item : NodeId) : List DeclaredName :=
  let declarations := (t.children item).filter fun id =>
    t.kind id == .paNetDeclAssignment || t.kind id == .paVariableDeclAssignment
  declarations.map fun id =>
    let name := t.childOf id .slStringConst
    { name := t.nameText name, range := t.range? name id }

/-- The first of some nodes that is of one of some kinds. -/
def firstOf? (ids : List NodeId) (kinds : List NodeKind) : Option NodeId :=
  ids.find? fun id => kinds.contains (t.kind id)

/-! ### Blocks -/

/-- The node between `begin` and `end` in a block, if the block has one. -/
def bracketed? (block : NodeId) : Option NodeId :=
  (t.shape block).head?.filter fun id => t.kind id == .paGenerateBeginEndBlock

/-- The label of a block. -/
def blockLabel? (block : NodeId) : Option String := do
  let inner ← t.bracketed? block
  let label ← (t.shape inner).head?
  if t.kind label == .slStringConst then some (t.nameText label) else none

/-- The nodes of the items of a block. -/
def blockItems (block : NodeId) : List NodeId :=
  match t.bracketed? block with
  | some inner =>
    (t.shape inner).filter fun id => t.kind id != .slStringConst && t.kind id != .paEndLabel
  | none => t.shape block

variable (read : NodeId → List GenerateItem)

/-- A block; `read` reads its items. -/
def readBlock (block : NodeId) : GenerateBlock :=
  .mk (t.blockLabel? block) (t.range? block block) ((t.blockItems block).flatMap read)

/-! ### Constructs -/

/-- A region: its items, under the label of its first block. -/
def readRegion (id : NodeId) : GenerateConstruct :=
  let items := t.shape id
  let first := items.head?.getD id
  .region (t.place id) (t.range? id id)
    (.mk (t.blockLabel? first) (t.range? first first) (items.flatMap read))

/-- A conditional construct. -/
def readConditional (id inner : NodeId) : GenerateConstruct :=
  let parts := t.shape inner
  let hasElse := parts.any fun part => t.kind part == .paElse
  let condition := (t.firstOf? parts [.paConstantExpression, .paExpression]).bind t.expr?
  let blocks := parts.filter fun part => t.kind part == .paGenerateBlock
  match hasElse, blocks with
  | true, [yes, no] =>
    .ifElse (t.place id) (t.place inner) (t.range? (parts.head?.getD inner) no) condition
      (t.readBlock read yes) (t.readBlock read no)
  | _, _ =>
    let body := match blocks with
      | block :: _ => t.readBlock read block
      | [] => .mk none (t.range? inner inner) []
    .ifOnly (t.place id) (t.place inner) (t.range? id id)
      (if hasElse then .malformed else .complete) condition body

/-- A branch of a case construct. -/
def readBranch (id : NodeId) : CaseBranch :=
  let parts := t.shape id
  let values := parts.filter fun part => t.kind part == .paConstantExpression
  .mk (values.filterMap t.expr?) (t.range? id id)
    ((t.firstOf? parts [.paGenerateBlock]).map (t.readBlock read))

/-- A case construct. -/
def readChoice (id inner : NodeId) : GenerateConstruct :=
  let parts := t.shape inner
  let branches := parts.filter fun part => t.kind part == .paCaseGenerateItem
  .choice (t.place id) (t.place inner) (t.range? inner inner) (parts.head?.bind t.expr?)
    (branches.map (t.readBranch read))

/-- How a loop begins. -/
def readLoopStart (id : NodeId) : LoopStart :=
  let parts := t.shape id
  { variable_ := parts[0]?.map fun v => { name := t.nameText v, range := t.range? v v }
    value := parts[1]?.bind t.expr?
    range := t.range? id id }

/-- What a loop does after each turn. -/
def readLoopStep (id : NodeId) : LoopStep :=
  match t.shape id with
  | [left, operator, right] =>
    match (t.kind operator).assignmentOperator? with
    | some op => .assign op (t.expr? left) (t.expr? right) (t.range? id id)
    | none => .malformed (t.kind operator) (t.expr? left) (t.place id)
  | _ => .expr (t.expr? id)

/-- A loop. -/
def readLoop (id inner : NodeId) : GenerateConstruct :=
  let parts := t.shape inner
  let start := t.firstOf? parts [.paGenvarDeclAssignment, .paGenvarInitialization]
  .loop (t.place id) (t.place inner) (t.range? inner inner) (start.map t.readLoopStart)
    ((t.firstOf? parts [.paConstantExpression]).bind t.expr?)
    ((t.firstOf? parts [.paGenvarIteration]).map t.readLoopStep)
    ((t.firstOf? parts [.paGenerateBlock]).map (t.readBlock read))

/-- The construct at a node; `read` reads the items of its blocks. -/
def readConstruct (id : NodeId) : GenerateConstruct :=
  let kind := t.kind id
  let inner := if kind == .paConditionalGenerateConstruct then (t.shape id).head?.getD 0 else id
  if kind == .paGenerateRegion then t.readRegion read id
  else
    match t.kind inner with
    | .paIfGenerateConstruct => t.readConditional read id inner
    | .paCaseGenerateConstruct => t.readChoice read id inner
    | .paLoopGenerateConstruct => t.readLoop read id inner
    | _ => .unsupported (t.place id) kind

/-- What a node gives as an item of a block; `read` reads items further down. -/
def readItem (id : NodeId) : List GenerateItem :=
  match t.kind id with
  | .paGenerateBlock => [.splice ((t.blockItems id).flatMap read)]
  | .paGenerateRegion | .paConditionalGenerateConstruct | .paLoopGenerateConstruct =>
    [.construct (t.readConstruct read id)]
  | .paContinuousAssign => (t.netAssigns id).map .assign
  | .paModuleInstantiation => (t.moduleInstances id).map .instantiate
  | .paGateInstantiation => (t.gateInstances id).map .instantiate
  | .paNetDeclaration | .paDataDeclaration => (t.declaredNames id).map .declare
  | _ => []

end NodeTable

/-- What a node gives as an item of a block, with constructs at most `depth - 1` levels down. -/
def NodeTable.itemsWithin (t : NodeTable) : (depth : Nat) → NodeId → List GenerateItem
  | 0, _ => []
  | depth + 1, id => t.readItem (t.itemsWithin depth) id

/-- The generate construct at a node. -/
def NodeTable.construct (t : NodeTable) (id : NodeId) : GenerateConstruct :=
  t.readConstruct (t.itemsWithin (t.size + 1)) id

end Verilog
