import Verilog.Design.Ports
import Verilog.Design.Precompiled
import Verilog.Generate.Compile
import Verilog.Generate.Read
import Verilog.Syntax.File

/-!
# Designs

A design is made of the definitions, packages, programs and classes of a list of files. The first
definition of a name is kept; a later one is reported and left out. Of each definition the
continuous assignments and generate constructs are compiled into objects.
-/

namespace Verilog

/-- What a list of files makes up; names are those of libraries and elements. -/
structure Design where
  definitions : OrderedMap String Definition := {}
  packages : OrderedMap String (NodeTable × NodeId) := {}
  programs : OrderedMap String (NodeTable × NodeId) := {}
  classes : OrderedMap String (NodeTable × NodeId) := {}
  /-- The packages that come precompiled. -/
  precompiled : List String := []

/-- The part of a name behind the last of some separators. -/
def lastPart (separators : List Char) (name : String) : String :=
  String.ofList (name.toList.reverse.takeWhile fun c => !separators.contains c).reverse

/-- The gates that are used below a node, each once. -/
def gatesOf (t : NodeTable) (root : NodeId) : List String :=
  ((t.collect root .paGateInstantiation).filterMap t.gateOf?).eraseDups

/-- Is the node a generate construct that stands among the items of a component? -/
def NodeKind.isGenerate : NodeKind → Bool
  | .paGenerateRegion | .paConditionalGenerateConstruct | .paLoopGenerateConstruct => true
  | _ => false

namespace Compiling

/-- Compiles generate constructs below an object, and gives the objects they became. -/
def addConstructs (component : String) (parent : ObjectId) :
    List GenerateConstruct → Compiling (List ObjectId)
  | [] => return []
  | c :: cs => do
    let ids ← addConstruct component parent c
    let more ← addConstructs component parent cs
    return ids ++ more

/-- Compiles the continuous assignments of a definition. -/
def addAssigns (d : Definition) (assigns : List NetAssign) : Compiling Definition := do
  let ids ← onIr (Ir.addNetAssigns d.object assigns)
  if ids.isEmpty then return d
  else
    let list ← onIr fun ir => ir.addListOf ids
    return d.withHandle .assigns list

/-- Compiles the generate constructs of a definition. -/
def addGenerates (d : Definition) (constructs : List GenerateConstruct) : Compiling Unit := do
  let ids ← addConstructs d.name d.object constructs
  if !ids.isEmpty then
    let list ← onIr fun ir => ir.addListOf ids
    change fun ir => ir.setList d.object .generates list

/-- Compiles the definition that a node declares. -/
def addDefinition (name : String) (t : NodeTable) (root : NodeId) : Compiling Definition := do
  let d ← onIr (Definition.declare name t root)
  let d := { d with ports := portsOf name t root, signals := signalsOf name t root }
  let d ← onIr (d.addModports t root)
  let items := t.shape root
  let assigns := items.filter fun id => t.kind id == .paContinuousAssign
  let d ← addAssigns d (assigns.flatMap t.netAssigns)
  addGenerates d ((items.filter fun id => (t.kind id).isGenerate).map t.construct)
  return d

/-- Adds definitions for gates that have none yet. -/
def addGates (design : Design) : List String → Compiling Design
  | [] => return design
  | gate :: gates => do
    if design.definitions.contains gate then addGates design gates
    else
      let d ← onIr (Definition.builtIn gate)
      addGates { design with definitions := design.definitions.insert gate d } gates

/-- Adds a module, an interface or a primitive, unless there is one of its name. -/
def addComponent (design : Design) (t : NodeTable) (name : String) (node : NodeId) :
    Compiling Design := do
  if design.definitions.contains name then
    report (.duplicateDefinition name) (t.place node)
      s!"{name} is already defined, keeping the first definition"
    return design
  else
    let d ← addDefinition name t node
    let design ← addGates design (gatesOf t node)
    return { design with definitions := design.definitions.insert name d }

end Compiling

namespace Design

/-- Adds a package. -/
def addPackage (design : Design) (t : NodeTable) (name : String) (node : NodeId) : Design :=
  let known := PrecompiledPackages.standard
  let isKnown := known.hasPackage (lastPart ['@'] name) &&
    (t.fileOf node).any known.hasFile
  { design with
    precompiled := if isKnown then design.precompiled ++ [name] else design.precompiled
    packages := design.packages.insert name (t, node) }

/-- Adds a class, also to the definition it is declared in. -/
def addClass (design : Design) (t : NodeTable) (name : String) (e : DesignElement) : Design :=
  let design := { design with classes := design.classes.insert name (t, e.node) }
  match e.parent.bind (t.elements[·]?) with
  | none => design
  | some owner =>
    let short := lastPart ['.', '@'] name
    { design with
      definitions := design.definitions.modify (nameText owner.name) fun d =>
        { d with classes := d.classes.insert short e.node } }

end Design

namespace Compiling

/-- Adds a design element. -/
def addElement (t : NodeTable) (design : Design) (e : DesignElement) : Compiling Design :=
  let name := nameText e.name
  match e.kind with
  | .module | .interface | .primitive => addComponent design t name e.node
  | .package => return design.addPackage t name e.node
  | .program => return { design with programs := design.programs.insert name (t, e.node) }
  | .classType => return design.addClass t name e
  | _ => return design

/-- Adds design elements one after the other. -/
def addElements (t : NodeTable) : List DesignElement → Design → Compiling Design
  | [], design => return design
  | e :: es, design => do addElements t es (← addElement t design e)

/-- Adds the design elements of files one after the other. -/
def addFiles : List SourceFile → Design → Compiling Design
  | [], design => return design
  | f :: fs, design => do addFiles fs (← addElements f.nodes f.nodes.elements.toList design)

end Compiling

/-- The design that files make up, and its objects. -/
def compileDesign (files : List SourceFile) : Reporting (Design × Ir) := fun session =>
  match Compiling.addFiles files {} { session, limit := Compilation.defaultLimit } with
  | .ok design c => .ok (design, c.ir) c.session
  | .error e c => .error e c.session

end Verilog
