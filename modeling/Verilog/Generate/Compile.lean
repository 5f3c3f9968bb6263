import Verilog.Generate.Basic
import Verilog.Expr.Basic
import Verilog.Session

/-!
# Generate constructs as objects

Constructs are added to a design from the outside in and in the order of the source. Constructs that
are nested more deeply than a limit are reported and left out; regions and blocks count as levels of
their own. A condition that is missing is reported, and the construct stands without it.
-/

namespace Verilog

/-- The state of compiling: the session, the design so far, and how deep the work is nested. -/
structure Compilation where
  session : Session
  ir : Ir := {}
  depth : Nat := 0
  limit : Nat

namespace Compilation

/-- The depth up to which constructs are compiled. -/
def defaultLimit : Nat := 64

/-- Goes one level down. -/
def enter (c : Compilation) : Compilation := { c with depth := c.depth + 1 }

/-- Goes one level up. -/
def leave (c : Compilation) : Compilation := { c with depth := c.depth - 1 }

/-- Is the work nested too deeply? -/
def tooDeep (c : Compilation) : Bool := c.limit < c.depth

end Compilation

/-- A step of compiling. -/
abbrev Compiling := Step Compilation

namespace Compiling

/-- A step on the design. -/
def onIr {α : Type} (f : Ir → α × Ir) : Compiling α :=
  modifyGet fun c => let (a, ir) := f c.ir; (a, { c with ir })

/-- A change of the design. -/
def change (f : Ir → Ir) : Compiling Unit := modify fun c => { c with ir := f c.ir }

/-- Reports a diagnostic. -/
def report (kind : DiagnosticKind) (place : FilePlace) (message : String) : Compiling Unit :=
  Step.onPart (·.session) (fun session c => { c with session })
    (Verilog.report { kind, message, place := some place })

/-- A step one level down; the level is left however the step ends. -/
def nested {α : Type} (x : Compiling α) : Compiling α := fun c =>
  match x c.enter with
  | .ok a c => .ok a c.leave
  | .error e c => .error e c.leave

/-- Adds an expression below an object, and puts it in a role. -/
def addPart (owner : ObjectId) (role : PartRole) (e : Option Expr) : Compiling Unit :=
  change (Ir.addPart owner role e)

/-- Adds the condition of a construct, or reports that there is none. -/
def addCondition (owner : ObjectId) (place : FilePlace) (e : Option Expr) : Compiling Unit := do
  match e with
  | some e => addPart owner .condition (some e)
  | none => report .missingCondition place "generate construct without a usable condition"

end Compiling

namespace Ir

/-- Adds an assignment of a net. -/
def addNetAssign (parent : ObjectId) (a : NetAssign) (ir : Ir) : ObjectId × Ir :=
  let (id, ir) := ir.add { kind := .continuousAssign, parent, range := a.range }
  (id, addPart id .right a.right (addPart id .left a.left ir))

/-- Adds assignments of nets. -/
def addNetAssigns (parent : ObjectId) : List NetAssign → Ir → List ObjectId × Ir
  | [], ir => ([], ir)
  | a :: as, ir =>
    let (id, ir) := ir.addNetAssign parent a
    let (ids, ir) := addNetAssigns parent as ir
    (id :: ids, ir)

/-- Adds an instance. -/
def addInstantiation (parent : ObjectId) (i : Instantiation) (ir : Ir) : ObjectId × Ir :=
  ir.add { kind := .moduleReference, parent, definition := some i.definition, name := i.name,
           range := i.range }

/-- Adds a declared name. -/
def addDeclared (parent : ObjectId) (d : DeclaredName) (ir : Ir) : ObjectId × Ir :=
  ir.add { kind := .declared, parent, name := some d.name, range := d.range }

/-- Adds the beginning of a loop. -/
def addLoopStart (loop : ObjectId) (s : LoopStart) (ir : Ir) : Ir :=
  let (assign, ir) := ir.add { kind := .assignment, parent := loop, range := s.range }
  let ir := match s.variable_ with
    | some v =>
      let (id, ir) := ir.addDeclared assign v
      ir.setPart assign .left id
    | none => ir
  let (list, ir) := (addPart assign .right s.value ir).addListOf [assign]
  ir.setList loop .inits list

end Ir

namespace Compiling

/-- Adds what a loop does after each turn. -/
def addLoopStep (loop : ObjectId) (s : LoopStep) : Compiling Unit := do
  match s with
  | .assign operator left right range =>
    let id ← onIr fun ir =>
      ir.add { kind := .assignment, parent := loop, range, operator := some operator }
    addPart id .left left
    addPart id .right right
    change fun ir => ir.setPart loop .increment id
  | .malformed operator left place =>
    let name := operator.name
    report .malformedIncrement place s!"unexpected operator {name} in generate loop increment"
    addPart loop .increment left
  | .expr e => addPart loop .increment e

/-- A step that compiles a construct; one that is nested too deeply is reported instead. -/
def unlessTooDeep (component : String) (place : FilePlace) (x : Compiling (List ObjectId)) :
    Compiling (List ObjectId) :=
  nested do
    if (← get).tooDeep then
      report .loopDepth place s!"generate constructs of {component} nested too deeply"
      return []
    else x

/-- Adds a block object below an object. -/
def addBlockHead (parent : ObjectId) (label : Option String) (range : Option SourceRange) :
    Compiling ObjectId :=
  onIr fun ir => ir.add { kind := .block, parent, range, name := label }

/-- Puts a block that a step adds below an object as its statement. -/
def addStatement (owner : ObjectId) (block : Compiling ObjectId) : Compiling Unit := do
  let id ← block
  change fun ir => ir.setPart owner .statement id

/-- Gives a block the statements that a step adds to a list, one level down. -/
def fillBlock (block : ObjectId) (items : ListId → Compiling Unit) : Compiling Unit := do
  let list ← onIr Ir.addList
  nested (items list)
  change fun ir => ir.setList block .statements list

mutual

/-- Adds a block below an object. -/
def addBlock (component : String) (parent : ObjectId) : GenerateBlock → Compiling ObjectId
  | .mk label range items => do
    let block ← addBlockHead parent label range
    fillBlock block fun list => addItems component block list items
    return block

/-- Adds the block of a construct, if there is one, as its statement. -/
def addBody (component : String) (owner : ObjectId) : Option GenerateBlock → Compiling Unit
  | none => return
  | some body => addStatement owner (addBlock component owner body)

/-- Adds items below an object, and to a list. -/
def addItems (component : String) (parent : ObjectId) (list : ListId) :
    List GenerateItem → Compiling Unit
  | [] => return
  | item :: items => do
    addItem component parent list item
    addItems component parent list items

/-- Adds an item below an object, and to a list. -/
def addItem (component : String) (parent : ObjectId) (list : ListId) :
    GenerateItem → Compiling Unit
  | .assign a => do
    let id ← onIr (Ir.addNetAssign parent a)
    change fun ir => ir.push list id
  | .instantiate i => do
    let id ← onIr (Ir.addInstantiation parent i)
    change fun ir => ir.push list id
  | .declare d => do
    let id ← onIr (Ir.addDeclared parent d)
    change fun ir => ir.push list id
  | .splice items => do
    let inner ← onIr Ir.addList
    nested (addItems component parent inner items)
    change fun ir => ir.pushAll list (ir.members inner)
  | .construct c => do
    let ids ← addConstruct component parent c
    change fun ir => ir.pushAll list ids

/-- Adds the branches of a case construct, and to a list. -/
def addBranches (component : String) (parent : ObjectId) (list : ListId) :
    List CaseBranch → Compiling Unit
  | [] => return
  | branch :: branches => do
    addBranch component parent list branch
    addBranches component parent list branches

/-- Adds a branch of a case construct, and to a list. -/
def addBranch (component : String) (parent : ObjectId) (list : ListId) :
    CaseBranch → Compiling Unit
  | .mk values range body => do
    let id ← onIr fun ir => ir.add { kind := .caseItem, parent, range }
    change fun ir => ir.push list id
    let inner ← onIr Ir.addList
    change fun ir => (Ir.addMembers id inner values (ir.setList id .matches inner))
    addBody component id body

/-- Adds a construct below an object. -/
def addConstruct (component : String) (parent : ObjectId) :
    GenerateConstruct → Compiling (List ObjectId)
  | .region place range (.mk label blockRange items) => unlessTooDeep component place do
    let id ← onIr fun ir => ir.add { kind := .generateRegion, parent, range }
    let block ← addBlockHead id label blockRange
    change fun ir => ir.setPart id .statement block
    fillBlock block fun list => addItems component block list items
    return [id]
  | .ifElse place inner range condition yes no => unlessTooDeep component place do
    let id ← onIr fun ir => ir.add { kind := .generateIfElse, parent, range }
    addCondition id inner condition
    addStatement id (addBlock component id yes)
    let other ← addBlock component id no
    change fun ir => ir.setPart id .elseStatement other
    return [id]
  | .ifOnly place inner range shape condition body => unlessTooDeep component place do
    if shape = .malformed then
      report .unknownGenerateConstruct inner
        "malformed if-generate, lowered without its else branch"
    let id ← onIr fun ir => ir.add { kind := .generateIf, parent, range }
    addCondition id inner condition
    addStatement id (addBlock component id body)
    return [id]
  | .choice place inner range selector branches => unlessTooDeep component place do
    let id ← onIr fun ir => ir.add { kind := .generateCase, parent, range }
    addCondition id inner selector
    let list ← onIr Ir.addList
    change fun ir => ir.setList id .items list
    addBranches component id list branches
    return [id]
  | .loop place inner range start condition step body => unlessTooDeep component place do
    let id ← onIr fun ir => ir.add { kind := .generateFor, parent, range }
    match start with
    | some s => change (Ir.addLoopStart id s)
    | none => pure ()
    addCondition id inner condition
    match step with
    | some s => addLoopStep id s
    | none => pure ()
    addBody component id body
    return [id]
  | .unsupported place kind => unlessTooDeep component place do
    let name := kind.name
    report .unknownGenerateConstruct place s!"unsupported generate construct {name}"
    return []

end

end Compiling

end Verilog
