import Verilog.Ir.Basic

/-!
# Expressions

An expression of a design: constants, names with at most one select, operations and calls. Parts
that cannot be read as expressions are left out.
-/

namespace Verilog

/-- An expression. -/
inductive Expr where
  /-- A constant, with the text of its value. -/
  | constant (value : String) (range : Option SourceRange)
  /-- A name, hierarchical or in a package. -/
  | name (name : String) (range : Option SourceRange)
  /-- One element of something that has a name. -/
  | element (name : String) (index : Option Expr) (range : Option SourceRange)
  /-- A stretch of elements of something that has a name. -/
  | slice (name : String) (left right : Option Expr) (range : Option SourceRange)
  /-- An operator with its operands; it may be one that has no meaning in a design. -/
  | operation (operator : Option Operator) (operands : List Expr) (range : Option SourceRange)
  /-- The call of a function, of the system or of the design. -/
  | call (system : Bool) (name : String) (range : Option SourceRange)
  /-- A call with arguments in parentheses. -/
  | callWith (system : Bool) (name : String) (arguments : List Expr) (range : Option SourceRange)
  deriving Repr

/-! ### Expressions as objects

An expression becomes an object, and each of its parts another one, with the first as its parent.
Objects are added from the outside in and from left to right; the list of operands or arguments is
added before the first of them.
-/

namespace Ir

/-- Adds the object of an expression, its parts left aside. -/
def addHead (ir : Ir) (e : Expr) (parent : Option ObjectId) : ObjectId × Ir :=
  ir.add <| match e with
    | .constant value range => { kind := .constant, parent, range, value := some value }
    | .name name range => { kind := .reference, parent, range, name := some name }
    | .element name _ range => { kind := .bitSelect, parent, range, name := some name }
    | .slice name _ _ range => { kind := .partSelect, parent, range, name := some name }
    | .operation operator _ range => { kind := .operation, parent, range, operator }
    | .call system name range | .callWith system name _ range =>
      { kind := if system then .systemCall else .functionCall, parent, range, name := some name }

mutual

/-- Adds an expression and gives the number of its object. -/
def addExpr (parent : Option ObjectId) : Expr → Ir → ObjectId × Ir
  | .element name index range, ir =>
    let (id, ir) := ir.addHead (.element name index range) parent
    (id, addPart id .index index ir)
  | .slice name left right range, ir =>
    let (id, ir) := ir.addHead (.slice name left right range) parent
    (id, addPart id .rightBound right (addPart id .leftBound left ir))
  | .operation operator operands range, ir =>
    let (id, ir) := ir.addHead (.operation operator operands range) parent
    let (list, ir) := ir.addList
    (id, (addMembers id list operands ir).setList id .operands list)
  | .callWith system name arguments range, ir =>
    let (id, ir) := ir.addHead (.callWith system name arguments range) parent
    let (list, ir) := ir.addList
    (id, (addMembers id list arguments ir).setList id .arguments list)
  | .constant value range, ir => ir.addHead (.constant value range) parent
  | .name name range, ir => ir.addHead (.name name range) parent
  | .call system name range, ir => ir.addHead (.call system name range) parent

/-- Adds a part of an object, if there is one. -/
def addPart (owner : ObjectId) (role : PartRole) : Option Expr → Ir → Ir
  | none, ir => ir
  | some e, ir =>
    let (id, ir) := addExpr (some owner) e ir
    ir.setPart owner role id

/-- Adds parts of an object to one of its lists. -/
def addMembers (owner : ObjectId) (list : ListId) : List Expr → Ir → Ir
  | [], ir => ir
  | e :: es, ir =>
    let (id, ir) := addExpr (some owner) e ir
    addMembers owner list es (ir.push list id)

end

end Ir

end Verilog
