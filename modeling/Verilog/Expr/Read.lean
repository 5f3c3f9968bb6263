import Verilog.Expr.Basic
import Verilog.Expr.Operator
import Verilog.Node.Extent
import Verilog.Node.Query
import Verilog.Text.Literal

/-!
# Expressions of a syntax tree

An expression is read off the nodes that give the tree its shape. What an expression node stands for
is seen from how many parts it has. A node that is no expression, or whose operator is unknown,
gives none, and is left out of what it is a part of.
-/

namespace Verilog

/-! ### Values of literals

The value of a constant is kept as a text that begins with its kind. A number of any base but ten
keeps its digits, so that unknown ones are not lost; a decimal number is kept as its value if it
fits 64 bits, and as its digits otherwise.
-/

/-- The value of an integer without a base. -/
def plainValue (s : List Char) : String :=
  match readDecimal s with
  | some n => s!"UINT:{n}"
  | none => "DEC:" ++ String.ofList s

/-- The value of an integer with a base; `spec` is what follows the quote and the sign letter. -/
def basedValue (s spec : List Char) : String :=
  match spec with
  | [] => "DEC:" ++ String.ofList s
  | base :: rest =>
    let digits := String.ofList (rest.filter (· != '_'))
    match base.toLower with
    | 'b' => "BIN:" ++ digits
    | 'o' => "OCT:" ++ digits
    | 'h' => "HEX:" ++ digits
    | 'd' =>
      match integerLiteral s with
      | some n => s!"UINT:{n}"
      | none => "DEC:" ++ digits
    | bit => "BIN:" ++ String.ofList [bit]

/-- The value of an integer literal. -/
def integerValue (s : List Char) : String :=
  match s.dropWhile (· != '\'') with
  | [] => plainValue s
  | _ :: rest => basedValue s (rest.dropWhile fun c => c == 's' || c == 'S')

/-! ### Parts and shapes -/

namespace NodeTable

/-- The name that the first nodes of a reference spell: scopes first, then names with dots between.
The first node that is neither ends it. -/
def referenceName (t : NodeTable) (ids : List NodeId) : String :=
  let front := ids.takeWhile fun id => t.kind id == .paClassScope || t.kind id == .slStringConst
  let scopes := (front.filter fun id => t.kind id == .paClassScope).map fun id =>
    t.nameText (t.child (t.child id)) ++ "::"
  let names := (front.filter fun id => t.kind id == .slStringConst).map t.nameText
  String.join scopes ++ ".".intercalate names

/-- The first part of the first select among the nodes of a reference. -/
def firstSelect? (t : NodeTable) (ids : List NodeId) : Option NodeId :=
  ((ids.find? fun id => t.kind id == .paSelect).map t.child).filter (· != 0)

/-- The value of a literal. -/
def literalValue (t : NodeTable) (id : NodeId) : String :=
  let text := t.nameText id
  match t.kind id with
  | .slIntConst => integerValue text.toList
  | .slRealConst => "REAL:" ++ text
  | _ => "STRING:" ++ text

variable (t : NodeTable) (read : NodeId → Option Expr)

/-- A reference; `read` reads the parts of its select. -/
def readReference (id : NodeId) (ids : List NodeId) : Expr :=
  let name := t.referenceName ids
  let range := t.range? id id
  match t.firstSelect? ids with
  | none => .name name range
  | some select =>
    if t.kind select == .paPartSelectRange then
      let bounds := t.shape select
      .slice name (bounds[0]?.bind read) (bounds[1]?.bind read) range
    else .element name (read (t.child select)) range

/-- An operation; `read` reads its operands. -/
def readOperation (id : NodeId) : Option Expr :=
  let operation (op : Option Operator) (ids : List NodeId) : Expr :=
    .operation op (ids.filterMap read) (t.range? id id)
  match t.shape id with
  | [only] => read only
  | [op, operand] =>
    (t.kind op).unaryOperator?.map fun op => operation (some op) [operand]
  | [left, op, right] => some (operation (t.kind op).binaryOperator? [left, right])
  | [condition, mark, yes, no] =>
    if t.kind mark == .paQmark then some (operation (some .condition) [condition, yes, no])
    else none
  | _ => none

/-- A step by one, up or down, before or after the value is taken. -/
def readStep (id : NodeId) : Option Expr :=
  let operation (op : Operator) (variable_ : NodeId) : Expr :=
    .operation (some op) ([variable_].filterMap read) (t.range? id id)
  match t.shape id with
  | [a, b] =>
    if t.kind b == .paIncDecPlusPlus then some (operation .postInc a)
    else if t.kind b == .paIncDecMinusMinus then some (operation .postDec a)
    else if t.kind a == .paIncDecPlusPlus then some (operation .preInc b)
    else if t.kind a == .paIncDecMinusMinus then some (operation .preDec b)
    else none
  | _ => none

/-- A call; `read` reads its arguments. -/
def readCall (id : NodeId) (system : Bool) (name : String) : Expr :=
  let arguments := t.childOf id .paListOfArguments
  if arguments = 0 then .call system name (t.range? id id)
  else .callWith system name ((t.shape arguments).filterMap read) (t.range? id id)

/-- An expression; `read` reads those below it. -/
def readNode (id : NodeId) : Option Expr :=
  match t.kind id with
  | .paExpression | .paConstantExpression => t.readOperation read id
  | .paPrimary | .paConstantPrimary | .paVariableLvalue | .paNetLvalue =>
    match t.shape id with
    | [] => none
    | first :: rest =>
      match t.kind first with
      | .slStringConst | .paClassScope => some (t.readReference read id (first :: rest))
      | _ => read first
  | .slStringConst => some (t.readReference read id [id])
  | .paPrimaryLiteral | .paStringValue => read (t.child id)
  | .slIntConst | .slRealConst | .slStringLiteral =>
    some (.constant (t.literalValue id) (t.range? id id))
  | .paConcatenation =>
    some (.operation (some .concat) ((t.shape id).filterMap read) (t.range? id id))
  | .paMultipleConcatenation =>
    some (.operation (some .multiConcat) ((t.shape id).filterMap read) (t.range? id id))
  | .paSystemTfCall =>
    some (t.readCall read id true
      (t.nameText (t.first (t.childOf id .paSystemTaskNames) .slStringConst)))
  | .paComplexFuncCall => some (t.readCall read id false (t.referenceName (t.shape id)))
  | .paGenvarIteration | .paOperatorAssignment | .paForStep => t.readStep read id
  | _ => none

end NodeTable

/-- The expression at a node, read at most `depth - 1` levels down. -/
def NodeTable.exprWithin (t : NodeTable) : (depth : Nat) → NodeId → Option Expr
  | 0, _ => none
  | depth + 1, id => if id = 0 then none else t.readNode (t.exprWithin depth) id

/-- The expression at a node. -/
def NodeTable.expr? (t : NodeTable) (id : NodeId) : Option Expr :=
  t.exprWithin (t.size + 1) id

end Verilog
