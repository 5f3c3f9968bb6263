import Verilog.Ir.Kind

/-!
# The objects of a compiled design

A compiled design is an arena of objects that refer to one another by number. An object has a kind,
perhaps a name, a parent and a place, and parts: single objects and lists of objects, each under the
role it plays. Lists stand in an arena of their own and are referred to by number as well.

Objects and lists are only ever added and filled in, so a number, once given out, keeps its meaning.
-/

namespace Verilog

/-- The number of an object. -/
abbrev ObjectId := Nat

/-- The number of a list of objects. -/
abbrev ListId := Nat

/-- A stretch of a source file. -/
structure SourceRange where
  file : String
  line : Nat
  column : Nat
  endLine : Nat
  endColumn : Nat
  deriving DecidableEq, Repr

/-- The role of an object that is part of another. -/
inductive PartRole where
  | statement | elseStatement | condition | left | right | increment | leftBound | rightBound
  | index
  deriving DecidableEq, Repr

namespace PartRole

/-- All roles, in the order in which parts are shown. -/
def all : List PartRole :=
  [statement, elseStatement, condition, left, right, increment, leftBound, rightBound, index]

/-- The name a role is shown under. -/
def name : PartRole → String
  | statement => "stmt"
  | elseStatement => "else_stmt"
  | condition => "condition"
  | left => "lhs"
  | right => "rhs"
  | increment => "for_inc_stmt"
  | leftBound => "left_range"
  | rightBound => "right_range"
  | index => "index"

end PartRole

/-- The role of a list of objects that are parts of another. -/
inductive ListRole where
  | statements | matches | inits | items | operands | generates | arguments
  deriving DecidableEq, Repr

namespace ListRole

/-- All roles, in the order in which lists are shown. -/
def all : List ListRole :=
  [statements, .matches, inits, items, operands, generates, arguments]

/-- The name a role is shown under. -/
def name : ListRole → String
  | statements => "stmts"
  | .matches => "exprs"
  | inits => "for_init_stmts"
  | items => "case_items"
  | operands => "operands"
  | generates => "gen_stmts"
  | arguments => "tf_call_args"

end ListRole

/-- An object of a design. -/
structure DesignObject where
  kind : ObjectKind
  name : Option String := none
  /-- The name of the definition that the object is or refers to. -/
  definition : Option String := none
  parent : Option ObjectId := none
  range : Option SourceRange := none
  parts : List (PartRole × ObjectId) := []
  lists : List (ListRole × ListId) := []
  operator : Option Operator := none
  value : Option String := none
  deriving DecidableEq, Repr

/-- An entry under a role, which takes the place of an earlier one. -/
def setRole {ρ : Type} [DecidableEq ρ] (role : ρ) (n : Nat) : List (ρ × Nat) → List (ρ × Nat)
  | [] => [(role, n)]
  | e :: es => if e.1 = role then (role, n) :: es else e :: setRole role n es

namespace DesignObject

/-- The part in a role. -/
def part? (o : DesignObject) (role : PartRole) : Option ObjectId :=
  (o.parts.find? (·.1 == role)).map (·.2)

/-- The list in a role. -/
def list? (o : DesignObject) (role : ListRole) : Option ListId :=
  (o.lists.find? (·.1 == role)).map (·.2)

/-- Puts a part in a role. -/
def withPart (o : DesignObject) (role : PartRole) (id : ObjectId) : DesignObject :=
  { o with parts := setRole role id o.parts }

/-- Puts a list in a role. -/
def withList (o : DesignObject) (role : ListRole) (id : ListId) : DesignObject :=
  { o with lists := setRole role id o.lists }

end DesignObject

/-- The objects and lists of a compiled design. -/
structure Ir where
  objects : Array DesignObject := #[]
  lists : Array (List ObjectId) := #[]
  deriving DecidableEq, Repr

namespace Ir

/-- The number of objects. -/
def size (ir : Ir) : Nat := ir.objects.size

/-- The object with a number. -/
def object? (ir : Ir) (id : ObjectId) : Option DesignObject := ir.objects[id]?

/-- The members of the list with a number. -/
def members (ir : Ir) (id : ListId) : List ObjectId := (ir.lists[id]?).getD []

/-- Adds an object and gives its number. -/
def add (ir : Ir) (o : DesignObject) : ObjectId × Ir :=
  (ir.objects.size, { ir with objects := ir.objects.push o })

/-- Changes the object with a number. -/
def modify (ir : Ir) (id : ObjectId) (f : DesignObject → DesignObject) : Ir :=
  { ir with objects := ir.objects.modify id f }

/-- Puts a part in a role of an object. -/
def setPart (ir : Ir) (id : ObjectId) (role : PartRole) (part : ObjectId) : Ir :=
  ir.modify id fun o => o.withPart role part

/-- Puts a list in a role of an object. -/
def setList (ir : Ir) (id : ObjectId) (role : ListRole) (list : ListId) : Ir :=
  ir.modify id fun o => o.withList role list

/-- Adds an empty list and gives its number. -/
def addList (ir : Ir) : ListId × Ir :=
  (ir.lists.size, { ir with lists := ir.lists.push [] })

/-- Adds an object to the end of a list. -/
def push (ir : Ir) (list : ListId) (id : ObjectId) : Ir :=
  { ir with lists := ir.lists.modify list fun ids => ids ++ [id] }

/-- Adds objects to the end of a list. -/
def pushAll (ir : Ir) (list : ListId) (ids : List ObjectId) : Ir :=
  ids.foldl (fun ir id => ir.push list id) ir

/-- Adds a list of objects and gives its number. -/
def addListOf (ir : Ir) (ids : List ObjectId) : ListId × Ir :=
  let (list, ir) := ir.addList
  (list, ir.pushAll list ids)

end Ir

end Verilog
