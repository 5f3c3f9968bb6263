import Verilog.Diagnostic.Basic
import Verilog.Expr.Basic
import Verilog.Node.Kind

/-!
# Generate constructs

What stands in a generate region, as far as it belongs to a design: assignments, instances, declared
names, and further constructs, whose blocks hold the same again. Every construct keeps the place at
which it is to be reported.
-/

namespace Verilog

/-- A continuous assignment of one net. -/
structure NetAssign where
  left : Option Expr
  right : Option Expr
  range : Option SourceRange

/-- An instance of a module or of a gate. -/
structure Instantiation where
  definition : String
  name : Option String
  range : Option SourceRange

/-- A name that is declared. -/
structure DeclaredName where
  name : String
  range : Option SourceRange

/-- How a loop begins: a value for its variable. -/
structure LoopStart where
  variable_ : Option DeclaredName
  value : Option Expr
  range : Option SourceRange

/-- What a loop does after each turn. -/
inductive LoopStep where
  /-- An assignment with an operator. -/
  | assign (operator : Operator) (left right : Option Expr) (range : Option SourceRange)
  /-- An operator that assigns nothing; only the variable is kept. -/
  | malformed (operator : NodeKind) (left : Option Expr) (place : FilePlace)
  | expr (e : Option Expr)

/-- What can be missing from a conditional construct. -/
inductive ConditionalShape where
  | complete
  /-- There is an `else`, but not two blocks. -/
  | malformed
  deriving DecidableEq, Repr

mutual

/-- A block of items; it may have a label. -/
inductive GenerateBlock where
  | mk (label : Option String) (range : Option SourceRange) (items : List GenerateItem)

/-- A branch of a case construct; without expressions it is taken where no other is. -/
inductive CaseBranch where
  | mk (values : List Expr) (range : Option SourceRange) (body : Option GenerateBlock)

/-- An item of a block. -/
inductive GenerateItem where
  | assign (a : NetAssign)
  | instantiate (i : Instantiation)
  | declare (d : DeclaredName)
  /-- A block in a block, whose items count as items of the outer one. -/
  | splice (items : List GenerateItem)
  | construct (c : GenerateConstruct)

/-- A construct. The first place is that of the construct among the items of its block, the second
that of its inner node, which is reported where a condition is missing. -/
inductive GenerateConstruct where
  | region (place : FilePlace) (range : Option SourceRange) (body : GenerateBlock)
  | ifElse (place inner : FilePlace) (range : Option SourceRange) (condition : Option Expr)
      (yes no : GenerateBlock)
  | ifOnly (place inner : FilePlace) (range : Option SourceRange) (shape : ConditionalShape)
      (condition : Option Expr) (body : GenerateBlock)
  | choice (place inner : FilePlace) (range : Option SourceRange) (selector : Option Expr)
      (branches : List CaseBranch)
  | loop (place inner : FilePlace) (range : Option SourceRange) (start : Option LoopStart)
      (condition : Option Expr) (step : Option LoopStep) (body : Option GenerateBlock)
  /-- A node that is no generate construct. -/
  | unsupported (place : FilePlace) (kind : NodeKind)

end

/-- The place of a construct. -/
def GenerateConstruct.place : GenerateConstruct → FilePlace
  | region p .. | ifElse p .. | ifOnly p .. | choice p .. | loop p .. | unsupported p .. => p

end Verilog
