import Verilog.Source.Grammar.Basic

/-!
# Expressions

An expression is a tower of levels, one for each precedence of the binary operators, over operands
with unary operators before them; the conditional operator stands on top. Binary operators of one
level associate to the left, the conditional operator to the right. Where a constant is asked for,
the same expressions are read and only the kinds of their nodes differ.
-/

namespace Verilog

namespace SourceGrammar

open Grammar

/-- The kind of an expression. -/
def expressionKind (constant : Bool) : NodeKind :=
  if constant then .paConstantExpression else .paExpression

/-- The kind of an operand. -/
def primaryKind (constant : Bool) : NodeKind :=
  if constant then .paConstantPrimary else .paPrimary

/-- An expression, wherever one stands after some other token. -/
def expression (constant : Bool) : SourceGrammar := ref (.expression constant)

/-! ### Operands -/

/-- Items in braces. -/
def concatenation (constant : Bool) : SourceGrammar :=
  rule .paConcatenation
    [token .leftBrace, commaList 1 (expression constant), token .rightBrace]

/-- Items in braces, a number of times. -/
def multipleConcatenation (constant : Bool) : SourceGrammar :=
  rule .paMultipleConcatenation
    [token .leftBrace, expression constant, concatenation constant, token .rightBrace]

/-- Bits chosen out of a value: single ones, or from one to another. -/
def select (constant : Bool) : SourceGrammar :=
  let part := rule .paPartSelectRange [expression constant, token .colon, expression constant]
  let bit := node .paBitSelect (expression constant)
  opt (node .paSelect
    (many 1 (all [token .leftBracket, alt part bit, token .rightBracket])))

/-- The scope a name is looked up in. -/
def scope : SourceGrammar :=
  rule .paClassScope [node .paClassType identifier, token .colonColon]

/-- A name, perhaps in a scope, with members and selected bits. -/
def reference (constant : Bool) : SourceGrammar :=
  all [opt scope, identifier, many 0 (seq (token .dot) identifier), select constant]

/-- The arguments of a call. -/
def callArguments (constant : Bool) : SourceGrammar :=
  parens [node .paListOfArguments (commaList 0 (expression constant))]

/-- The call of a system task or function. -/
def systemCall (constant : Bool) : SourceGrammar :=
  rule .paSystemTfCall
    [node .paSystemTaskNames (token .systemIdentifier), opt (callArguments constant)]

/-- A number or a string. -/
def literal : SourceGrammar :=
  node .paPrimaryLiteral (alt (oneOf numbers) (node .paStringValue (token .stringLiteral)))

/-- An operand without unary operators. -/
def primary (constant : Bool) : SourceGrammar :=
  node (primaryKind constant) (choice [
    multipleConcatenation constant,
    concatenation constant,
    systemCall constant,
    rule .paComplexFuncCall [identifier, callArguments constant],
    reference constant,
    literal,
    parens [expression constant]])

/-- An operand with at least one unary operator before it. -/
def unary (constant : Bool) : SourceGrammar :=
  rule (expressionKind constant)
    [oneOf unaryOperators, alt (ref (.unary constant)) (primary constant)]

/-- An operand. -/
def operand (constant : Bool) : SourceGrammar :=
  alt (unary constant) (node (expressionKind constant) (primary constant))

/-! ### Levels of binary operators -/

/-- Groups an operand and the pairs of operator and operand after it to the left. -/
def groupLeft (kind : NodeKind) : List ParseTree → List ParseTree
  | left :: operator :: right :: more =>
    groupLeft kind (.node kind [left, operator, right] :: more)
  | trees => trees
  termination_by trees => trees.length

/-- The operators of the levels, from the tightest to the loosest. -/
def binaryLevels : List (List SourceKind) := [
  [.starStar], [.star, .slash, .percent], [.plus, .minus], [.shl, .shr, .aShl, .aShr],
  [.less, .lessEq, .greater, .greaterEq], [.eqEq, .notEq, .caseEq, .caseNeq],
  [.amp, .tildeAmp], [.caret, .tildeCaret], [.pipe, .tildePipe], [.ampAmp], [.pipePipe]]

/-- A level: operands of the next tighter one with operators between. -/
def binaryLevel (constant : Bool) (tighter : SourceGrammar) (operators : List SourceKind) :
    SourceGrammar :=
  map (groupLeft (expressionKind constant))
    (seq tighter (many 0 (seq (oneOf operators) tighter)))

/-- An expression without conditional operators outside of brackets. -/
def binary (constant : Bool) : SourceGrammar :=
  binaryLevels.foldl (binaryLevel constant) (operand constant)

/-- What the levels keep of the operands holds of an expression. -/
theorem binary_induction {P : SourceGrammar → Prop} {constant : Bool}
    (operand : P (operand constant))
    (level : ∀ tighter operators, P tighter → P (binaryLevel constant tighter operators)) :
    P (binary constant) :=
  List.foldlRecOn binaryLevels (binaryLevel constant) operand fun tighter h operators _ =>
    level tighter operators h

/-- Wraps a condition and the branches after it, if there are any. -/
def wrapConditional (kind : NodeKind) : List ParseTree → List ParseTree
  | [condition] => [condition]
  | trees => [.node kind trees]

/-- A whole expression. -/
def conditional (constant : Bool) : SourceGrammar :=
  map (wrapConditional (expressionKind constant)) <| seq (binary constant) <| opt <| all
    [token .question, expression constant, token .colon, expression constant]

end SourceGrammar

end Verilog
