import Verilog.Ir.Kind
import Verilog.Node.Kind

/-!
# Operators of leaves

The kind of an operator leaf says already whether it stands before its operand or between two, so
the operator it denotes is read off the kind.
-/

namespace Verilog

namespace NodeKind

/-- The operator of an assignment. A plain assignment has an operator of its own. -/
def assignmentOperator? : NodeKind → Option Operator
  | .paAssignOpAssign => some .assignment
  | .paAssignOpAdd => some .add
  | .paAssignOpSub => some .sub
  | .paAssignOpMult => some .mult
  | .paAssignOpDiv => some .div
  | .paAssignOpModulo => some .mod
  | .paAssignOpBitwAnd => some .bitAnd
  | .paAssignOpBitwOr => some .bitOr
  | .paAssignOpBitwXor => some .bitXor
  | .paAssignOpBitwLeftShift => some .shiftLeft
  | .paAssignOpBitwRightShift => some .shiftRight
  | .paAssignOpArithShiftLeft => some .arithShiftLeft
  | .paAssignOpArithShiftRight => some .arithShiftRight
  | _ => none

/-- The operator that a leaf before its operand denotes. -/
def unaryOperator? : NodeKind → Option Operator
  | .paUnaryPlus => some .plus
  | .paUnaryMinus => some .minus
  | .paUnaryNot => some .not
  | .paUnaryTilda => some .bitNeg
  | .paUnaryBitwAnd => some .reduceAnd
  | .paUnaryReductNand => some .reduceNand
  | .paUnaryBitwOr => some .reduceOr
  | .paUnaryReductNor => some .reduceNor
  | .paUnaryBitwXor => some .reduceXor
  | .paUnaryReductXnor => some .reduceXnor
  | _ => none

/-- The operator that a leaf between two operands denotes. -/
def binaryOperator? : NodeKind → Option Operator
  | .paBinOpPlus => some .add
  | .paBinOpMinus => some .sub
  | .paBinOpMult => some .mult
  | .paBinOpDiv => some .div
  | .paBinOpPercent => some .mod
  | .paBinOpMultMult => some .power
  | .paBinOpEquiv => some .eq
  | .paBinOpNot => some .neq
  | .paBinOpFourStateLogicEqual => some .caseEq
  | .paBinOpFourStateLogicNotEqual => some .caseNeq
  | .paBinOpGreat => some .gt
  | .paBinOpGreatEqual => some .ge
  | .paBinOpLess => some .lt
  | .paBinOpLessEqual => some .le
  | .paBinOpShiftLeft => some .shiftLeft
  | .paBinOpShiftRight => some .shiftRight
  | .paBinOpArithShiftLeft => some .arithShiftLeft
  | .paBinOpArithShiftRight => some .arithShiftRight
  | .paBinOpLogicAnd => some .logAnd
  | .paBinOpLogicOr => some .logOr
  | .paBinOpBitwAnd => some .bitAnd
  | .paBinOpBitwOr => some .bitOr
  | .paBinOpBitwXor => some .bitXor
  | .paBinOpBitwXnor => some .bitXnor
  | _ => none

end NodeKind

end Verilog
