/-!
# Kinds of design objects

The objects of a compiled design are of a fixed set of kinds, and an operation among them has one of
a fixed set of operators. Operators are numbered as in the procedural interface of the language, so
the numbers have gaps.
-/

namespace Verilog

/-- The kind of a design object. -/
inductive ObjectKind where
  | moduleInstance | interfaceInstance | primitiveDefinition | modport | generateRegion | generateIf
  | generateIfElse | generateCase | generateFor | block | caseItem | assignment | operation
  | constant | reference | declared | moduleReference | continuousAssign | range | functionCall
  | systemCall | bitSelect | partSelect
  deriving DecidableEq, Repr

namespace ObjectKind

/-- All kinds. -/
def all : List ObjectKind :=
  [moduleInstance, interfaceInstance, primitiveDefinition, modport, generateRegion, generateIf,
    generateIfElse, generateCase, generateFor, block, caseItem, assignment, operation, constant,
    reference, declared, moduleReference, continuousAssign, range, functionCall, systemCall,
    bitSelect, partSelect]

/-- The name a kind is shown under. -/
def name : ObjectKind → String
  | moduleInstance => "module_inst"
  | interfaceInstance => "interface_inst"
  | primitiveDefinition => "udp_defn"
  | modport => "modport"
  | generateRegion => "gen_region"
  | generateIf => "gen_if"
  | generateIfElse => "gen_if_else"
  | generateCase => "gen_case"
  | generateFor => "gen_for"
  | block => "begin"
  | caseItem => "case_item"
  | assignment => "assignment"
  | operation => "operation"
  | constant => "constant"
  | reference => "ref_obj"
  | declared => "variable"
  | moduleReference => "ref_module"
  | continuousAssign => "cont_assign"
  | range => "range"
  | functionCall => "func_call"
  | systemCall => "sys_func_call"
  | bitSelect => "bit_select"
  | partSelect => "part_select"

end ObjectKind

/-- The operator of an operation. -/
inductive Operator where
  | minus | plus | not | bitNeg | reduceAnd | reduceNand | reduceOr | reduceNor | reduceXor
  | reduceXnor | sub | div | mod | eq | neq | caseEq | caseNeq | gt | ge | lt | le | shiftLeft
  | shiftRight | add | mult | logAnd | logOr | bitAnd | bitOr | bitXor | bitXnor | condition
  | concat | multiConcat | arithShiftLeft | arithShiftRight | power | postInc | postDec | preInc
  | preDec | assignment
  deriving DecidableEq, Repr

namespace Operator

/-- All operators. -/
def all : List Operator :=
  [minus, plus, not, bitNeg, reduceAnd, reduceNand, reduceOr, reduceNor, reduceXor, reduceXnor,
    sub, div, mod, eq, neq, caseEq, caseNeq, gt, ge, lt, le, shiftLeft, shiftRight, add, mult,
    logAnd, logOr, bitAnd, bitOr, bitXor, bitXnor, condition, concat, multiConcat, arithShiftLeft,
    arithShiftRight, power, postInc, postDec, preInc, preDec, assignment]

/-- The name an operator is shown under. -/
def name : Operator → String
  | minus => "Minus"
  | plus => "Plus"
  | not => "Not"
  | bitNeg => "BitNeg"
  | reduceAnd => "UnaryAnd"
  | reduceNand => "UnaryNand"
  | reduceOr => "UnaryOr"
  | reduceNor => "UnaryNor"
  | reduceXor => "UnaryXor"
  | reduceXnor => "UnaryXNor"
  | sub => "Sub"
  | div => "Div"
  | mod => "Mod"
  | eq => "Eq"
  | neq => "Neq"
  | caseEq => "CaseEq"
  | caseNeq => "CaseNeq"
  | gt => "Gt"
  | ge => "Ge"
  | lt => "Lt"
  | le => "Le"
  | shiftLeft => "LShift"
  | shiftRight => "RShift"
  | add => "Add"
  | mult => "Mult"
  | logAnd => "LogAnd"
  | logOr => "LogOr"
  | bitAnd => "BitAnd"
  | bitOr => "BitOr"
  | bitXor => "BitXor"
  | bitXnor => "BitXNor"
  | condition => "Condition"
  | concat => "Concat"
  | multiConcat => "MultiConcat"
  | arithShiftLeft => "ArithLShift"
  | arithShiftRight => "ArithRShift"
  | power => "Power"
  | postInc => "PostInc"
  | postDec => "PostDec"
  | preInc => "PreInc"
  | preDec => "PreDec"
  | assignment => "Assignment"

/-- The number of an operator. -/
def code : Operator → Nat
  | minus => 1
  | plus => 2
  | not => 3
  | bitNeg => 4
  | reduceAnd => 5
  | reduceNand => 6
  | reduceOr => 7
  | reduceNor => 8
  | reduceXor => 9
  | reduceXnor => 10
  | sub => 11
  | div => 12
  | mod => 13
  | eq => 14
  | neq => 15
  | caseEq => 16
  | caseNeq => 17
  | gt => 18
  | ge => 19
  | lt => 20
  | le => 21
  | shiftLeft => 22
  | shiftRight => 23
  | add => 24
  | mult => 25
  | logAnd => 26
  | logOr => 27
  | bitAnd => 28
  | bitOr => 29
  | bitXor => 30
  | bitXnor => 31
  | condition => 32
  | concat => 33
  | multiConcat => 34
  | arithShiftLeft => 41
  | arithShiftRight => 42
  | power => 43
  | postInc => 62
  | postDec => 63
  | preInc => 64
  | preDec => 65
  | assignment => 82

end Operator

end Verilog
