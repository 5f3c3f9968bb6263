import Verilog.Grammar.Tree
import Verilog.Source.Kind
import Verilog.Source.Lexicon
import Verilog.Text.Literal

/-!
# Kinds and names of leaves

What a token becomes in a syntax tree: the kind of its leaf, and the name it has there.
-/

namespace Verilog

/-! ### Kinds of leaves

A token becomes a leaf of a kind that depends on the token and on the production it stands in:
operators have kinds only in expressions, where those that may stand before a single operand have
one kind there and another between operands. Tokens that only shape the tree become no leaf.
-/

namespace SourceKind

/-- The kind of leaf that a token is wherever it stands. -/
def leafKind? : SourceKind → Option NodeKind
  | .identifier => some .slStringConst
  | .escapedIdentifier => some .slStringConst
  | .systemIdentifier => some .slStringConst
  | .intConst => some .slIntConst
  | .basedNumber => some .slIntConst
  | .unbasedUnsized => some .slIntConst
  | .realConst => some .slRealConst
  | .stringLiteral => some .slStringLiteral
  | .plusEq => some .paAssignOpAdd
  | .minusEq => some .paAssignOpSub
  | .starEq => some .paAssignOpMult
  | .slashEq => some .paAssignOpDiv
  | .percentEq => some .paAssignOpModulo
  | .ampEq => some .paAssignOpBitwAnd
  | .pipeEq => some .paAssignOpBitwOr
  | .caretEq => some .paAssignOpBitwXor
  | .shlEq => some .paAssignOpBitwLeftShift
  | .shrEq => some .paAssignOpBitwRightShift
  | .aShlEq => some .paAssignOpArithShiftLeft
  | .aShrEq => some .paAssignOpArithShiftRight
  | .plusPlus => some .paIncDecPlusPlus
  | .minusMinus => some .paIncDecMinusMinus
  | .kwIf => some .paIf
  | .kwElse => some .paElse
  | .kwInterface => some .paInterface
  | .kwPrimitive => some .paPrimitive
  | .dotStar => some .paDotStar
  | .kwPosedge => some .paEdgePosedge
  | .kwNegedge => some .paEdgeNegedge
  | .kwAlways => some .paAlways
  | .kwAlwaysComb => some .paAlwaysComb
  | .kwAlwaysFf => some .paAlwaysFf
  | .kwAlwaysLatch => some .paAlwaysLatch
  | .kwWire => some .paNetTypeWire
  | .kwUwire => some .paNetTypeUwire
  | .kwTri => some .paNetTypeTri
  | .kwWand => some .paNetTypeWand
  | .kwWor => some .paNetTypeWor
  | .kwSupply0 => some .paNetTypeSupply0
  | .kwSupply1 => some .paNetTypeSupply1
  | .kwLogic => some .paIntVecTypeLogic
  | .kwReg => some .paIntVecTypeReg
  | .kwBit => some .paIntVecTypeBit
  | .kwInt => some .paIntegerAtomTypeInt
  | .kwInteger => some .paIntegerAtomTypeInteger
  | .kwByte => some .paIntegerAtomTypeByte
  | .kwShortint => some .paIntegerAtomTypeShortint
  | .kwLongint => some .paIntegerAtomTypeLongInt
  | .kwReal => some .paNonIntTypeReal
  | .kwString => some .paStringType
  | .kwSigned => some .paSigningSigned
  | .kwUnsigned => some .paSigningUnsigned
  | .kwInput => some .paPortDirInp
  | .kwOutput => some .paPortDirOut
  | .kwInout => some .paPortDirInout
  | .kwRef => some .paPortDirRef
  | _ => none

/-- The kind of leaf that a gate is. -/
def gateKind? : SourceKind → Option NodeKind
  | .kwAnd => some .paNInpGateAnd
  | .kwNand => some .paNInpGateNand
  | .kwOr => some .paNInpGateOr
  | .kwNor => some .paNInpGateNor
  | .kwXor => some .paNInpGateXor
  | .kwXnor => some .paNInpGateXnor
  | _ => none

/-- The kind of leaf that an operator is in an expression; `front` says whether it stands before
its operands. -/
def operatorKind? (front : Bool) : SourceKind → Option NodeKind
  | .plus => some (if front then .paUnaryPlus else .paBinOpPlus)
  | .minus => some (if front then .paUnaryMinus else .paBinOpMinus)
  | .amp => some (if front then .paUnaryBitwAnd else .paBinOpBitwAnd)
  | .pipe => some (if front then .paUnaryBitwOr else .paBinOpBitwOr)
  | .caret => some (if front then .paUnaryBitwXor else .paBinOpBitwXor)
  | .tildeAmp => some (if front then .paUnaryReductNand else .paBinOpReductNand)
  | .tildePipe => some (if front then .paUnaryReductNor else .paBinOpReductNor)
  | .tildeCaret => some (if front then .paUnaryReductXnor else .paBinOpBitwXnor)
  | .question => some .paQmark
  | .bang => some .paUnaryNot
  | .tilde => some .paUnaryTilda
  | .star => some .paBinOpMult
  | .slash => some .paBinOpDiv
  | .percent => some .paBinOpPercent
  | .starStar => some .paBinOpMultMult
  | .shl => some .paBinOpShiftLeft
  | .shr => some .paBinOpShiftRight
  | .aShl => some .paBinOpArithShiftLeft
  | .aShr => some .paBinOpArithShiftRight
  | .less => some .paBinOpLess
  | .lessEq => some .paBinOpLessEqual
  | .greater => some .paBinOpGreat
  | .greaterEq => some .paBinOpGreatEqual
  | .eqEq => some .paBinOpEquiv
  | .notEq => some .paBinOpNot
  | .caseEq => some .paBinOpFourStateLogicEqual
  | .caseNeq => some .paBinOpFourStateLogicNotEqual
  | .ampAmp => some .paBinOpLogicAnd
  | .pipePipe => some .paBinOpLogicOr
  | _ => none

end SourceKind

/-- Is the kind an expression? -/
def NodeKind.isExpression (k : NodeKind) : Bool := k == .paExpression || k == .paConstantExpression

/-- Is a token the first part of a tree? -/
def ParseTree.opensWith (t : ParseTree) (token : Nat) : Bool :=
  match t with
  | .node _ (.leaf first :: _) => first == token
  | _ => false

/-- Does a token stand before the operands of its expression? None in a tree that is no
expression. -/
def ParseTree.opensExpression? (t : ParseTree) (token : Nat) : Option Bool :=
  if t.kind?.any NodeKind.isExpression then some (t.opensWith token) else none

/-- The kind of leaf that a token is in a production; `front` says whether it comes first there. -/
def leafKindIn? (k : SourceKind) (production : NodeKind) (front : Bool) : Option NodeKind :=
  match k.leafKind? with
  | some kind => some kind
  | none =>
    if production.isExpression then k.operatorKind? front
    else
      match production with
      | .paGenvarIteration | .paOperatorAssignment | .paForStep =>
        if k = .equals then some .paAssignOpAssign else none
      | .paGateInstantiation => k.gateKind?
      | _ => none

/-! ### Names in a syntax tree

Names and literals are kept as what they stand for: an escaped name without its backslash and the
blank that ends it, a string decoded, a number as it is written.
-/

/-- The name that the text of a token is. -/
def identifierName (text : String) : String :=
  let s := text.toList
  String.ofList (trimRight (if s.head? == some '\\' then s.tail else s))

/-- The name of a leaf, if leaves of its kind have one. -/
def leafName? (kind : NodeKind) (text : String) : Option String :=
  match kind with
  | .slStringConst => some (identifierName text)
  | .slIntConst | .slRealConst => some (trimText text)
  | .slStringLiteral => some (Quoted.decode text)
  | _ => none

/-- The leaves directly below a node. -/
def ParseTree.ownLeaves (t : ParseTree) : List Nat :=
  t.children.filterMap fun
    | .leaf i => some i
    | .node _ _ => none

/-- The kind of the token at a position. -/
def kindAt (tokens : Array SourceToken) (i : Nat) : Option SourceKind := (tokens[i]?).map (·.kind)

/-- Is the token at a position a name? -/
def isNameAt (tokens : Array SourceToken) (i : Nat) : Bool :=
  (kindAt tokens i).any SourceKind.isIdentifier

/-- The token that names a declaration. A function or task is named by the last name before its
ports or its semicolon; a class, configuration or checker by the first name in it; anything else by
the first name directly below it. -/
def nameToken? (tokens : Array SourceToken) (t : ParseTree) : Option Nat :=
  match t.kind? with
  | some .paFunctionDeclaration | some .paTaskDeclaration =>
    let front := t.leaves.takeWhile fun i =>
      kindAt tokens i != some .leftParen && kindAt tokens i != some .semi
    (front.filter (isNameAt tokens)).getLast?
  | some .paClassDeclaration | some .paConfigDeclaration | some .paCheckerDeclaration =>
    t.leaves.find? (isNameAt tokens)
  | _ => t.ownLeaves.find? (isNameAt tokens)

/-- The name of a declaration. -/
def declaredName? (tokens : Array SourceToken) (t : ParseTree) : Option String :=
  ((nameToken? tokens t).bind (tokens[·]?)).map fun token => identifierName token.text

end Verilog
