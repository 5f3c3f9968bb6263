import Verilog.Source.Grammar.Statement

/-!
# Items

The items of modules and their like: declarations, processes, instances and generate constructs. A
faulty item is given up for the next place from which one can be read; failing that, it is kept as
an opaque stretch. Neither goes past a word that closes a list of items or opens a description.
-/

namespace Verilog

namespace SourceGrammar

open Grammar

/-- An item, wherever one stands after some other token. -/
def item : SourceGrammar := ref .item

/-! ### Declarations -/

/-- The declaration of ports of one direction. -/
def directionDeclaration (k : SourceKind) (kind : NodeKind) : SourceGrammar :=
  rule kind [token k, opt (oneOf netTypes), opt (token .kwVar),
    typed (node .paListOfPortIdentifiers
      (commaList 1 (seq identifier (many 0 unpackedDimension))))]

/-- The declaration of ports that the head only names. -/
def portDeclaration : SourceGrammar :=
  rule .paPortDeclaration [
    choice [
      directionDeclaration .kwInput .paInputDeclaration,
      directionDeclaration .kwOutput .paOutputDeclaration,
      directionDeclaration .kwInout .paInoutDeclaration],
    token .semi]

/-- The declaration of parameters. -/
def parameterDeclaration (k : SourceKind) (kind : NodeKind) : SourceGrammar :=
  rule kind [token k, typed (commaList 1 (declared .paParamAssignment (expression true))),
    token .semi]

/-- The declaration of nets. -/
def netDeclaration : SourceGrammar :=
  rule .paNetDeclaration [oneOf netTypes,
    typed (commaList 1 (declared .paNetDeclAssignment (expression false))), token .semi]

/-- The declaration of variables. -/
def dataDeclaration : SourceGrammar :=
  rule .paDataDeclaration [
    many 0 (oneOf [.kwConst, .kwVar, .kwStatic, .kwAutomatic]), dataType,
    commaList 1 (declared .paVariableDeclAssignment (expression false)), token .semi]

/-- A name by itself. -/
def bareName : SourceGrammar :=
  rule .paDataDeclaration [node .paVariableDeclAssignment identifier, token .semi]

/-- Assignments that hold at all times. -/
def continuousAssign : SourceGrammar :=
  rule .paContinuousAssign [
    token .kwAssign,
    commaList 1 (rule .paNetAssignment
      [node .paNetLvalue lvalue, token .equals, expression false]),
    token .semi]

/-! ### Instances -/

/-- The parameters of an instance. -/
def parameterValues : SourceGrammar :=
  let named := rule .paNamedParameterAssignment
    [token .dot, identifier, parens [opt (expression false)]]
  rule .paParameterValueAssignment [token .hash, alt
    (parens [alt (commaList 1 named)
      (commaList 0 (node .paOrderedParameterAssignment (expression false)))])
    (oneOf numbers)]

/-- What the ports of an instance are connected to. -/
def connections : SourceGrammar :=
  let named := node .paNamedPortConnection (alt (token .dotStar)
    (all [token .dot, identifier, opt (parens [opt (expression false)])]))
  node .paListOfPortConnections (alt (commaList 1 named)
    (commaList 0 (node .paOrderedPortConnection (expression false))))

/-- Instances of a module. -/
def moduleInstantiation : SourceGrammar :=
  rule .paModuleInstantiation [
    identifier, opt parameterValues,
    commaList 1 (rule .paHierarchicalInstance
      [rule .paNameOfInstance [identifier, many 0 unpackedDimension], parens [connections]]),
    token .semi]

/-- Instances of a gate. -/
def gateInstantiation : SourceGrammar :=
  rule .paGateInstantiation [
    oneOf gates,
    commaList 1 (rule .paNInputGateInstance
      [opt (node .paNameOfInstance identifier), parens [commaList 1 (expression false)]]),
    token .semi]

/-! ### Modports -/

/-- A port seen through a modport. -/
def modportPort : SourceGrammar :=
  node .paModportSimplePort
    (alt (all [token .dot, identifier, parens [opt (expression false)]]) identifier)

/-- Groups the entries of a modport: a direction holds for the ports up to the next direction. An
entry is a port, a port after its direction, or a clocking block after its keyword. -/
def groupModportEntries : List ParseTree → List ParseTree
  | [] => []
  | .leaf k :: .leaf n :: more =>
    .node .paModportPortsDeclaration [.node .paModportClockingDeclaration [.leaf k, .leaf n]] ::
      groupModportEntries more
  | .leaf d :: more =>
    let ports := more.takeWhile (·.kind?.isSome)
    .node .paModportPortsDeclaration
      [.node .paModportSimplePortsDeclaration (.leaf d :: ports)] ::
      groupModportEntries (more.drop ports.length)
  | port :: more =>
    let ports := more.takeWhile (·.kind?.isSome)
    .node .paModportPortsDeclaration
      [.node .paModportSimplePortsDeclaration (port :: ports)] ::
      groupModportEntries (more.drop ports.length)
  termination_by trees => trees.length

/-- The views an interface offers. -/
def modportDeclaration : SourceGrammar :=
  let entry := alt (seq (token .kwClocking) identifier)
    (seq (opt (oneOf directions)) modportPort)
  rule .paModportDeclaration [
    token .kwModport,
    commaList 1 (rule .paModportItem
      [identifier, parens [map groupModportEntries (commaList 0 entry)]]),
    token .semi]

/-! ### Generate constructs -/

/-- Items in a block. -/
def generateBeginEnd : SourceGrammar :=
  rule .paGenerateBeginEndBlock [
    opt (seq identifier (token .colon)), token .kwBegin, blockLabel, many 0 item, token .kwEnd,
    endLabel]

/-- A block or a single item. -/
def generateBlock : SourceGrammar := node .paGenerateBlock (alt generateBeginEnd item)

/-- Items that are there under a condition. -/
def ifGenerate : SourceGrammar :=
  rule .paIfGenerateConstruct [
    token .kwIf, parens [expression true], generateBlock,
    opt (seq (token .kwElse) generateBlock)]

/-- Items that are chosen by a value. -/
def caseGenerate : SourceGrammar :=
  rule .paCaseGenerateConstruct [
    token .kwCase, parens [expression true],
    many 1 (rule .paCaseGenerateItem [caseLabels true, generateBlock]), token .kwEndcase]

/-- Items that are there a number of times. -/
def loopGenerate : SourceGrammar :=
  let start := alt
    (rule .paGenvarDeclAssignment
      [token .kwGenvar, identifier, token .equals, expression true])
    (rule .paGenvarInitialization [identifier, token .equals, expression true])
  let step := node .paGenvarIteration (choice [
    all [identifier, oneOf assignmentOperators, expression true],
    seq identifier (oneOf stepOperators),
    seq (oneOf stepOperators) identifier])
  rule .paLoopGenerateConstruct [
    token .kwFor, token .leftParen, start, token .semi, expression true, token .semi, step,
    token .rightParen, generateBlock]

/-- A region of generate constructs. -/
def generateRegion : SourceGrammar :=
  rule .paGenerateRegion [
    token .kwGenerate, many 0 (alt (node .paGenerateBlock generateBeginEnd) item),
    token .kwEndgenerate]

/-! ### Items -/

/-- An item without faults. -/
def soundItem : SourceGrammar :=
  choice [
    portDeclaration,
    parameterDeclaration .kwParameter .paParameterDeclaration,
    parameterDeclaration .kwLocalparam .paLocalParameterDeclaration,
    rule .paTypeDeclaration [token .kwTypedef, opaqueStatement, token .semi],
    rule .paPackageImportDeclaration [token .kwImport, opaqueStatement, token .semi],
    rule .paGenvarDeclaration [token .kwGenvar, commaList 1 identifier, token .semi],
    netDeclaration,
    continuousAssign,
    rule .paInitialConstruct [token .kwInitial, statement],
    rule .paAlwaysConstruct [
      node .paAlwaysKeyword (oneOf [.kwAlways, .kwAlwaysComb, .kwAlwaysFf, .kwAlwaysLatch]),
      statement],
    generateRegion,
    node .paConditionalGenerateConstruct (alt ifGenerate caseGenerate),
    loopGenerate,
    modportDeclaration,
    opaqueConstruct .paClockingDeclaration [opt (token .kwDefault), token .kwClocking]
      .kwEndclocking,
    opaqueConstruct .paFunctionDeclaration [token .kwFunction] .kwEndfunction,
    opaqueConstruct .paTaskDeclaration [token .kwTask] .kwEndtask,
    opaqueConstruct .paClassDeclaration [opt (token .kwVirtual), token .kwClass] .kwEndclass,
    moduleInstantiation,
    gateInstantiation,
    dataDeclaration,
    bareName,
    token .semi]

/-- An item, or what is kept of a faulty one. -/
def itemBody : SourceGrammar :=
  unlessAt itemStops (skipTo itemStops .paOpaqueBody (retry itemStops soundItem))

end SourceGrammar

end Verilog
