import Verilog.Source.Grammar.Expression

/-!
# Types, names and ports

What a name can be declared with: dimensions before and after it, a data type or the parts of one
that may stand alone, and a value. Lists of ports and of parameters are built from these.
-/

namespace Verilog

namespace SourceGrammar

open Grammar

/-! ### Types -/

/-- The two ends of a range. -/
def constantRange : SourceGrammar :=
  rule .paConstantRange [expression true, token .colon, expression true]

/-- A dimension that is part of a type. -/
def packedDimension : SourceGrammar :=
  rule .paPackedDimension [token .leftBracket, constantRange, token .rightBracket]

/-- A dimension after a name: a range or a size. -/
def unpackedDimension : SourceGrammar :=
  rule .paUnpackedDimension
    [token .leftBracket, alt constantRange (expression true), token .rightBracket]

/-- Whether numbers of a type have a sign. -/
def signing : SourceGrammar := oneOf [.kwSigned, .kwUnsigned]

/-- A data type with a name of its own. -/
def dataType : SourceGrammar :=
  node .paDataType (choice [
    all [oneOf [.kwLogic, .kwReg, .kwBit], opt signing, many 0 packedDimension],
    seq (oneOf [.kwInt, .kwInteger, .kwByte, .kwShortint, .kwLongint]) (opt signing),
    oneOf [.kwReal, .kwString],
    all [scope, identifier, many 0 packedDimension],
    seq identifier (many 0 packedDimension)])

/-- Sign and dimensions without the name of a type. -/
def implicitType : SourceGrammar := seq (opt signing) (many 0 packedDimension)

/-- What follows a type, after one with or without a name. -/
def typed (a : SourceGrammar) : SourceGrammar := alt (seq dataType a) (seq implicitType a)

/-- A name with dimensions and perhaps a value. -/
def declared (kind : NodeKind) (value : SourceGrammar) : SourceGrammar :=
  rule kind [identifier, many 0 unpackedDimension, opt (seq (token .equals) value)]

/-- What can be assigned to. -/
def lvalue : SourceGrammar := alt (concatenation false) (reference false)

/-! ### Ports and parameters -/

/-- A list of ports that are declared among the items. -/
def portNames : SourceGrammar :=
  node .paListOfPorts (parens [commaList 1 (node .paPort identifier)])

/-- A list of ports with their declarations. -/
def portDeclarations : SourceGrammar :=
  let interfacePort := all [
    rule .paInterfacePortHeader [identifier, opt (seq (token .dot) identifier)],
    identifier, many 0 unpackedDimension]
  let tail := all [identifier, many 0 unpackedDimension,
    opt (seq (token .equals) (expression false))]
  let typedPort := all [opt (oneOf directions), opt (oneOf netTypes), opt (token .kwVar),
    typed tail]
  node .paListOfPortDeclarations
    (parens [commaList 0 (node .paAnsiPortDeclaration (alt interfacePort typedPort))])

/-- The ports of a description. -/
def ports : SourceGrammar := alt portNames portDeclarations

/-- The parameters in the head of a description. -/
def parameterPorts : SourceGrammar :=
  let declaration := rule .paParameterDeclaration [opt (oneOf [.kwParameter, .kwLocalparam]),
    typed (declared .paParamAssignment (expression true))]
  rule .paParameterPortList [token .hash, parens [commaList 0 declaration]]

end SourceGrammar

end Verilog
