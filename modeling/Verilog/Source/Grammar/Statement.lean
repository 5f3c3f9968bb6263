import Verilog.Source.Grammar.Declaration

/-!
# Procedural statements
-/

namespace Verilog

namespace SourceGrammar

open Grammar

/-- A statement, wherever one stands after some other token. -/
def statement : SourceGrammar := ref .statement

/-- A label after `begin` or `end`. -/
def blockLabel : SourceGrammar := opt (seq (token .colon) identifier)

/-- What a procedural assignment assigns to. -/
def variableLvalue : SourceGrammar := node .paVariableLvalue lvalue

/-- An assignment with any operator, or a step by one. -/
def assignment : SourceGrammar :=
  choice [
    all [variableLvalue, oneOf assignmentOperators, expression false],
    seq variableLvalue (oneOf stepOperators),
    seq (oneOf stepOperators) variableLvalue]

/-- The cases an item of a case construct is chosen for. -/
def caseLabels (constant : Bool) : SourceGrammar :=
  alt (seq (commaList 1 (expression constant)) (token .colon))
    (seq (token .kwDefault) (opt (token .colon)))

/-- A choice among statements. -/
def caseStatement : SourceGrammar :=
  rule .paCaseStatement [
    oneOf [.kwCase, .kwCasex, .kwCasez], parens [expression false],
    many 1 (rule .paCaseItem [caseLabels false, statement]), token .kwEndcase]

/-- A counted loop. -/
def forLoop : SourceGrammar :=
  let start := all [identifier, token .equals, expression false]
  rule .paLoopStatement [
    token .kwFor, token .leftParen,
    node .paForInitialization (commaList 0 (alt (seq dataType start) start)),
    token .semi, expression false, token .semi,
    node .paForStep (commaList 0 assignment),
    token .rightParen, statement]

/-- The events a statement waits for. -/
def eventControl : SourceGrammar :=
  let event := rule .paEventExpression [opt (oneOf [.kwPosedge, .kwNegedge]), expression false]
  rule .paEventControl [token .atSign, choice [
    token .star,
    parens [token .star],
    parens [sepBy 1 (oneOf [.kwOr, .comma]) event],
    identifier]]

/-- The time a statement waits for. -/
def delayControl : SourceGrammar :=
  rule .paDelayControl
    [token .hash, choice [oneOf numbers, identifier, parens [expression false]]]

/-- The body of a statement. -/
def statementBody : SourceGrammar :=
  choice [
    rule .paSeqBlock
      [token .kwBegin, blockLabel, many 0 statement, token .kwEnd, blockLabel],
    rule .paConditionalStatement
      [token .kwIf, parens [expression false], statement, opt (seq (token .kwElse) statement)],
    caseStatement,
    forLoop,
    rule .paProceduralTimingControlStatement [alt eventControl delayControl, statement],
    rule .paNonblockingAssignment
      [variableLvalue, token .lessEq, expression false, token .semi],
    rule .paOperatorAssignment [assignment, token .semi],
    rule .paSubroutineCallStatement [
      alt (systemCall false)
        (rule .paComplexFuncCall [reference false, opt (callArguments false)]),
      token .semi],
    token .semi]

end SourceGrammar

end Verilog
