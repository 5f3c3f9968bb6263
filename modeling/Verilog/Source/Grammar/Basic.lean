import Verilog.Grammar.Run
import Verilog.Source.Kind

/-!
# Parts of the grammar of source text

The names of the recursive productions, the sets of tokens that play one role, and the productions
for stretches that are kept without looking into them.
-/

namespace Verilog

/-- The recursive productions of the grammar of source text. -/
inductive SourceRule where
  /-- An expression, `constant` where one is asked for. -/
  | expression (constant : Bool)
  /-- An operand with unary operators before it. -/
  | unary (constant : Bool)
  /-- A group in braces, balanced inside. -/
  | braces
  /-- A procedural statement. -/
  | statement
  /-- An item of a module, interface, program, primitive or package. -/
  | item
  deriving DecidableEq

/-- The grammar of source text and its parts. -/
abbrev SourceGrammar := Grammar SourceKind SourceRule

namespace SourceGrammar

open Grammar

/-! ### Tokens that play one role -/

/-- Numbers of any form. -/
def numbers : List SourceKind := [.intConst, .basedNumber, .unbasedUnsized, .realConst]

/-- Operators that may stand before their only operand. -/
def unaryOperators : List SourceKind :=
  [.plus, .minus, .bang, .tilde, .amp, .pipe, .caret, .tildeAmp, .tildePipe, .tildeCaret]

/-- Assignment operators. -/
def assignmentOperators : List SourceKind :=
  [.equals, .plusEq, .minusEq, .starEq, .slashEq, .percentEq, .ampEq, .pipeEq, .caretEq, .shlEq,
    .shrEq, .aShlEq, .aShrEq]

/-- Operators that step a variable. -/
def stepOperators : List SourceKind := [.plusPlus, .minusMinus]

/-- Net types. -/
def netTypes : List SourceKind :=
  [.kwWire, .kwUwire, .kwTri, .kwWand, .kwWor, .kwSupply0, .kwSupply1]

/-- Port directions. -/
def directions : List SourceKind := [.kwInput, .kwOutput, .kwInout, .kwRef]

/-- Gates with any number of inputs. -/
def gates : List SourceKind := [.kwAnd, .kwNand, .kwOr, .kwNor, .kwXor, .kwXnor]

/-- Lifetimes. -/
def lifetimes : List SourceKind := [.kwStatic, .kwAutomatic]

/-- Tokens that close a list of items or open a new description. No item starts at one of them, and
no faulty item is skipped past one. -/
def itemStops : List SourceKind :=
  [.kwEnd, .kwEndmodule, .kwEndinterface, .kwEndprogram, .kwEndpackage, .kwEndgenerate,
    .kwEndprimitive, .kwEndcase, .kwTable, .kwElse, .kwModule, .kwMacromodule, .kwInterface,
    .kwProgram, .kwPrimitive, .kwPackage, .kwConfig, .kwChecker]

/-! ### Small productions -/

/-- A name. -/
def identifier : SourceGrammar := tokenIn SourceKind.isIdentifier

/-- Items with commas between. -/
def commaList (least : Nat) (a : SourceGrammar) : SourceGrammar := sepBy least (token .comma) a

/-- Something in parentheses. -/
def parens (as : List SourceGrammar) : SourceGrammar :=
  all ([token .leftParen] ++ as ++ [token .rightParen])

/-- The name that may be repeated after a closing word. -/
def endLabel : SourceGrammar := opt (rule .paEndLabel [token .colon, identifier])

/-! ### Stretches that are not looked into -/

/-- Everything up to a closing word. -/
def opaqueUntil (close : SourceKind) : SourceGrammar :=
  node .paOpaqueBody (many 0 (tokenIn fun k => k != close))

/-- A construct from its opening words to its closing word, and a label. -/
def opaqueConstruct (kind : NodeKind) (opening : List SourceGrammar) (close : SourceKind) :
    SourceGrammar :=
  rule kind (opening ++ [opaqueUntil close, token close, endLabel])

/-- A group in braces. -/
def braces : SourceGrammar :=
  all [
    token .leftBrace,
    many 0 (alt (ref .braces) (tokenIn fun k => k != .leftBrace && k != .rightBrace)),
    token .rightBrace]

/-- Everything up to the semicolon that closes a declaration, braces kept balanced. -/
def opaqueStatement : SourceGrammar :=
  node .paOpaqueBody <| many 0 <| alt braces <|
    tokenIn fun k => k != .leftBrace && k != .rightBrace && k != .semi

end SourceGrammar

end Verilog
