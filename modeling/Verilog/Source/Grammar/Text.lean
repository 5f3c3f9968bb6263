import Verilog.Lexing.Lexicon
import Verilog.Source.Grammar.Item

/-!
# Source text

A source text is a sequence of descriptions: modules, interfaces, programs, primitives, packages,
configurations, checkers and single items. Where none can be read, tokens are skipped until one
can.
-/

namespace Verilog

namespace SourceGrammar

open Grammar

/-- The head of a description with ports. -/
def header (keyword : SourceGrammar) : SourceGrammar :=
  all [keyword, opt (oneOf lifetimes), identifier, opt parameterPorts, opt ports, token .semi]

/-- A description with a head, items and a closing word. -/
def container (kind : NodeKind) (keyword : SourceGrammar) (close : SourceKind) : SourceGrammar :=
  rule kind [header keyword, many 0 item, token close, endLabel]

/-- A primitive. -/
def primitive : SourceGrammar :=
  rule .paUdpDeclaration [
    token .kwPrimitive, identifier, ports, token .semi, many 0 item,
    rule .paUdpBody [token .kwTable, opaqueUntil .kwEndtable, token .kwEndtable],
    token .kwEndprimitive, endLabel]

/-- A package. -/
def package : SourceGrammar :=
  rule .paPackageDeclaration [
    token .kwPackage, opt (oneOf lifetimes), identifier, token .semi, many 0 item,
    token .kwEndpackage, endLabel]

/-- A description, found past a fault if there is one. -/
def description : SourceGrammar :=
  retry [] (choice [
    container .paModuleDeclaration
      (node .paModuleKeyword (oneOf [.kwModule, .kwMacromodule])) .kwEndmodule,
    container .paInterfaceDeclaration (token .kwInterface) .kwEndinterface,
    container .paProgramDeclaration (token .kwProgram) .kwEndprogram,
    primitive,
    package,
    opaqueConstruct .paConfigDeclaration [token .kwConfig] .kwEndconfig,
    opaqueConstruct .paCheckerDeclaration [token .kwChecker] .kwEndchecker,
    itemBody])

/-- A whole text. -/
def text : SourceGrammar :=
  node .paTopLevelRule (node .paSourceText (many 0 description))

/-- The productions that are referred to by name. -/
def rules : SourceRule → SourceGrammar
  | .expression true => conditional true
  | .expression false => conditional false
  | .unary true => unary true
  | .unary false => unary false
  | .braces => braces
  | .statement => statementBody
  | .item => itemBody

/-- The tokens the grammar sees, each with its position among all tokens. -/
def visible (tokens : List (Token SourceKind)) : List (Nat × SourceKind) :=
  (tokens.zipIdx.map fun t => (t.2, t.1.kind)).filter fun t => !t.2.isHidden

/-- The tree of a list of tokens, if the whole list could be read, and the faults met on the way. A
leaf of the tree is the position of a token among all tokens, hidden ones counted. -/
def parse (tokens : List (Token SourceKind)) : Option ParseTree × List (Fault SourceKind) :=
  let r := Grammar.parse rules text (visible tokens)
  (r.1.bind List.head?, r.2)

end SourceGrammar

end Verilog
