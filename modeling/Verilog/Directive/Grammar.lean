import Verilog.Directive.Lexicon
import Verilog.Grammar.Run

/-!
# The grammar of directives

A text is a sequence of directives, macro uses and single tokens. Whatever is no directive is kept
as a leaf of the whole, so the tree says of every token where it belongs: only the commas between
the arguments of a macro are left out. A directive that is not written as it should be is no
directive, and its tokens are kept one by one.
-/

namespace Verilog

/-- The recursive productions of the grammar of directives. -/
inductive DirectiveRule where
  /-- A bracketed group with balanced brackets inside. -/
  | balanced
  deriving DecidableEq

/-- The grammar of directives and its parts. -/
abbrev DirectiveGrammar := Grammar DirectiveKind DirectiveRule

namespace DirectiveGrammar

open Grammar

/-- Any number of blanks. -/
def spaces : DirectiveGrammar := many 0 (token .spaces)

/-- Any number of tokens of a class and of bracketed groups. -/
def groupsAnd (p : DirectiveKind → Bool) : DirectiveGrammar :=
  many 0 (alt (ref .balanced) (tokenIn p))

/-- A bracketed group. -/
def balanced : DirectiveGrammar :=
  let inner := groupsAnd fun k => !k.isBracket
  choice [
    all [token .leftParen, inner, token .rightParen],
    all [token .leftBracket, inner, token .rightBracket],
    all [token .leftBrace, inner, token .rightBrace]]

/-- The name of a macro. -/
def macroName : DirectiveGrammar :=
  alt (node .ppPsIdentifier (token .identifier))
    (node .ppEscapedIdentifier (token .escapedIdentifier))

/-- The arguments of a macro use. -/
def actualArguments : DirectiveGrammar :=
  rule .ppMacroActualArgs [
    token .leftParen,
    sepBy 0 (token .comma)
      (node .ppMacroArg (groupsAnd fun k => !k.isBracket && k != .comma)),
    token .rightParen]

/-- The use of a macro, with arguments if a parenthesis follows. -/
def macroUse : DirectiveGrammar :=
  alt (rule .ppMacroInstanceWithArgs [token .macroIdentifier, spaces, actualArguments])
    (node .ppMacroInstanceNoArgs (token .macroIdentifier))

/-- The names of the arguments of a macro, each with a default text if it has one. -/
def formalArguments : DirectiveGrammar :=
  let value := node .ppDefaultValue
    (groupsAnd fun k => !k.isBracket && k != .comma && k != .newline)
  let formal := rule .ppFormalArg [
    spaces, node .ppPsIdentifier (token .identifier), spaces,
    opt (seq (token .equals) value), spaces]
  rule .ppFormalArgList [token .leftParen, sepBy 0 (token .comma) formal, token .rightParen]

/-- The body of a macro: the rest of the line, and of every line that a continuation adds. -/
def macroBody : DirectiveGrammar :=
  let onLine (k : DirectiveKind) : Bool := k != .newline
  let plain (k : DirectiveKind) : Bool := k != .newline && k != .lineContinuation
  alt
    (rule .ppEscapedMacroDefinitionBody
      [many 0 (tokenIn plain), token .lineContinuation, many 0 (tokenIn onLine)])
    (node .ppSimpleMacroDefinitionBody (many 0 (tokenIn onLine)))

/-- The kind of a macro definition, by its parts. -/
def definitionKind (parts : List ParseTree) : NodeKind :=
  let formals := parts.any (·.isNode .ppFormalArgList)
  let escaped := parts.any (·.isNode .ppEscapedMacroDefinitionBody)
  match formals, escaped with
  | false, false => .ppSimpleNoArgsMacroDefinition
  | true, false => .ppSimpleArgsMacroDefinition
  | false, true => .ppMultilineNoArgsMacroDefinition
  | true, true => .ppMultilineArgsMacroDefinition

/-- The definition of a macro. A parenthesis right after the name begins the arguments. -/
def macroDefinition : DirectiveGrammar :=
  map (fun parts => [.node (definitionKind parts) parts])
    (all [token .define, spaces, macroName, opt formalArguments, macroBody])

/-- The inclusion of a file. -/
def fileInclusion : DirectiveGrammar :=
  let angle := rule .ppString [
    token .less, many 0 (tokenIn fun k => k != .greater && k != .newline), token .greater]
  rule .ppIncludeDirective [
    token .include, spaces,
    choice [node .ppString (token .string), macroUse, angle]]

/-- A statement of line number and file. -/
def lineNumbering : DirectiveGrammar :=
  let number := node .ppNumber (token .number)
  rule .ppLineDirective [
    token .line, spaces, number, spaces, node .ppString (token .string), spaces, number]

/-- A directive that is followed by the name of a macro. -/
def named (kind : NodeKind) (k : DirectiveKind) : DirectiveGrammar :=
  rule kind [token k, spaces, macroName]

/-- One directive, macro use or token. -/
def piece : DirectiveGrammar :=
  choice [
    macroDefinition,
    named .ppUndefDirective .undef,
    named .ppIfdefDirective .ifdef,
    named .ppIfndefDirective .ifndef,
    named .ppElsifDirective .elsif,
    node .ppElseDirective (token .elseBranch),
    node .ppEndifDirective (token .endif),
    fileInclusion,
    lineNumbering,
    rule .ppTimescaleDirective [
      token .timescale, many 0 (tokenIn fun k => k != .newline && k != .oneLineComment)],
    rule .ppDefaultNettypeDirective [
      token .defaultNettype, spaces, node .ppPsIdentifier (token .identifier)],
    node .ppResetallDirective (token .resetall),
    node .ppUndefineallDirective (token .undefineall),
    node .ppCelldefineDirective (token .celldefine),
    node .ppEndcelldefineDirective (token .endcelldefine),
    node .ppSvFileDirective (token .currentFile),
    node .ppSvLineDirective (token .currentLine),
    macroUse,
    node .ppEscapedIdentifier (token .escapedIdentifier),
    tokenIn fun _ => true]

/-- A whole text. -/
def text : DirectiveGrammar := node .ppTopLevelRule (many 0 piece)

/-- The productions that are referred to by name. -/
def rules : DirectiveRule → DirectiveGrammar
  | .balanced => balanced

/-- The tree of a list of tokens, a leaf for each token by its position. Every list has one. -/
def parse (tokens : List DirectiveToken) : ParseTree :=
  match Grammar.parse rules text (tokens.zipIdx.map fun t => (t.2, t.1.kind)) with
  | (some [tree], _) => tree
  | _ => .node .ppTopLevelRule []

end DirectiveGrammar

end Verilog
