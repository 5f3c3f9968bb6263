/-!
# Token kinds of the preprocessor

The preprocessor reads a text as directives, macro uses and pieces that it copies. A backquoted
word is a directive if it is one of the names below, and the use of a macro otherwise.
-/

namespace Verilog

/-- The kinds of tokens the preprocessor distinguishes. -/
inductive DirectiveKind where
  -- directives
  | define | undef | undefineall | ifdef | ifndef | elsif | elseBranch | endif | include | line
  | timescale | resetall | defaultNettype | celldefine | endcelldefine | currentFile | currentLine
  -- macro text
  | macroIdentifier | tickQuote | tickTick
  -- copied text
  | identifier | escapedIdentifier | number | string | oneLineComment | blockComment | spaces
  | newline | lineContinuation | leftParen | rightParen | leftBracket | rightBracket | leftBrace
  | rightBrace | comma | equals | less | greater | other
  deriving DecidableEq, Repr, Inhabited

namespace DirectiveKind

/-- The name a kind is shown under. -/
def name : DirectiveKind → String
  | .define => "Define"
  | .undef => "Undef"
  | .undefineall => "Undefineall"
  | .ifdef => "Ifdef"
  | .ifndef => "Ifndef"
  | .elsif => "Elsif"
  | .elseBranch => "Else"
  | .endif => "Endif"
  | .include => "Include"
  | .line => "Line"
  | .timescale => "Timescale"
  | .resetall => "Resetall"
  | .defaultNettype => "DefaultNettype"
  | .celldefine => "Celldefine"
  | .endcelldefine => "Endcelldefine"
  | .currentFile => "SvFile"
  | .currentLine => "SvLine"
  | .macroIdentifier => "MacroIdentifier"
  | .tickQuote => "TickQuote"
  | .tickTick => "TickTick"
  | .identifier => "Identifier"
  | .escapedIdentifier => "EscapedIdentifier"
  | .number => "Number"
  | .string => "String"
  | .oneLineComment => "OneLineComment"
  | .blockComment => "BlockComment"
  | .spaces => "Spaces"
  | .newline => "Cr"
  | .lineContinuation => "LineContinuation"
  | .leftParen => "LParen"
  | .rightParen => "RParen"
  | .leftBracket => "LBracket"
  | .rightBracket => "RBracket"
  | .leftBrace => "LBrace"
  | .rightBrace => "RBrace"
  | .comma => "Comma"
  | .equals => "Equals"
  | .less => "Lt"
  | .greater => "Gt"
  | .other => "Other"

/-- The backquoted words that are directives or predefined text. -/
def keywords : List (String × DirectiveKind) := [
  ("define", .define), ("undef", .undef), ("undefineall", .undefineall), ("ifdef", .ifdef),
  ("ifndef", .ifndef), ("elsif", .elsif), ("else", .elseBranch), ("endif", .endif),
  ("include", .include), ("line", .line), ("timescale", .timescale), ("resetall", .resetall),
  ("default_nettype", .defaultNettype), ("celldefine", .celldefine),
  ("endcelldefine", .endcelldefine), ("__FILE__", .currentFile), ("__LINE__", .currentLine)]

/-- The kind of a backquoted word. -/
def ofWord (word : List Char) : DirectiveKind :=
  (keywords.lookup (String.ofList word)).getD .macroIdentifier

/-- Is the kind a directive? The two predefined texts are not. -/
def isDirective : DirectiveKind → Bool
  | .define | .undef | .undefineall | .ifdef | .ifndef | .elsif | .elseBranch | .endif
  | .include | .line | .timescale | .resetall | .defaultNettype | .celldefine
  | .endcelldefine => true
  | _ => false

/-- Is the kind one of the six brackets? -/
def isBracket : DirectiveKind → Bool
  | .leftParen | .rightParen | .leftBracket | .rightBracket | .leftBrace | .rightBrace => true
  | _ => false

end DirectiveKind

/-- The names a macro cannot have: those of directives, of the directives that are known and not
acted on, and of the predefined texts. -/
def reservedMacroNames : List String :=
  ["define", "undef", "undefineall", "ifdef", "ifndef", "elsif", "else", "endif", "include",
    "line", "timescale", "resetall", "default_nettype", "celldefine", "endcelldefine",
    "unconnected_drive", "nounconnected_drive", "pragma", "begin_keywords", "end_keywords",
    "__FILE__", "__LINE__"]

end Verilog
