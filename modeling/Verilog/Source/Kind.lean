/-!
# Token kinds of source text

The kinds of tokens of preprocessed text, the reserved words among them, and the sets of kinds the
grammar speaks of. Blanks, comments and the marks the preprocessor leaves around its own text are
hidden: the grammar does not see them.
-/

namespace Verilog

/-- The kinds of tokens of source text. -/
inductive SourceKind where
  -- hidden
  | whitespace | newline | oneLineComment | blockComment | preprocBegin | preprocEnd
  -- names and literals
  | identifier | escapedIdentifier | systemIdentifier | intConst | basedNumber | unbasedUnsized
  | realConst | stringLiteral
  -- reserved words
  | kwModule | kwMacromodule | kwEndmodule | kwInterface | kwEndinterface | kwPrimitive
  | kwEndprimitive | kwPackage | kwEndpackage | kwProgram | kwEndprogram | kwClass | kwVirtual
  | kwEndclass | kwConfig | kwEndconfig | kwChecker | kwEndchecker | kwFunction | kwEndfunction
  | kwTask | kwEndtask | kwTable | kwEndtable | kwModport | kwClocking | kwEndclocking | kwInput
  | kwOutput | kwInout | kwRef | kwWire | kwUwire | kwTri | kwWand | kwWor | kwSupply0
  | kwSupply1 | kwLogic | kwReg | kwBit | kwInt | kwInteger | kwByte | kwShortint | kwLongint
  | kwReal | kwString | kwSigned | kwUnsigned | kwVar | kwConst | kwParameter | kwLocalparam
  | kwTypedef | kwImport | kwGenvar | kwGenerate | kwEndgenerate | kwIf | kwElse | kwCase
  | kwCasex | kwCasez | kwEndcase | kwDefault | kwFor | kwBegin | kwEnd | kwAssign | kwInitial
  | kwAlways | kwAlwaysComb | kwAlwaysFf | kwAlwaysLatch | kwPosedge | kwNegedge | kwOr | kwAnd
  | kwNand | kwNor | kwXor | kwXnor | kwAutomatic | kwStatic
  -- punctuation and operators
  | leftParen | rightParen | leftBracket | rightBracket | leftBrace | rightBrace | semi | colon
  | colonColon | comma | dot | dotStar | hash | atSign | question | equals | plus | minus | star
  | slash | percent | starStar | shl | shr | aShl | aShr | less | lessEq | greater | greaterEq
  | eqEq | notEq | caseEq | caseNeq | amp | pipe | caret | tildeCaret | tildeAmp | tildePipe
  | tilde | bang | ampAmp | pipePipe | plusPlus | minusMinus | plusEq | minusEq | starEq
  | slashEq | percentEq | ampEq | pipeEq | caretEq | shlEq | shrEq | aShlEq | aShrEq | apostrophe
  | unknown
  deriving DecidableEq, Repr, Inhabited

namespace SourceKind

/-- The name a kind is shown under. -/
def name : SourceKind → String
  | .whitespace => "Whitespace"
  | .newline => "Newline"
  | .oneLineComment => "OneLineComment"
  | .blockComment => "BlockComment"
  | .preprocBegin => "PreprocBegin"
  | .preprocEnd => "PreprocEnd"
  | .identifier => "Identifier"
  | .escapedIdentifier => "EscapedIdentifier"
  | .systemIdentifier => "SystemIdentifier"
  | .intConst => "IntConst"
  | .basedNumber => "BasedNumber"
  | .unbasedUnsized => "UnbasedUnsized"
  | .realConst => "RealConst"
  | .stringLiteral => "StringLiteral"
  | .kwModule => "Module"
  | .kwMacromodule => "Macromodule"
  | .kwEndmodule => "Endmodule"
  | .kwInterface => "Interface"
  | .kwEndinterface => "Endinterface"
  | .kwPrimitive => "Primitive"
  | .kwEndprimitive => "Endprimitive"
  | .kwPackage => "Package"
  | .kwEndpackage => "Endpackage"
  | .kwProgram => "Program"
  | .kwEndprogram => "Endprogram"
  | .kwClass => "Class"
  | .kwVirtual => "Virtual"
  | .kwEndclass => "Endclass"
  | .kwConfig => "Config"
  | .kwEndconfig => "Endconfig"
  | .kwChecker => "Checker"
  | .kwEndchecker => "Endchecker"
  | .kwFunction => "Function"
  | .kwEndfunction => "Endfunction"
  | .kwTask => "Task"
  | .kwEndtask => "Endtask"
  | .kwTable => "Table"
  | .kwEndtable => "Endtable"
  | .kwModport => "Modport"
  | .kwClocking => "Clocking"
  | .kwEndclocking => "Endclocking"
  | .kwInput => "Input"
  | .kwOutput => "Output"
  | .kwInout => "Inout"
  | .kwRef => "Ref"
  | .kwWire => "Wire"
  | .kwUwire => "Uwire"
  | .kwTri => "Tri"
  | .kwWand => "Wand"
  | .kwWor => "Wor"
  | .kwSupply0 => "Supply0"
  | .kwSupply1 => "Supply1"
  | .kwLogic => "Logic"
  | .kwReg => "Reg"
  | .kwBit => "Bit"
  | .kwInt => "Int"
  | .kwInteger => "Integer"
  | .kwByte => "Byte"
  | .kwShortint => "Shortint"
  | .kwLongint => "Longint"
  | .kwReal => "Real"
  | .kwString => "StringKw"
  | .kwSigned => "Signed"
  | .kwUnsigned => "Unsigned"
  | .kwVar => "Var"
  | .kwConst => "Const"
  | .kwParameter => "Parameter"
  | .kwLocalparam => "Localparam"
  | .kwTypedef => "Typedef"
  | .kwImport => "Import"
  | .kwGenvar => "Genvar"
  | .kwGenerate => "Generate"
  | .kwEndgenerate => "Endgenerate"
  | .kwIf => "If"
  | .kwElse => "Else"
  | .kwCase => "Case"
  | .kwCasex => "Casex"
  | .kwCasez => "Casez"
  | .kwEndcase => "Endcase"
  | .kwDefault => "Default"
  | .kwFor => "For"
  | .kwBegin => "Begin"
  | .kwEnd => "End"
  | .kwAssign => "Assign"
  | .kwInitial => "Initial"
  | .kwAlways => "Always"
  | .kwAlwaysComb => "AlwaysComb"
  | .kwAlwaysFf => "AlwaysFf"
  | .kwAlwaysLatch => "AlwaysLatch"
  | .kwPosedge => "Posedge"
  | .kwNegedge => "Negedge"
  | .kwOr => "Or"
  | .kwAnd => "And"
  | .kwNand => "Nand"
  | .kwNor => "Nor"
  | .kwXor => "Xor"
  | .kwXnor => "Xnor"
  | .kwAutomatic => "Automatic"
  | .kwStatic => "Static"
  | .leftParen => "LParen"
  | .rightParen => "RParen"
  | .leftBracket => "LBracket"
  | .rightBracket => "RBracket"
  | .leftBrace => "LBrace"
  | .rightBrace => "RBrace"
  | .semi => "Semi"
  | .colon => "Colon"
  | .colonColon => "ColonColon"
  | .comma => "Comma"
  | .dot => "Dot"
  | .dotStar => "DotStar"
  | .hash => "Hash"
  | .atSign => "At"
  | .question => "Question"
  | .equals => "Eq"
  | .plus => "Plus"
  | .minus => "Minus"
  | .star => "Star"
  | .slash => "Slash"
  | .percent => "Percent"
  | .starStar => "StarStar"
  | .shl => "Shl"
  | .shr => "Shr"
  | .aShl => "AShl"
  | .aShr => "AShr"
  | .less => "Lt"
  | .lessEq => "Le"
  | .greater => "Gt"
  | .greaterEq => "Ge"
  | .eqEq => "EqEq"
  | .notEq => "NotEq"
  | .caseEq => "CaseEq"
  | .caseNeq => "CaseNeq"
  | .amp => "Amp"
  | .pipe => "Pipe"
  | .caret => "Caret"
  | .tildeCaret => "TildeCaret"
  | .tildeAmp => "TildeAmp"
  | .tildePipe => "TildePipe"
  | .tilde => "Tilde"
  | .bang => "Bang"
  | .ampAmp => "AmpAmp"
  | .pipePipe => "PipePipe"
  | .plusPlus => "PlusPlus"
  | .minusMinus => "MinusMinus"
  | .plusEq => "PlusEq"
  | .minusEq => "MinusEq"
  | .starEq => "StarEq"
  | .slashEq => "SlashEq"
  | .percentEq => "PercentEq"
  | .ampEq => "AmpEq"
  | .pipeEq => "PipeEq"
  | .caretEq => "CaretEq"
  | .shlEq => "ShlEq"
  | .shrEq => "ShrEq"
  | .aShlEq => "AShlEq"
  | .aShrEq => "AShrEq"
  | .apostrophe => "Apostrophe"
  | .unknown => "Unknown"

/-- Is the kind hidden from the grammar? -/
def isHidden : SourceKind → Bool
  | .whitespace | .newline | .oneLineComment | .blockComment | .preprocBegin | .preprocEnd => true
  | _ => false

/-- Is the kind one of the two spellings of a name? -/
def isIdentifier : SourceKind → Bool
  | .identifier | .escapedIdentifier => true
  | _ => false

/-- The reserved words. -/
def reserved : List (String × SourceKind) := [
  ("module", .kwModule), ("macromodule", .kwMacromodule), ("endmodule", .kwEndmodule),
  ("interface", .kwInterface), ("endinterface", .kwEndinterface), ("primitive", .kwPrimitive),
  ("endprimitive", .kwEndprimitive), ("package", .kwPackage), ("endpackage", .kwEndpackage),
  ("program", .kwProgram), ("endprogram", .kwEndprogram), ("class", .kwClass),
  ("virtual", .kwVirtual), ("endclass", .kwEndclass), ("config", .kwConfig),
  ("endconfig", .kwEndconfig), ("checker", .kwChecker), ("endchecker", .kwEndchecker),
  ("function", .kwFunction), ("endfunction", .kwEndfunction), ("task", .kwTask),
  ("endtask", .kwEndtask), ("table", .kwTable), ("endtable", .kwEndtable), ("modport", .kwModport),
  ("clocking", .kwClocking), ("endclocking", .kwEndclocking), ("input", .kwInput),
  ("output", .kwOutput), ("inout", .kwInout), ("ref", .kwRef), ("wire", .kwWire),
  ("uwire", .kwUwire), ("tri", .kwTri), ("wand", .kwWand), ("wor", .kwWor), ("supply0", .kwSupply0),
  ("supply1", .kwSupply1), ("logic", .kwLogic), ("reg", .kwReg), ("bit", .kwBit), ("int", .kwInt),
  ("integer", .kwInteger), ("byte", .kwByte), ("shortint", .kwShortint), ("longint", .kwLongint),
  ("real", .kwReal), ("string", .kwString), ("signed", .kwSigned), ("unsigned", .kwUnsigned),
  ("var", .kwVar), ("const", .kwConst), ("parameter", .kwParameter), ("localparam", .kwLocalparam),
  ("typedef", .kwTypedef), ("import", .kwImport), ("genvar", .kwGenvar), ("generate", .kwGenerate),
  ("endgenerate", .kwEndgenerate), ("if", .kwIf), ("else", .kwElse), ("case", .kwCase),
  ("casex", .kwCasex), ("casez", .kwCasez), ("endcase", .kwEndcase), ("default", .kwDefault),
  ("for", .kwFor), ("begin", .kwBegin), ("end", .kwEnd), ("assign", .kwAssign),
  ("initial", .kwInitial), ("always", .kwAlways), ("always_comb", .kwAlwaysComb),
  ("always_ff", .kwAlwaysFf), ("always_latch", .kwAlwaysLatch), ("posedge", .kwPosedge),
  ("negedge", .kwNegedge), ("or", .kwOr), ("and", .kwAnd), ("nand", .kwNand), ("nor", .kwNor),
  ("xor", .kwXor), ("xnor", .kwXnor), ("automatic", .kwAutomatic), ("static", .kwStatic)]

/-- The kind of a word: that of the reserved word it is, or a name. -/
def ofWord (word : List Char) : SourceKind :=
  (reserved.lookup (String.ofList word)).getD .identifier

end SourceKind

end Verilog
