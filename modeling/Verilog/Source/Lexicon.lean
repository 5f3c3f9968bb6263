import Verilog.Lexing.Lexicon
import Verilog.Source.Kind
import Verilog.Text.Basic

/-!
# The lexicon of source text

Source text is what the grammar of modules reads: the output of the preprocessor. Besides the
tokens of the language it knows the two marks the preprocessor leaves around text of its own, each
delimited by the control character U+0001.
-/

namespace Verilog

/-- The control character that delimits the preprocessor's marks. -/
def markDelimiter : Char := '\x01'

/-- The mark before text that a directive or a macro use gave. -/
def beginMark : List Char := [markDelimiter, 'P', 'P', 'B', markDelimiter]

/-- How the mark after such text begins; the number of a node and a delimiter follow. -/
def endMarkFront : List Char := [markDelimiter, 'P', 'P', 'E']

/-- A letter or an underscore. -/
def isNameStart (c : Char) : Bool := c.isAlpha || c == '_'

/-- A character of a name after the first. -/
def isNameRest (c : Char) : Bool := c.isAlphanum || c == '_' || c == '$'

/-- A blank within a line. -/
def isSpace (c : Char) : Bool := c == ' ' || c == '\t' || c == '\r' || c == '\x0c'

/-- A hexadecimal digit. -/
def isHexDigit (c : Char) : Bool :=
  c.isDigit || ('a' ≤ c && c ≤ 'f') || ('A' ≤ c && c ≤ 'F')

namespace Pattern

/-- A name that is not escaped. -/
def word : Pattern := seq (one isNameStart) (run isNameRest)

/-- A backslash and everything up to the next blank. -/
def escapedName : Pattern := seq (text ['\\']) (run1 fun c => !isBlank c)

/-- A comment in slashes and stars. -/
def starComment : Pattern := seq (text ['/', '*']) (through ['*', '/'])

/-- A string on one line, in which a backslash takes the next character whatever it is. -/
def quoted : Pattern :=
  seq (text ['"']) (seq
    (many (alt (one fun c => c != '"' && c != '\\' && c != '\n')
      (seq (text ['\\']) (one fun _ => true))))
    (text ['"']))

/-- Decimal digits, underscores between or after them. -/
def digits : Pattern := seq (one Char.isDigit) (run fun c => c.isDigit || c == '_')

end Pattern

namespace SourceKind

open Pattern

/-- The blanks allowed inside a based number. -/
def gap : Pattern := run fun c => c == ' ' || c == '\t'

/-- A number with a base: size, quote, sign letter, base letter and digits of any base. -/
def basedPattern : Pattern :=
  seq (opt (seq digits gap)) <| seq (text ['\'']) <| seq (opt (among ['s', 'S'])) <|
  seq (among ['b', 'B', 'o', 'O', 'd', 'D', 'h', 'H']) <| seq gap <|
  run1 fun c => isHexDigit c || ['x', 'X', 'z', 'Z', '?', '_'].contains c

/-- A quote and one digit that fills a word, no name character after it. -/
def unbasedPattern : Pattern :=
  seq (text ['\'']) <| seq (among ['0', '1', 'x', 'X', 'z', 'Z']) <|
  ahead fun next => !next.any isNameRest

/-- The exponent of a real number. -/
def exponent : Pattern :=
  seq (among ['e', 'E']) (seq (opt (among ['+', '-'])) digits)

/-- A number with a fraction, an exponent or both. -/
def realPattern : Pattern :=
  seq digits (alt (seq (text ['.']) (seq digits (opt exponent))) exponent)

/-- Operators and punctuation, a longer one before those it begins with. -/
def operators : List (List Char × SourceKind) := [
  (['<', '<', '<', '='], .aShlEq), (['>', '>', '>', '='], .aShrEq),
  (['=', '=', '='], .caseEq), (['!', '=', '='], .caseNeq), (['<', '<', '<'], .aShl),
  (['>', '>', '>'], .aShr), (['<', '<', '='], .shlEq), (['>', '>', '='], .shrEq),
  (['*', '*'], .starStar), (['<', '<'], .shl), (['>', '>'], .shr), (['<', '='], .lessEq),
  (['>', '='], .greaterEq), (['=', '='], .eqEq), (['!', '='], .notEq), (['&', '&'], .ampAmp),
  (['|', '|'], .pipePipe), (['+', '+'], .plusPlus), (['-', '-'], .minusMinus),
  (['+', '='], .plusEq), (['-', '='], .minusEq), (['*', '='], .starEq), (['/', '='], .slashEq),
  (['%', '='], .percentEq), (['&', '='], .ampEq), (['|', '='], .pipeEq), (['^', '='], .caretEq),
  (['~', '&'], .tildeAmp), (['~', '|'], .tildePipe), (['~', '^'], .tildeCaret),
  (['^', '~'], .tildeCaret), ([':', ':'], .colonColon), (['.', '*'], .dotStar),
  (['('], .leftParen), ([')'], .rightParen), (['['], .leftBracket), ([']'], .rightBracket),
  (['{'], .leftBrace), (['}'], .rightBrace), ([';'], .semi), ([':'], .colon), ([','], .comma),
  (['.'], .dot), (['#'], .hash), (['@'], .atSign), (['?'], .question), (['='], .equals),
  (['+'], .plus), (['-'], .minus), (['*'], .star), (['/'], .slash), (['%'], .percent),
  (['<'], .less), (['>'], .greater), (['&'], .amp), (['|'], .pipe), (['^'], .caret),
  (['~'], .tilde), (['!'], .bang), (['\''], .apostrophe)]

/-- The lexical classes of source text. -/
def lexicon : Lexicon SourceKind where
  classes := [
    (text beginMark, fun _ => .preprocBegin),
    (seq (text endMarkFront) (seq (run1 Char.isDigit) (text [markDelimiter])),
      fun _ => .preprocEnd),
    (run1 isSpace, fun _ => .whitespace),
    (text ['\n'], fun _ => .newline),
    (seq (text ['/', '/']) (run fun c => c != '\n'), fun _ => .oneLineComment),
    (starComment, fun _ => .blockComment),
    (quoted, fun _ => .stringLiteral),
    (seq (text ['$']) (run1 isNameRest), fun _ => .systemIdentifier),
    (escapedName, fun _ => .escapedIdentifier),
    (basedPattern, fun _ => .basedNumber),
    (unbasedPattern, fun _ => .unbasedUnsized),
    (realPattern, fun _ => .realConst),
    (digits, fun _ => .intConst),
    (word, ofWord)] ++ operators.map fun (spelling, kind) => (text spelling, fun _ => kind)
  other := .unknown

end SourceKind

/-- A token of source text. -/
abbrev SourceToken := Token SourceKind

/-- The tokens of source text. -/
def SourceToken.ofText (s : String) : List SourceToken := SourceKind.lexicon.tokens s

end Verilog
