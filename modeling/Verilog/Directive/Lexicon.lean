import Verilog.Directive.Kind
import Verilog.Source.Lexicon

/-!
# The lexicon of directives

The preprocessor cuts a text more coarsely than the grammar of modules does: it has to see
backquoted words, the borders of comments, strings and macro arguments, and the ends of lines.
-/

namespace Verilog

/-- The backquote, which begins directives and macro uses. -/
def backquote : Char := '\x60'

namespace DirectiveKind

open Pattern

/-- A comment up to the end of its line. A backslash that ends the line ends the comment too, so
that the next line of a macro body is not part of it. -/
def slashComment : Pattern :=
  seq (text ['/', '/']) <| many <| alt (one fun c => c != '\n' && c != '\\') <|
    seq (text ['\\']) (ahead fun next => next.any fun c => c != '\n' && c != '\r')

/-- The lexical classes of the preprocessor. -/
def lexicon : Lexicon DirectiveKind where
  classes := [
    (text [backquote, backquote], fun _ => .tickTick),
    (text [backquote, '"'], fun _ => .tickQuote),
    (seq (text [backquote]) word, fun s => ofWord s.tail),
    (seq (text ['\\']) (seq (opt (text ['\r'])) (text ['\n'])), fun _ => .lineContinuation),
    (escapedName, fun _ => .escapedIdentifier),
    (slashComment, fun _ => .oneLineComment),
    (starComment, fun _ => .blockComment),
    (quoted, fun _ => .string),
    (word, fun _ => .identifier),
    (seq (one Char.isDigit) (run fun c => c.isAlphanum || c == '_' || c == '.'),
      fun _ => .number),
    (run1 isSpace, fun _ => .spaces),
    (text ['\n'], fun _ => .newline),
    (text ['('], fun _ => .leftParen), (text [')'], fun _ => .rightParen),
    (text ['['], fun _ => .leftBracket), (text [']'], fun _ => .rightBracket),
    (text ['{'], fun _ => .leftBrace), (text ['}'], fun _ => .rightBrace),
    (text [','], fun _ => .comma), (text ['='], fun _ => .equals),
    (text ['<'], fun _ => .less), (text ['>'], fun _ => .greater)]
  other := .other

end DirectiveKind

/-- A token of text with directives. -/
abbrev DirectiveToken := Token DirectiveKind

/-- The tokens of text with directives. -/
def DirectiveToken.ofText (s : String) : List DirectiveToken := DirectiveKind.lexicon.tokens s

end Verilog
