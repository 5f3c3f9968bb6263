import Verilog.Lexing.Pattern
import Verilog.Text.Position

/-!
# Lexicons

A token is a piece of a text with its kind and the places where it begins and ends. Ends are
exclusive, so a token ends where the next one begins.

A lexicon is an ordered list of lexical classes, each a pattern with the kind its texts have. A
text is cut into tokens from the left: the first class that matches decides, and a character that
no class takes is a token by itself. So every text has tokens, and their texts joined are the text.
-/

namespace Verilog

/-! ### Tokens -/

/-- A piece of a text, of a kind in `κ`. -/
structure Token (κ : Type) where
  kind : κ
  text : String
  line : Nat
  column : Nat
  endLine : Nat
  endColumn : Nat
  deriving DecidableEq, Repr

namespace Token

variable {κ : Type}

/-- The number of line feeds in the token's text. -/
def newlineCount (t : Token κ) : Nat := newlines t.text.toList

/-- The token of a text that starts at a place. -/
def placed (p : Position) (kind : κ) (lexeme : List Char) : Token κ :=
  let q := p.advanceBy lexeme
  { kind, text := String.ofList lexeme, line := p.line, column := clampColumn p.column,
    endLine := q.line, endColumn := clampColumn q.column }

/-- The tokens of consecutive pieces of a text, the first of which starts at a place. -/
def placeAll (p : Position) : List (κ × List Char) → List (Token κ)
  | [] => []
  | (kind, lexeme) :: rest => placed p kind lexeme :: placeAll (p.advanceBy lexeme) rest

end Token

/-! ### Lexical classes -/

/-- The lexical classes of a language, the first match deciding. -/
structure Lexicon (κ : Type) where
  classes : List (Pattern × (List Char → κ))
  /-- The kind of a character that no class takes. -/
  other : κ

namespace Lexicon

variable {κ : Type}

/-- The first class that takes something off the front of the input. -/
def firstMatch : List (Pattern × (List Char → κ)) → List Char → Option (κ × List Char × List Char)
  | [], _ => none
  | (pattern, kind) :: classes, s =>
    match pattern.split s with
    | some (c :: lexeme, rest) => some (kind (c :: lexeme), c :: lexeme, rest)
    | _ => firstMatch classes s

/-- Cuts at most `fuel` pieces off the input. -/
def pieces (lexicon : Lexicon κ) : Nat → List Char → List (κ × List Char)
  | 0, _ => []
  | _, [] => []
  | fuel + 1, c :: s =>
    match firstMatch lexicon.classes (c :: s) with
    | some (kind, lexeme, rest) => (kind, lexeme) :: lexicon.pieces fuel rest
    | none => (lexicon.other, [c]) :: lexicon.pieces fuel s

/-- The tokens of a text: there are at most as many as characters. -/
def tokens (lexicon : Lexicon κ) (s : String) : List (Token κ) :=
  Token.placeAll .start (lexicon.pieces s.toList.length s.toList)

end Lexicon

end Verilog
