import Verilog.Source.Lexicon
import Verilog.Text.Literal
import Verilog.Text.Basic

/-!
# Marks in preprocessed text

Whatever a directive or a macro use gives stands between two marks. The closing one carries the
number of the node of the directive or use, so that the text can be led back to it.
-/

namespace Verilog

/-- The greatest number of a node that a mark can carry, plus one. -/
def markLimitBits : Nat := 32

/-- The mark that closes the text of a node. -/
def endMark (node : Nat) : List Char :=
  endMarkFront ++ Nat.toDigits 10 node ++ [markDelimiter]

/-- The number of the node whose text a mark closes. -/
def readEndMark? (s : List Char) : Option Nat :=
  match Pattern.stripFront endMarkFront s with
  | some rest =>
    if rest.getLast? == some markDelimiter then readUnsigned 10 markLimitBits rest.dropLast
    else none
  | none => none

/-- What stands outside of marks, by the pieces between the delimiters: every other piece, and the
piece after a delimiter that no other follows. -/
def outsidePieces : List (List Char) → List Char
  | [] => []
  | [outside] => outside
  | [outside, unclosed] => outside ++ unclosed
  | outside :: _ :: more => outside ++ outsidePieces more

/-- A preprocessed text without its marks. -/
def withoutMarks (s : List Char) : List Char := outsidePieces (splitAtChar markDelimiter s)

end Verilog
