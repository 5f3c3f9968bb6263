/-!
# Positions in a text

Lines and columns are counted from one, by characters. A line feed starts a line and every other
character takes one column. A column is shown in sixteen bits: past 65535 it stays there, while the
count behind it goes on.
-/

namespace Verilog

/-- A place in a text: the character at `column` of `line`. -/
structure Position where
  line : Nat
  column : Nat
  deriving DecidableEq, Repr

namespace Position

/-- The place of the first character. -/
def start : Position := ⟨1, 1⟩

/-- The place after the character `c`. -/
def advance (p : Position) (c : Char) : Position :=
  if c = '\n' then ⟨p.line + 1, 1⟩ else ⟨p.line, p.column + 1⟩

/-- The place after a whole text. -/
def advanceBy (p : Position) (s : List Char) : Position := s.foldl advance p

@[simp] theorem advanceBy_nil (p : Position) : p.advanceBy [] = p := rfl

@[simp] theorem advanceBy_cons (p : Position) (c : Char) (s : List Char) :
    p.advanceBy (c :: s) = (p.advance c).advanceBy s := rfl

theorem advanceBy_append (p : Position) (s t : List Char) :
    p.advanceBy (s ++ t) = (p.advanceBy s).advanceBy t := by
  simp [advanceBy]

end Position

/-- The greatest column that is shown. -/
def maxColumn : Nat := 65535

/-- A column as it is shown. -/
def clampColumn (column : Nat) : Nat := min column maxColumn

/-- The number of line feeds of a text. -/
def newlines (s : List Char) : Nat := s.count '\n'

@[simp] theorem newlines_append (s t : List Char) :
    newlines (s ++ t) = newlines s + newlines t := by
  simp [newlines]

/-- A text that ends in a line feed ends in this character. -/
theorem endsWith_newline {s : String} : s.endsWith "\n" = true ↔ s.toList.getLast? = some '\n' := by
  rw [String.endsWith_eq_endsWith_toSlice, String.Slice.endsWith_string_iff,
    String.copy_toSlice, List.getLast?_eq_some_iff]
  constructor
  · rintro ⟨front, h⟩
    exact ⟨front, h.symm⟩
  · rintro ⟨front, h⟩
    exact ⟨front, h.symm⟩

end Verilog
