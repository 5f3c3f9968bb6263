/-!
# Pieces of a text

A text is cut at a separator: with `n` separators it has `n + 1` pieces, some of which may be empty.
It is also cut into words, at blank characters.
-/

namespace Verilog

/-- The pieces between the separators. -/
def splitAtChar (separator : Char) : List Char → List (List Char)
  | [] => [[]]
  | c :: s =>
    if c = separator then [] :: splitAtChar separator s
    else
      match splitAtChar separator s with
      | piece :: more => (c :: piece) :: more
      | [] => [[c]]

/-- The text up to the first separator, and the text after it if there is one. -/
def cutAtChar (separator : Char) (s : List Char) : List Char × Option (List Char) :=
  match s.dropWhile (· != separator) with
  | [] => (s, none)
  | _ :: rest => (s.takeWhile (· != separator), some rest)

/-- The text without the characters of a class at both ends. -/
def stripEnds (p : Char → Bool) (s : List Char) : List Char :=
  ((s.dropWhile p).reverse.dropWhile p).reverse

/-- The lines of a text. A line feed ends a line, and a carriage return right before it does not
count; after the last line feed there is a line only if something is left. -/
def textLines (s : List Char) : List (List Char) :=
  let pieces := splitAtChar '\n' s
  let pieces := if pieces.getLast? == some [] then pieces.dropLast.map withoutReturn
    else pieces.dropLast.map withoutReturn ++ pieces.getLast?.toList
  pieces
where
  /-- A line without the carriage return at its end. -/
  withoutReturn (line : List Char) : List Char :=
    if line.getLast? == some '\r' then line.dropLast else line

/-! ### Blank characters

The set of characters that separate words: the code points with the Unicode property
White_Space. Escaped identifiers end before a blank, numbers are read after the blanks around them
are taken off, and a time literal may have blanks inside.
-/

/-- The code points with the property White_Space. -/
def isBlank (c : Char) : Bool :=
  let n := c.toNat
  (9 ≤ n && n ≤ 13) || n == 0x20 || n == 0x85 || n == 0xA0 || n == 0x1680 ||
    (0x2000 ≤ n && n ≤ 0x200A) || n == 0x2028 || n == 0x2029 || n == 0x202F || n == 0x205F ||
    n == 0x3000

/-- The text without its leading blanks. -/
def trimLeft (s : List Char) : List Char := s.dropWhile isBlank

/-- The text without its trailing blanks. -/
def trimRight (s : List Char) : List Char := (s.reverse.dropWhile isBlank).reverse

/-- The text without the blanks at both ends. -/
def trim (s : List Char) : List Char := trimRight (trimLeft s)

/-- `trim` on strings. -/
def trimText (s : String) : String := String.ofList (trim s.toList)

/-- The maximal runs of characters that are not blank, in order. -/
def words (s : List Char) : List (List Char) :=
  let (last, done) := s.foldr (fun c (acc : List Char × List (List Char)) =>
    if isBlank c then ([], if acc.1.isEmpty then acc.2 else acc.1 :: acc.2)
    else (c :: acc.1, acc.2)) ([], [])
  if last.isEmpty then done else last :: done

end Verilog
