import Verilog.Text.Basic

/-!
# Literals in texts

A number is read after the blanks around it are taken off and its underscores dropped. What is left
may have a sign and must have at least one digit, all of them digits of the base; a number that does
not fit the range asked for is not read at all.

A string is written between quotes. A backslash begins an escape: a letter for a control character,
up to two hexadecimal digits after `x` or up to three octal digits for a code, a line feed for
nothing at all, and any other character for itself. A text that is not in quotes is decoded as it
stands.
-/

namespace Verilog

/-! ### Integers -/

/-- The value of a digit, letters standing for ten and more in either case. -/
def digitValue? (c : Char) : Option Nat :=
  if c.isDigit then some (c.toNat - '0'.toNat)
  else if 'a' ≤ c ∧ c ≤ 'z' then some (c.toNat - 'a'.toNat + 10)
  else if 'A' ≤ c ∧ c ≤ 'Z' then some (c.toNat - 'A'.toNat + 10)
  else none

/-- Is the character a digit of a base? -/
def isDigitOf (base : Nat) (c : Char) : Bool := (digitValue? c).any (· < base)

/-- The number that digits of a base denote. -/
def digitsValue (base : Nat) (s : List Char) : Nat :=
  s.foldl (fun n c => base * n + (digitValue? c).getD 0) 0

/-- Reads a number in a base, without sign. -/
def readDigits (base : Nat) (s : List Char) : Option Nat :=
  if !s.isEmpty && s.all (isDigitOf base) then some (digitsValue base s) else none

/-- The text of a number without blanks around it and underscores in it. -/
def cleanNumber (s : List Char) : List Char := (trim s).filter (· != '_')

/-- How many numbers so many bits can tell apart. -/
def wordCount (bits : Nat) : Nat := Nat.pow 2 bits

/-- Reads a number in a base that takes at most so many bits; it may have a plus sign. -/
def readUnsigned (base bits : Nat) (s : List Char) : Option Nat :=
  let number := match cleanNumber s with
    | '+' :: digits => readDigits base digits
    | digits => readDigits base digits
  number.filter (· < wordCount bits)

/-- Reads a decimal number that takes at most so many bits, one of them for the sign. -/
def readSigned (bits : Nat) (s : List Char) : Option Int :=
  match cleanNumber s with
  | '-' :: digits =>
    ((readDigits 10 digits).filter (· ≤ wordCount (bits - 1))).map fun n => -(n : Int)
  | _ => ((readUnsigned 10 (bits - 1) s)).map Int.ofNat

/-- Reads a decimal number of 64 bits; a negative one is taken modulo the range. -/
def readDecimal (s : List Char) : Option Nat :=
  match cleanNumber s with
  | '-' :: _ => (readSigned 64 s).map fun n => (n % (wordCount 64 : Int)).toNat
  | _ => readUnsigned 10 64 s

/-- The value of an integer literal of at most 64 bits: digits after a base, one digit that fills
the word, or a decimal number. A literal with unknown digits has none. -/
def integerLiteral (s : List Char) : Option Nat :=
  match s.dropWhile (· != '\'') with
  | [] => readDecimal s
  | _ :: rest =>
    let rest := match rest with
      | 's' :: r | 'S' :: r => r
      | r => r
    match rest with
    | [] => none
    | base :: digits =>
      match base.toLower with
      | 'b' => readUnsigned 2 64 digits
      | 'o' => readUnsigned 8 64 digits
      | 'd' => readDecimal digits
      | 'h' => readUnsigned 16 64 digits
      | '0' => if digits.isEmpty then some 0 else none
      | '1' => if digits.isEmpty then some (wordCount 64 - 1) else none
      | _ => none

/-! ### Strings in quotes -/

namespace Quoted

/-- The text between the quotes, or the whole text if it is not in quotes. -/
def inside (s : List Char) : List Char :=
  match s with
  | '"' :: t => if t.getLast? == some '"' then t.dropLast else s
  | _ => s

/-- What an escape stands for and what follows it; the backslash is already taken. -/
def readEscape : List Char → List Char × List Char
  | [] => (['\\'], [])
  | 'n' :: s => (['\n'], s)
  | 't' :: s => (['\t'], s)
  | 'v' :: s => (['\x0b'], s)
  | 'f' :: s => (['\x0c'], s)
  | 'a' :: s => (['\x07'], s)
  | '\n' :: s => ([], s)
  | 'x' :: s =>
    let digits := (s.take 2).takeWhile (isDigitOf 16)
    ([Char.ofNat (digitsValue 16 digits)], s.drop digits.length)
  | c :: s =>
    if isDigitOf 8 c then
      let digits := (s.take 2).takeWhile (isDigitOf 8)
      ([Char.ofNat (digitsValue 8 (c :: digits))], s.drop digits.length)
    else ([c], s)

theorem readEscape_length_le (s : List Char) : (readEscape s).2.length ≤ s.length := by
  unfold readEscape
  split <;> (try split) <;> simp <;> omega

/-- The characters that a text with escapes stands for. -/
def decodeEscapes : List Char → List Char
  | [] => []
  | c :: s =>
    if c = '\\' then (readEscape s).1 ++ decodeEscapes (readEscape s).2 else c :: decodeEscapes s
  termination_by s => s.length
  decreasing_by
    · have := readEscape_length_le s
      simp only [List.length_cons]
      omega
    · simp

/-- The string that a literal stands for. -/
def decode (s : String) : String := String.ofList (decodeEscapes (inside s.toList))

end Quoted

end Verilog
