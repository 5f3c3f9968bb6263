import Verilog.Text.Literal
import Verilog.Text.Basic
import Verilog.Toml.Value

/-!
# Reading TOML

Each line of a document is a key with its value, a heading, a comment or empty. Strings have one or
three quotes at each end, double ones for texts with escapes and single ones for texts without;
numbers are integers of 64 bits; arrays may go over several lines and inline tables may not. A
reader takes what it reads from the beginning of the text and fails on anything else.
-/

namespace Verilog

namespace Toml

/-- A program that reads from the beginning of a text. -/
abbrev Reader := StateT (List Char) Option

/-! ### Characters -/

/-- Is the character a blank within a line? -/
def isGap (c : Char) : Bool := c == ' ' || c == '\t'

/-- May the character stand in a string or a comment? Control characters may not, except a tab. -/
def isPlain (c : Char) : Bool := c == '\t' || (32 ≤ c.toNat && c.toNat != 127)

/-- May the character stand in a key without quotes? -/
def isKeyChar (c : Char) : Bool := c.isAlphanum || c == '_' || c == '-'

namespace Reader

/-- Reads a character. -/
def next : Reader Char
  | [] => none
  | c :: s => some (c, s)

/-- Reads a word that must be there. -/
def word (w : String) : Reader Unit := fun s =>
  if w.toList.isPrefixOf s then some ((), s.drop w.length) else none

/-- Reads a word if it is there. -/
def word? (w : String) : Reader Bool := fun s =>
  if w.toList.isPrefixOf s then some (true, s.drop w.length) else some (false, s)

/-- Reads the characters of a class. -/
def run (p : Char → Bool) : Reader (List Char) := fun s => some (s.takeWhile p, s.dropWhile p)

/-- Does the text go on with a word? -/
def sees (w : String) : Reader Bool := fun s => some (w.toList.isPrefixOf s, s)

/-- Reads pieces until a step says that there are no more. -/
def pieces {α : Type} (step : Reader (Option α)) : Reader (List α) := fun s => go (s.length + 1) s
where
  /-- Reads at most so many pieces. -/
  go : Nat → Reader (List α)
    | 0 => failure
    | fuel + 1 => do
      match ← step with
      | none => return []
      | some a => return a :: (← go fuel)

end Reader

open Reader

/-- Reads the blanks within a line. -/
def gap : Reader Unit := do let _ ← run isGap

/-- Reads the end of a line if it is there. -/
def lineBreak? : Reader Bool := do
  if ← word? "\n" then return true
  else word? "\r\n"

/-- Reads a comment if there is one. -/
def comment : Reader Unit := do
  if ← word? "#" then let _ ← run isPlain

/-- Reads what may follow a line's content. -/
def lineEnd : Reader Unit := do
  gap
  comment
  if !(← lineBreak?) then guard (← get).isEmpty

/-- Reads blanks and ends of lines. -/
def blankLines : Reader Unit := do
  let _ ← pieces do
    gap
    if ← lineBreak? then return some () else return none

/-- Reads blanks, comments and ends of lines. -/
def space : Reader Unit := do
  let _ ← pieces do
    gap
    if ← sees "#" then
      comment
      guard (← lineBreak?)
      return some ()
    else if ← lineBreak? then return some ()
    else return none

/-! ### Strings -/

/-- Reads the code of a character, so many hexadecimal digits. -/
def charCode (size : Nat) : Reader Char := do
  let digits := (← get).take size
  set ((← get).drop size)
  guard (digits.length = size && digits.all (isDigitOf 16))
  let n := digitsValue 16 digits
  guard n.isValidChar
  return Char.ofNat n

/-- Reads an escape; the backslash is already taken. -/
def escape : Reader Char := do
  match ← next with
  | 'b' => return '\x08'
  | 't' => return '\t'
  | 'n' => return '\n'
  | 'f' => return '\x0c'
  | 'r' => return '\r'
  | '"' => return '"'
  | '\\' => return '\\'
  | 'u' => charCode 4
  | 'U' => charCode 8
  | _ => failure

/-- Reads a string with escapes on one line; the first quote is already taken. -/
def quoted : Reader String := do
  return String.ofList (← pieces do
    match ← next with
    | '"' => return none
    | '\\' => return some (← escape)
    | c => if isPlain c then return some c else failure)

/-- Reads a string without escapes on one line; the first quote is already taken. -/
def literal : Reader String := do
  return String.ofList (← pieces do
    match ← next with
    | '\'' => return none
    | c => if isPlain c then return some c else failure)

/-- Reads a character of a string between three quotes, or the quotes at its end: up to two quotes
before these belong to the string. -/
def blockStep (quote : Char) (escaped : Reader (List Char)) : Reader (Option (List Char)) := do
  let quotes := ((← get).takeWhile (· == quote)).length
  if 5 < quotes then failure
  else if quotes = 3 then
    set ((← get).drop 3)
    return none
  else if ← lineBreak? then return some ['\n']
  else
    let c ← next
    if c == '\\' then return some (← escaped)
    else if isPlain c then return some [c]
    else failure

/-- Reads a string between three quotes; the quotes at its beginning are already taken, and the end
of a line right behind them does not count. -/
def block (quote : Char) (escaped : Reader (List Char)) : Reader String := do
  let _ ← lineBreak?
  return String.ofList (← pieces (blockStep quote escaped)).flatten

/-- Reads an escape in a string of several lines: at the end of a line, all blanks and ends of lines
that follow. -/
def blockEscape : Reader (List Char) := do
  let start ← get
  gap
  if ← lineBreak? then
    blankLines
    return []
  else
    set start
    return [← escape]

/-- Reads a string of any form. -/
def string : Reader String := do
  if ← word? "\"\"\"" then block '"' blockEscape
  else if ← word? "\"" then quoted
  else if ← word? "'''" then block '\'' (return ['\\'])
  else
    word "'"
    literal

/-! ### Keys and numbers -/

/-- Reads a part of a key. -/
def keyPart : Reader String := do
  if ← word? "\"" then quoted
  else if ← word? "'" then literal
  else
    let name ← run isKeyChar
    guard !name.isEmpty
    return String.ofList name

/-- Reads a key: parts with dots between, and blanks around each. -/
def key : Reader (List String) := do
  gap
  let first ← keyPart
  gap
  let more ← pieces do
    if ← word? "." then
      gap
      let part ← keyPart
      gap
      return some part
    else return none
  return first :: more

/-- Are all underscores between two other characters? -/
def underscoresInside (s : List Char) : Bool := (splitAtChar '_' s).all fun piece => !piece.isEmpty

/-- Reads digits of a base, between which there may be underscores. -/
def digits (base : Nat) : Reader (List Char) := do
  let s ← run fun c => isDigitOf base c || c == '_'
  guard (underscoresInside s)
  return s.filter (· != '_')

/-- The number that fits 64 bits, one of them for the sign. -/
def word64 (n : Int) : Reader Value := do
  guard (-(wordCount 63 : Int) ≤ n && n < (wordCount 63 : Int))
  return .integer n

/-- Reads a decimal number without sign; no digits stand behind a zero at its beginning. -/
def decimal : Reader Nat := do
  let s ← digits 10
  guard (s.length = 1 || s.head? != some '0')
  return digitsValue 10 s

/-- Reads an integer: a decimal number that may have a sign, or digits behind the mark of a base. -/
def integer : Reader Value := do
  if ← word? "0x" then word64 (digitsValue 16 (← digits 16))
  else if ← word? "0o" then word64 (digitsValue 8 (← digits 8))
  else if ← word? "0b" then word64 (digitsValue 2 (← digits 2))
  else if ← word? "-" then word64 (-(← decimal))
  else
    let _ ← word? "+"
    word64 (← decimal)

/-! ### Arrays and tables -/

/-- Reads members with commas between up to a bracket; the bracket at the beginning is already
taken. Behind the last member there may be a comma. -/
def members (value : Reader Value) : Reader (List Value) := do
  space
  if ← word? "]" then return []
  else
    let first ← value
    let more ← pieces do
      space
      if ← word? "]" then return none
      else
        word ","
        space
        if ← word? "]" then return none
        else return some (← value)
    return first :: more

/-- Reads a key with its value. -/
def entry (value : Reader Value) : Reader (List String × Value) := do
  let k ← key
  word "="
  gap
  return (k, ← value)

/-- Reads entries with commas between up to a brace; the brace at the beginning is already taken. -/
def inlineTable (value : Reader Value) : Reader Entries := do
  gap
  if ← word? "\x7d" then return []
  else
    let first ← entry value
    let more ← pieces do
      gap
      if ← word? "\x7d" then return none
      else
        word ","
        return some (← entry value)
    StateT.lift ((first :: more).foldlM (fun es e => Entries.add e.2 e.1 es) [])

/-- Reads a string, a truth value or an integer. -/
def scalar : Reader Value := do
  if (← sees "\"") || (← sees "'") then return .string (← string)
  else if ← word? "true" then return .boolean true
  else if ← word? "false" then return .boolean false
  else integer

/-- Reads a value with arrays and inline tables nested so deep at most. -/
def value : Nat → Reader Value
  | 0 => scalar
  | depth + 1 => do
    if ← word? "[" then return .array (← members (value depth))
    else if ← word? "\x7b" then return .table .inline (← inlineTable (value depth))
    else scalar

/-- How deep arrays and inline tables may be nested. -/
def nestingLimit : Nat := 79

/-! ### Documents -/

/-- A line of a document. -/
inductive Line where
  | empty
  | heading (key : List String)
  | entry (key : List String) (v : Value)

/-- Reads a line, if there is one left. A value may take more than one line of the text. -/
def line? : Reader (Option Line) := do
  gap
  if (← get).isEmpty then return none
  else
    let line ←
      if (← sees "#") || (← sees "\n") || (← sees "\r") then pure Line.empty
      else if ← word? "[" then do
        let k ← key
        word "]"
        pure (.heading k)
      else do
        let (k, v) ← entry (value nestingLimit)
        pure (.entry k v)
    lineEnd
    return some line

/-- Reads a document line by line; a byte order mark at its beginning does not count. -/
def lines : Reader (List Line) := do
  let _ ← word? "\uFEFF"
  pieces line?

/-- The heading and the entries after a line. -/
def Line.apply (heading : List String) (es : Entries) : Line → Option (List String × Entries)
  | .empty => some (heading, es)
  | .heading key => (es.openTable key).map fun es => (key, es)
  | .entry key v => (es.addUnder v key heading).map fun es => (heading, es)

/-- The entries of a document. -/
def ofText (s : String) : Option Entries := do
  let (lines, _) ← lines s.toList
  let (_, es) ← lines.foldlM (fun d line => line.apply d.1 d.2) ([], [])
  return es

end Toml

end Verilog
