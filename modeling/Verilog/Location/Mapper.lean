import Verilog.Text.Position

/-!
# Places in the sources

The place that a place of a preprocessed text comes from: its line by the map of lines, its column
by the shifts that expansions left behind.
-/

namespace Verilog

/-! ### Where lines come from

The lines of preprocessed text are in sections: from the first line of a section on, lines come one
after the other from one file. Sections are kept in the order of their first lines, at most one for
each line, the last one that was stated.
-/

/-- A line number as it is kept, in 32 bits: behind the greatest one they begin anew. -/
def wrapLine (line : Nat) : Nat := line % 4294967296

/-- A run of preprocessed lines that come from consecutive lines of one file. -/
structure LineSection where
  /-- The first preprocessed line. -/
  start : Nat
  file : Option String
  /-- The line of the file it comes from. -/
  line : Nat
  deriving DecidableEq, Repr

/-- The sections of a preprocessed text. -/
structure LineMap where
  sections : List LineSection := []
  deriving DecidableEq, Repr

namespace LineMap

/-- The map of a text that comes line by line from one file. -/
def ofFile (file : Option String) : LineMap := ⟨[⟨1, file, 1⟩]⟩

/-- Puts a section in its place; it replaces one that starts on the same line. -/
def insert (s : LineSection) : List LineSection → List LineSection
  | [] => [s]
  | t :: ts =>
    if t.start < s.start then t :: insert s ts
    else if t.start = s.start then s :: ts
    else s :: t :: ts

/-- Starts a section. -/
def push (m : LineMap) (s : LineSection) : LineMap := ⟨insert s m.sections⟩

/-- The file and line that a preprocessed line comes from. Before the first section no file is
known. -/
def origin (m : LineMap) (line : Nat) : Option String × Nat :=
  match (m.sections.takeWhile fun s => s.start ≤ line).getLast? with
  | some s => (s.file, wrapLine (s.line + (line - s.start)))
  | none => (none, line)

end LineMap

/-! ### Where columns come from

Macro text takes other columns than the use it stands for. An offset map corrects this line by line:
an increment at a column holds from there to the end of the line, so the correction at a column is
the sum of the increments up to it. Pinning a column to a target adds the increment that is missing
there, and moves all that follows by as much. Increments are kept and summed in 32 bits: a sum that
leaves their range comes in again at the other end.
-/

/-- The number of 32 bits that a sum is kept as. -/
def wrapShift (sum : Int) : Int := (sum + 2147483648) % 4294967296 - 2147483648

/-- A change of columns from one column of a line on. -/
structure ColumnShift where
  line : Nat
  column : Nat
  delta : Int
  deriving DecidableEq, Repr

/-- Corrections of the places of a preprocessed text. -/
structure OffsetMap where
  /-- What is added to every line. -/
  lineOffset : Int := 0
  shifts : List ColumnShift := []
  deriving DecidableEq, Repr

namespace OffsetMap

/-- The greatest line there is. -/
def maxLine : Nat := 4294967295

/-- The nearest number in a range. -/
def clamp (low high : Nat) (n : Int) : Nat := min high (max low n.toNat)

/-- Are there no shifts at all? -/
def isEmpty (m : OffsetMap) : Bool := m.shifts.isEmpty

/-- Does a line have shifts? -/
def hasShifts (m : OffsetMap) (line : Nat) : Bool := m.shifts.any (·.line == line)

/-- Adds a shift, unless it shifts nothing. -/
def add (m : OffsetMap) (line column : Nat) (delta : Int) : OffsetMap :=
  if delta = 0 then m else { m with shifts := ⟨line, column, delta⟩ :: m.shifts }

/-- The correction at a column. -/
def delta (m : OffsetMap) (line column : Nat) : Int :=
  m.shifts.foldl
    (fun n s => if s.line = line ∧ s.column ≤ column then wrapShift (n + s.delta) else n) 0

/-- The column that a column comes from. -/
def column (m : OffsetMap) (line column : Nat) : Nat :=
  clamp 1 maxColumn (wrapShift (column + m.delta line column))

/-- The line that a line comes from, files left aside. -/
def line (m : OffsetMap) (line : Nat) : Nat := clamp 1 maxLine (line + m.lineOffset)

/-- Makes a column come from a target. -/
def pin (m : OffsetMap) (line column target : Nat) : OffsetMap :=
  m.add line column ((target : Int) - (m.column line column : Int))

end OffsetMap

/-! ### Both together -/

/-- What is needed to find the place in the sources that a preprocessed place comes from. -/
structure LocationMapper where
  offsets : OffsetMap
  lines : LineMap
  /-- The file that was preprocessed. -/
  file : Option String
  /-- Leave places as they are in the preprocessed text? -/
  asPreprocessed : Bool

/-- The file, line and column that a preprocessed place comes from. -/
def LocationMapper.map (m : LocationMapper) (line column : Nat) : Option String × Nat × Nat :=
  if m.asPreprocessed then (m.file, line, column)
  else
    let (file, origin) := m.lines.origin (m.offsets.line line)
    (file <|> m.file, origin, m.offsets.column line column)

end Verilog
