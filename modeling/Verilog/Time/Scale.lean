import Verilog.Text.Literal
import Verilog.Text.Basic

/-!
# Time scales

A time scale gives the unit in which delays are written and the precision they are kept with, each
one, ten or a hundred of a power of a thousandth of a second.
-/

namespace Verilog

/-- A power of a thousandth of a second. -/
inductive TimeUnit where
  | second | millisecond | microsecond | nanosecond | picosecond | femtosecond
  deriving DecidableEq, Repr

namespace TimeUnit

/-- The name a unit is shown under. -/
def name : TimeUnit → String
  | second => "S"
  | millisecond => "Ms"
  | microsecond => "Us"
  | nanosecond => "Ns"
  | picosecond => "Ps"
  | femtosecond => "Fs"

/-- The unit with a given symbol. -/
def ofSymbol? : List Char → Option TimeUnit
  | ['s'] => some second
  | ['m', 's'] => some millisecond
  | ['u', 's'] => some microsecond
  | ['n', 's'] => some nanosecond
  | ['p', 's'] => some picosecond
  | ['f', 's'] => some femtosecond
  | _ => none

end TimeUnit

/-- A time: a number of a unit. -/
structure TimeSpan where
  value : Nat
  unit : TimeUnit
  deriving DecidableEq, Repr

namespace TimeSpan

/-- Reads a time; blanks may stand anywhere in it. -/
def parse? (s : List Char) : Option TimeSpan :=
  let s := s.filter fun c => !isBlank c
  let digits := s.takeWhile Char.isDigit
  let value := digitsValue 10 digits
  if digits.isEmpty || !(value == 1 || value == 10 || value == 100) then none
  else (TimeUnit.ofSymbol? (s.drop digits.length)).map fun unit => ⟨value, unit⟩

end TimeSpan

/-- The unit and precision that a directive set. -/
structure TimeScale where
  unit : TimeSpan
  precision : TimeSpan
  deriving DecidableEq, Repr

namespace TimeScale

/-- Reads what follows the directive: unit and precision with a slash between. -/
def parse? (s : List Char) : Option TimeScale :=
  match cutAtChar '/' s with
  | (_, none) => none
  | (before, some after) =>
    match TimeSpan.parse? before, TimeSpan.parse? after with
    | some unit, some precision => some ⟨unit, precision⟩
    | _, _ => none

end TimeScale

end Verilog
