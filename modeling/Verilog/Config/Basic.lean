import Verilog.Collection.OrderedMap
import Verilog.Diagnostic.Log

/-!
# Configuration
-/

namespace Verilog

/-- What a run can be told. -/
structure Config where
  /-- The library that design elements belong to. -/
  library : String := "work"
  /-- The directories that included files are looked for in. -/
  includeDirs : List String := []
  /-- The macros defined from the start, with their texts. -/
  defines : OrderedMap String String := {}
  /-- Give places in the preprocessed text? -/
  preprocessedPlaces : Bool := false
  /-- Keep blanks as nodes of the tree? -/
  keepBlanks : Bool := false
  /-- Stop at the first error? -/
  failFast : Bool := false
  logFile : Option String := none
  logCapacity : Nat := defaultLogCapacity
  deriving DecidableEq, Repr

namespace Config

/-- Defines a macro from the start. -/
def define (c : Config) (name value : String) : Config :=
  { c with defines := c.defines.insert name value }

end Config

end Verilog
