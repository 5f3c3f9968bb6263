import Verilog.Node.Table

/-!
# Name tables

A name table gives each name a number, the same one whenever the name comes again. Numbers go up
from zero in the order in which names were first entered.
-/

namespace Verilog

/-- The names that have been entered, each once. -/
structure NameTable where
  names : List String := []
  deriving DecidableEq, Repr

namespace NameTable

/-- The number of names. -/
def size (t : NameTable) : Nat := t.names.length

/-- The number of a name that has been entered. -/
def find? (t : NameTable) (name : String) : Option Nat :=
  if t.names.contains name then some (t.names.idxOf name) else none

/-- Enters a name, and gives its number. -/
def register (t : NameTable) (name : String) : Nat × NameTable :=
  match t.find? name with
  | some i => (i, t)
  | none => (t.size, ⟨t.names ++ [name]⟩)

/-- The name with a number; the text for a missing name if there is none. -/
def text (t : NameTable) (id : Option Nat) : String := nameText (id.bind (t.names[·]?))

end NameTable

end Verilog
