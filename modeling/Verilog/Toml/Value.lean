/-!
# Values of a TOML document

A document is a table of values, some of which are tables again. What may be added to a table hangs
on how the table came about: a table with a heading is written once; one that is only on the way of
a heading may still get a heading of its own; one made by a dotted key takes further dotted keys,
and an inline table takes nothing more. No key is given a value twice.
-/

namespace Verilog

namespace Toml

/-- How a table came about. -/
inductive TableOrigin where
  /-- By a heading. -/
  | heading
  /-- On the way of a heading. -/
  | way
  /-- On the way of a dotted key. -/
  | dotted
  /-- Between braces. -/
  | inline
  deriving DecidableEq, Repr

/-- A value. -/
inductive Value where
  | string (s : String)
  | boolean (b : Bool)
  | integer (n : Int)
  | array (members : List Value)
  | table (origin : TableOrigin) (entries : List (String × Value))

/-- The keys of a table with their values, in order. -/
abbrev Entries := List (String × Value)

namespace Value

/-- The string that a value is. -/
def string? : Value → Option String
  | string s => some s
  | _ => none

/-- The strings in the array that a value is. -/
def strings? : Value → Option (List String)
  | array members => members.mapM string?
  | _ => none

/-- The texts of the keys in the table that a value is. -/
def texts? : Value → Option (List (String × String))
  | table _ entries => entries.mapM fun e => e.2.string?.map fun s => (e.1, s)
  | _ => none

/-- The truth value that a value is. -/
def boolean? : Value → Option Bool
  | boolean b => some b
  | _ => none

/-- The natural number that a value is. -/
def count? : Value → Option Nat
  | integer n => if 0 ≤ n then some n.toNat else none
  | _ => none

end Value

namespace Entries

/-- Changes the value of a key; a key without value comes to the end. -/
def alter (k : String) (f : Option Value → Option Value) : Entries → Option Entries
  | [] => (f none).map fun v => [(k, v)]
  | e :: es =>
    if e.1 = k then (f (some e.2)).map fun v => (k, v) :: es else (alter k f es).map (e :: ·)

/-- May a dotted key go through a table, so many keys before its end? -/
def takesDotted (left : Nat) : TableOrigin → Bool
  | .dotted => true
  | .way => 1 < left
  | _ => false

/-- Gives a dotted key a value. -/
def add (v : Value) : List String → Entries → Option Entries
  | [], _ => none
  | [k], es => alter k (fun old => if old.isSome then none else some v) es
  | k :: path, es => alter k (fun
      | none => (add v path []).map (.table .dotted)
      | some (.table origin inner) =>
        if takesDotted path.length origin then (add v path inner).map (.table origin) else none
      | some _ => none) es

/-- Gives a dotted key a value in the table under a heading; without heading, in the document. -/
def addUnder (v : Value) (key : List String) : List String → Entries → Option Entries
  | [], es => add v key es
  | k :: heading, es => alter k (fun
      | some (.table origin inner) => (addUnder v key heading inner).map (.table origin)
      | _ => none) es

/-- Begins the table of a heading. -/
def openTable : List String → Entries → Option Entries
  | [], _ => none
  | [k], es => alter k (fun
      | none => some (.table .heading [])
      | some (.table .way inner) => some (.table .heading inner)
      | some _ => none) es
  | k :: heading, es => alter k (fun
      | none => (openTable heading []).map (.table .way)
      | some (.table .inline _) => none
      | some (.table origin inner) => (openTable heading inner).map (.table origin)
      | some _ => none) es

end Entries

end Toml

end Verilog
