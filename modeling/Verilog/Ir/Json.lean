import Verilog.Ir.Basic

/-!
# Compiled designs in JSON

A document is printed over several lines: each member of a list or an object on a line of its own,
two blanks further in than the brackets around it; empty ones stay on one line. In strings only the
quote, the backslash and control characters are escaped.

A design is printed as its objects and its lists, each in the order of their numbers. A field that
an object does not have is left out.
-/

namespace Verilog

/-! ### Documents -/

/-- A document of numbers, strings, lists and objects. -/
inductive Document where
  | number (n : Nat)
  | string (s : String)
  | list (members : List Document)
  /-- Fields in the order in which they are printed. -/
  | object (fields : List (String × Document))

namespace Document

/-- A hexadecimal digit. -/
def hexDigit (n : Nat) : Char := Nat.digitChar n

/-- How a character is written in a string. -/
def escapeChar (c : Char) : List Char :=
  match c with
  | '"' => ['\\', '"']
  | '\\' => ['\\', '\\']
  | '\x08' => ['\\', 'b']
  | '\x0c' => ['\\', 'f']
  | '\n' => ['\\', 'n']
  | '\r' => ['\\', 'r']
  | '\t' => ['\\', 't']
  | c =>
    if c.toNat < 32 then
      ['\\', 'u', '0', '0', hexDigit (c.toNat / 16), hexDigit (c.toNat % 16)]
    else [c]

/-- A string in quotes. -/
def quote (s : String) : String :=
  "\"" ++ String.ofList (s.toList.flatMap escapeChar) ++ "\""

/-- The beginning of a line. -/
def indentation (depth : Nat) : String := String.ofList (List.replicate (2 * depth) ' ')

/-- Members between brackets, one on each line. -/
def bracket (opening closing : String) (depth : Nat) (members : List String) : String :=
  if members.isEmpty then opening ++ closing
  else
    let lines := members.map fun m => indentation (depth + 1) ++ m
    opening ++ "\n" ++ ",\n".intercalate lines ++ "\n" ++ indentation depth ++ closing

mutual

/-- A document as a text; `depth` is the number of brackets around it. -/
def printAt (depth : Nat) : Document → String
  | number n => toString n
  | string s => quote s
  | list members => bracket "[" "]" depth (printMembers (depth + 1) members)
  | object fields => bracket "\x7b" "\x7d" depth (printFields (depth + 1) fields)

/-- The members of a list as texts. -/
def printMembers (depth : Nat) : List Document → List String
  | [] => []
  | d :: ds => printAt depth d :: printMembers depth ds

/-- The fields of an object as texts. -/
def printFields (depth : Nat) : List (String × Document) → List String
  | [] => []
  | (name, d) :: fields => (quote name ++ ": " ++ printAt depth d) :: printFields depth fields

end

/-- A document as a text. -/
def print (d : Document) : String := d.printAt 0

end Document

/-! ### Designs -/

/-- A stretch of a file as a document. -/
def SourceRange.document (r : SourceRange) : Document :=
  .object [("file", .string r.file), ("line", .number r.line), ("column", .number r.column),
    ("end_line", .number r.endLine), ("end_column", .number r.endColumn)]

/-- A field, if there is something to put into it. -/
def optionalField {α : Type} (name : String) (value : Option α) (f : α → Document) :
    List (String × Document) :=
  match value with
  | some a => [(name, f a)]
  | none => []

/-- An object as a document. -/
def DesignObject.document (o : DesignObject) : Document :=
  .object (
    [("kind", .string o.kind.name)] ++
    optionalField "name" o.name .string ++
    optionalField "def_name" o.definition .string ++
    optionalField "parent" o.parent .number ++
    optionalField "location" o.range SourceRange.document ++
    PartRole.all.flatMap (fun role => optionalField role.name (o.part? role) .number) ++
    ListRole.all.flatMap (fun role => optionalField role.name (o.list? role) .number) ++
    optionalField "op_type" o.operator (fun op => .string op.name) ++
    optionalField "value" o.value .string)

namespace Ir

/-- A design as a document. -/
def document (ir : Ir) : Document :=
  .object [
    ("objects", .list (ir.objects.toList.map DesignObject.document)),
    ("vectors", .list (ir.lists.toList.map fun ids => .list (ids.map .number)))]

/-- A design as a text. -/
def json (ir : Ir) : String := ir.document.print

end Ir

end Verilog
