import Verilog.Text.Basic

/-!
# File paths

Paths are texts with slashes between their components. Empty components and single dots stand for
nothing, except that a path may begin with a dot.
-/

namespace Verilog

namespace Path

/-- The pieces between the slashes of a path. -/
def pieces (path : List Char) : List (List Char) := splitAtChar '/' path

/-- Does a piece stand for nothing? -/
def isVoid (piece : List Char) : Bool := piece == [] || piece == ['.']

/-- Does the path start at the root? -/
def isAbsolute (path : List Char) : Bool := path.head? == some '/'

/-- The components of a path: the root, a dot at the beginning, and the pieces that stand for
something. -/
def components (path : List Char) : Bool × Bool × List (List Char) :=
  (isAbsolute path, (pieces path).head? == some ['.'], (pieces path).filter fun p => !isVoid p)

/-- The name of the file a path leads to; none if it ends in two dots or has no name. -/
def fileName? (path : List Char) : Option (List Char) :=
  match ((pieces path).filter fun p => !isVoid p).getLast? with
  | some ['.', '.'] => none
  | name => name

/-- The path without the pieces at its end that stand for nothing, and the slashes before them; the
slash of the root is kept, and so is a dot at the beginning. -/
def trimEnd (path : List Char) : List Char :=
  match path with
  | [] => []
  | first :: rest =>
    let back := rest.reverse
    let rec strip : List Char → List Char
      | '/' :: s => strip s
      | '.' :: '/' :: s => strip ('/' :: s)
      | ['.'] => if first = '/' then [] else ['.']
      | s => s
    first :: (strip back).reverse

/-- The directory a path leads into: the path without its last component. -/
def parent? (path : List Char) : Option (List Char) :=
  let path := trimEnd path
  if path.isEmpty || path == ['/'] then none
  else
    let name := (path.reverse.takeWhile (· != '/')).length
    some (trimEnd (path.take (path.length - name)))

/-- The path of a name in a directory; an absolute name stays as it is. -/
def join (dir name : List Char) : List Char :=
  if isAbsolute name || dir.isEmpty then name
  else if dir.getLast? == some '/' then dir ++ name
  else dir ++ '/' :: name

end Path

end Verilog
