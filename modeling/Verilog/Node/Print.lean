import Verilog.Node.Table

/-!
# Printed node tables

A node is printed on one line: name, number, kind, those of its links that it has, its file and its
place. A tree is printed with a node before those below it, each level indented by two more blanks.
-/

namespace Verilog

/-- A link of a node, with its letter, if the node has it. -/
def printLink (letter : String) (id : NodeId) : String :=
  if id = 0 then "" else s!" {letter}<{id}>"

/-- A node on one line. -/
def Node.print (n : Node) (id : NodeId) : String :=
  let name := n.name.getD ""
  let kind := n.kind.name
  let file := match n.file with
    | some path => s!" f<{path}>"
    | none => ""
  s!"n<{name}> u<{id}> t<{kind}>" ++ printLink "p" n.parent ++ printLink "c" n.child ++
    printLink "s" n.sibling ++ printLink "d" n.definition ++ file ++
    s!" l<{n.line}:{n.column}> el<{n.endLine}:{n.endColumn}>"

namespace NodeTable

/-- The lines of a node and of its descendants at most `depth - 1` levels down. -/
def printWithin (t : NodeTable) : (depth indent : Nat) → NodeId → List String
  | 0, _, _ => []
  | depth + 1, indent, id =>
    (String.ofList (List.replicate indent ' ') ++ (t.node id).print id ++ "\n") ::
      (t.children id).flatMap (t.printWithin depth (indent + 2))

/-- All trees of a table. -/
def print (t : NodeTable) : String :=
  String.join ((t.ids.filter fun id => t.parent id == 0).flatMap (t.printWithin (t.size + 1) 0))

end NodeTable

end Verilog
