import Verilog.Node.Table

/-!
# Validity of a node table

A table is a forest if every chain of children leads back to its parent and no node is linked twice.
The check goes through all chains once and marks what it meets.
-/

namespace Verilog

/-- What can be wrong with a node table. -/
inductive TableProblem where
  | missingNode (parent child : NodeId)
  | linkedTwice (child : NodeId)
  | wrongParent (child parent actual : NodeId)
  | endsBeforeStart (element : Option String)
  deriving DecidableEq, Repr

/-- A problem in words. -/
def TableProblem.message : TableProblem → String
  | missingNode parent child => s!"node {parent} links to missing node {child}"
  | linkedTwice child => s!"node {child} is linked more than once"
  | wrongParent child parent actual =>
    s!"node {child} is a child of {parent} but points at {actual}"
  | endsBeforeStart element =>
    s!"design element {nameText element} ends before it starts"

namespace NodeTable

/-- Follows the chain of a parent and marks its nodes, up to the first that cannot be marked. -/
def markChain (t : NodeTable) (parent : NodeId) :
    List NodeId → Array Bool → List TableProblem × Array Bool
  | [], seen => ([], seen)
  | id :: ids, seen =>
    if !t.contains id then ([.missingNode parent id], seen)
    else if seen.getD id false then ([.linkedTwice id], seen)
    else
      let (problems, seen) := t.markChain parent ids (seen.setIfInBounds id true)
      if t.parent id = parent then (problems, seen)
      else (.wrongParent id parent (t.parent id) :: problems, seen)

/-- What is wrong with the links of the chains of some parents. -/
def linkProblems (t : NodeTable) : List NodeId → Array Bool → List TableProblem
  | [], _ => []
  | id :: ids, seen =>
    let (problems, seen) := t.markChain id (t.children id) seen
    problems ++ t.linkProblems ids seen

/-- The design elements that end before they start. -/
def elementProblems (t : NodeTable) : List TableProblem :=
  (t.elements.toList.filter fun e =>
    e.endLine < e.line || (e.endLine == e.line && e.endColumn < e.column)).map
    fun e => .endsBeforeStart e.name

/-- What is wrong with a table. -/
def problems (t : NodeTable) : List TableProblem :=
  t.linkProblems t.ids (Array.replicate (t.size + 1) false) ++ t.elementProblems

end NodeTable

end Verilog
