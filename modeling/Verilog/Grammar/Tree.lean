import Verilog.Node.Kind

/-!
# Parse trees

A grammar turns a list of tokens into a tree whose leaves are the positions of tokens and whose
inner nodes are labelled with the production they stand for. The stretch of tokens a tree covers is
read off its leaves.
-/

namespace Verilog

/-- A tree over the positions of a list of tokens. -/
inductive ParseTree where
  /-- The token at a position. -/
  | leaf (token : Nat)
  /-- A production and what it is made of. -/
  | node (kind : NodeKind) (children : List ParseTree)
  deriving Inhabited, Repr

namespace ParseTree

mutual

/-- Are two trees the same? -/
def decEq : (t u : ParseTree) → Decidable (t = u)
  | .leaf i, .leaf j => decidable_of_iff (i = j) (by simp)
  | .node k ts, .node l us =>
    have := decEqAll ts us
    decidable_of_iff (k = l ∧ ts = us) (by simp)
  | .leaf _, .node _ _ => isFalse (by simp)
  | .node _ _, .leaf _ => isFalse (by simp)

/-- Are two lists of trees the same? -/
def decEqAll : (ts us : List ParseTree) → Decidable (ts = us)
  | [], [] => isTrue rfl
  | t :: ts, u :: us =>
    have := decEq t u
    have := decEqAll ts us
    decidable_of_iff (t = u ∧ ts = us) (by simp)
  | [], _ :: _ => isFalse (by simp)
  | _ :: _, [] => isFalse (by simp)

end

instance : DecidableEq ParseTree := decEq

mutual

/-- The leaves from left to right. -/
def leaves : ParseTree → List Nat
  | leaf i => [i]
  | node _ ts => leavesAll ts

/-- The leaves of a list of trees from left to right. -/
def leavesAll : List ParseTree → List Nat
  | [] => []
  | t :: ts => t.leaves ++ leavesAll ts

end

mutual

/-- The leftmost leaf. -/
def first? : ParseTree → Option Nat
  | leaf i => some i
  | node _ ts => firstAll? ts

/-- The leftmost leaf of a list of trees. -/
def firstAll? : List ParseTree → Option Nat
  | [] => none
  | t :: ts =>
    match t.first? with
    | some i => some i
    | none => firstAll? ts

end

mutual

/-- The rightmost leaf. -/
def last? : ParseTree → Option Nat
  | leaf i => some i
  | node _ ts => lastAll? ts

/-- The rightmost leaf of a list of trees. -/
def lastAll? : List ParseTree → Option Nat
  | [] => none
  | t :: ts =>
    match lastAll? ts with
    | some i => some i
    | none => t.last?

end

/-- The kind of an inner node. -/
def kind? : ParseTree → Option NodeKind
  | leaf _ => none
  | node k _ => some k

/-- The trees directly below an inner node. -/
def children : ParseTree → List ParseTree
  | leaf _ => []
  | node _ ts => ts

/-- Is the tree a node of a kind? -/
def isNode (t : ParseTree) (k : NodeKind) : Bool := t.kind? == some k

/-- The first tree of a kind directly below an inner node. -/
def find? (t : ParseTree) (k : NodeKind) : Option ParseTree := t.children.find? (·.isNode k)

/-- The positions from the leftmost leaf to past the rightmost one; none without a leaf. -/
def tokenRange? (t : ParseTree) : Option (Nat × Nat) :=
  match t.first?, t.last? with
  | some i, some j => some (i, j + 1)
  | _, _ => none

mutual

/-- The nodes of a kind, a node before those below it. -/
def nodesOf (k : NodeKind) : ParseTree → List ParseTree
  | leaf _ => []
  | node l ts => if l = k then node l ts :: nodesOfAll k ts else nodesOfAll k ts

/-- The nodes of a kind in a list of trees. -/
def nodesOfAll (k : NodeKind) : List ParseTree → List ParseTree
  | [] => []
  | t :: ts => t.nodesOf k ++ nodesOfAll k ts

end

/-! ### The stretch of a tree is that of its leaves -/

mutual

theorem first?_eq : (t : ParseTree) → t.first? = t.leaves.head?
  | leaf _ => rfl
  | node _ ts => firstAll?_eq ts

theorem firstAll?_eq : (ts : List ParseTree) → firstAll? ts = (leavesAll ts).head?
  | [] => rfl
  | t :: ts => by
    rw [firstAll?, leavesAll, List.head?_append, first?_eq t, firstAll?_eq ts]
    cases t.leaves.head? <;> rfl

end

mutual

theorem last?_eq : (t : ParseTree) → t.last? = t.leaves.getLast?
  | leaf _ => rfl
  | node _ ts => lastAll?_eq ts

theorem lastAll?_eq : (ts : List ParseTree) → lastAll? ts = (leavesAll ts).getLast?
  | [] => rfl
  | t :: ts => by
    rw [lastAll?, leavesAll, List.getLast?_append, last?_eq t, lastAll?_eq ts]
    cases (leavesAll ts).getLast? <;> rfl

end

end ParseTree

end Verilog
