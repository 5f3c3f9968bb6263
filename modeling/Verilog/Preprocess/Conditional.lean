/-!
# Conditional compilation

Chains of conditional directives nest. Of each chain at most one branch is active: the first one
whose test holds, where the chain itself stands in active text. The chains that are open at a place
are kept with the innermost one first.
-/

namespace Verilog

/-- A chain of conditional directives that is open. -/
structure Conditional where
  /-- Does the chain stand in active text? -/
  outerActive : Bool
  /-- Was a branch of it active already? -/
  branchTaken : Bool
  /-- Is the current branch active? -/
  active : Bool
  /-- Where the chain begins. -/
  line : Nat
  column : Nat
  deriving DecidableEq, Repr

/-- The open chains, the innermost one first. -/
abbrev Conditionals := List Conditional

namespace Conditionals

/-- Is text active here? -/
def active (cs : Conditionals) : Bool := cs.head?.all (·.active)

/-- Opens a chain with its first test. -/
def openChain (cs : Conditionals) (test : Bool) (line column : Nat) : Conditionals :=
  let taken := cs.active && test
  ⟨cs.active, taken, taken, line, column⟩ :: cs

/-- Begins the next tested branch of the innermost chain, if there is one. -/
def nextBranch? (cs : Conditionals) (test : Bool) : Option Conditionals :=
  match cs with
  | [] => none
  | c :: cs =>
    let active := c.outerActive && !c.branchTaken && test
    some ({ c with active, branchTaken := c.branchTaken || active } :: cs)

/-- Begins the last branch of the innermost chain, if there is one. -/
def lastBranch? (cs : Conditionals) : Option Conditionals :=
  match cs with
  | [] => none
  | c :: cs =>
    some ({ c with active := c.outerActive && !c.branchTaken, branchTaken := true } :: cs)

/-- Closes the innermost chain, if there is one. -/
def closeChain? : Conditionals → Option Conditionals
  | [] => none
  | _ :: cs => some cs

end Conditionals

end Verilog
