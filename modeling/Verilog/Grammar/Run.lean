import Verilog.Grammar.Basic

/-!
# What a grammar makes of a list of tokens

A run starts at a cursor and ends with trees and a later cursor, or with a fault. Along with its
trees a run reports the faults it recovered from, and the furthest place where an alternative that
was given up stopped: should the run fail later at that same place, what that alternative expected
belongs into the fault.

References are resolved by a table of rules. A reference costs one unit of fuel, and as every rule
takes a token before it refers to anything, one unit more than there are tokens is enough;
`Grammar.parse` supplies it.
-/

namespace Verilog

/-! ### Faults

A fault says how far a grammar got and which tokens would have let it go on. Of two faults the one
further on is kept; where both stopped at the same place, either expectation would have helped, so
the two sets are put together.
-/

/-- A place where a grammar could not go on. -/
structure Fault (κ : Type) where
  /-- The number of tokens before the place. -/
  offset : Nat
  /-- What would have been accepted there; `none` is the end of the input. -/
  expected : List (Option κ)
  deriving Repr

namespace Fault

variable {κ : Type} [DecidableEq κ]

/-- The further fault, or both at one place. -/
def join (x y : Fault κ) : Fault κ :=
  if x.offset < y.offset then y
  else if y.offset < x.offset then x
  else ⟨x.offset, x.expected ++ y.expected.filter fun k => !x.expected.contains k⟩

/-- `join` of faults that there may be. -/
def join? : Option (Fault κ) → Option (Fault κ) → Option (Fault κ)
  | some x, some y => some (x.join y)
  | some x, none => some x
  | none, y => y

/-- A fault together with one that there may be. -/
def joinWith (x : Fault κ) : Option (Fault κ) → Fault κ
  | some y => x.join y
  | none => x

end Fault

/-! ### Runs -/

/-- A place in a list of tokens: the number of tokens before it, and those after it as positions
and kinds. -/
structure Cursor (κ : Type) where
  offset : Nat
  rest : List (Nat × κ)

/-- What a run ends with. -/
inductive Reply (κ : Type) where
  /-- Trees, where to go on, and the furthest fault of an alternative given up on the way. -/
  | ok (recovered : List (Fault κ)) (trees : List ParseTree) (next : Cursor κ)
      (beyond : Option (Fault κ))
  /-- A fault that ends the run. -/
  | fail (recovered : List (Fault κ)) (fault : Fault κ)

/-- A way to run from any cursor. -/
abbrev Runner (κ : Type) := Cursor κ → Reply κ

namespace Runner

variable {κ : Type} [DecidableEq κ]

/-- One token of a class. -/
def token (expected : List (Option κ)) (p : κ → Bool) : Runner κ
  | ⟨offset, []⟩ => .fail [] ⟨offset, expected⟩
  | ⟨offset, (i, k) :: rest⟩ =>
    if p k then .ok [] [.leaf i] ⟨offset + 1, rest⟩ none else .fail [] ⟨offset, expected⟩

/-- One run after the other. -/
def seq (a b : Runner κ) : Runner κ := fun c =>
  match a c with
  | .fail recovered fault => .fail recovered fault
  | .ok recovered trees next beyond =>
    match b next with
    | .fail recovered' fault => .fail (recovered ++ recovered') (fault.joinWith beyond)
    | .ok recovered' trees' next' beyond' =>
      .ok (recovered ++ recovered') (trees ++ trees') next' (Fault.join? beyond beyond')

/-- The first run that succeeds. -/
def alt (a b : Runner κ) : Runner κ := fun c =>
  match a c with
  | .ok recovered trees next beyond => .ok recovered trees next beyond
  | .fail _ fault =>
    match b c with
    | .ok recovered trees next beyond => .ok recovered trees next beyond
    | .fail _ fault' => .fail [] (fault.join fault')

/-- The run, or nothing where it fails. -/
def opt (a : Runner κ) : Runner κ := fun c =>
  match a c with
  | .ok recovered trees next beyond => .ok recovered trees next beyond
  | .fail _ fault => .ok [] [] c (some fault)

/-- The rest of a repetition: `pending` more runs have to succeed. -/
def manyFrom (a : Runner κ) : (fuel pending : Nat) → List (Fault κ) → List ParseTree →
    Option (Fault κ) → Runner κ
  | 0, _, recovered, trees, beyond, c => .ok recovered trees.reverse c beyond
  | fuel + 1, pending, recovered, trees, beyond, c =>
    match a c with
    | .ok recovered' trees' next beyond' =>
      manyFrom a fuel (pending - 1) (recovered ++ recovered') (trees'.reverseAux trees)
        (Fault.join? beyond beyond') next
    | .fail recovered' fault =>
      if pending = 0 then
        .ok recovered trees.reverse c
          (Fault.join? beyond (some (fault.joinWith recovered'.head?)))
      else .fail (recovered ++ recovered') fault

/-- The run as often as it succeeds. -/
def many (least : Nat) (a : Runner κ) : Runner κ := fun c =>
  manyFrom a (c.rest.length + 1) least [] [] none c

/-- The rest of a separated list after an item: `pending` more items have to succeed. -/
def sepByFrom (separator a : Runner κ) : (fuel pending : Nat) → List (Fault κ) →
    List ParseTree → Option (Fault κ) → Runner κ
  | 0, _, recovered, trees, beyond, c => .ok recovered trees.reverse c beyond
  | fuel + 1, pending, recovered, trees, beyond, c =>
    let stop (recovered : List (Fault κ)) (beyond : Option (Fault κ)) (fault : Fault κ) :=
      if pending = 0 then Reply.ok recovered trees.reverse c (Fault.join? beyond (some fault))
      else Reply.fail recovered fault
    match separator c with
    | .fail recovered' fault => stop (recovered ++ recovered') beyond fault
    | .ok recovered' _ next beyond' =>
      match a next with
      | .fail recovered'' fault =>
        stop (recovered ++ recovered' ++ recovered'') (Fault.join? beyond beyond') fault
      | .ok recovered'' trees'' next' beyond'' =>
        sepByFrom separator a fuel (pending - 1) (recovered ++ recovered' ++ recovered'')
          (trees''.reverseAux trees) (Fault.join? (Fault.join? beyond beyond') beyond'') next'

/-- The run as often as it succeeds, with separators between. -/
def sepBy (least : Nat) (separator a : Runner κ) : Runner κ := fun c =>
  match a c with
  | .fail recovered fault =>
    if least = 0 then .ok recovered [] c (some fault) else .fail recovered fault
  | .ok recovered trees next beyond =>
    sepByFrom separator a (next.rest.length + 1) (least - 1) recovered trees.reverse beyond next

/-- The trees of a run, changed. -/
def map (f : List ParseTree → List ParseTree) (a : Runner κ) : Runner κ := fun c =>
  match a c with
  | .ok recovered trees next beyond => .ok recovered (f trees) next beyond
  | .fail recovered fault => .fail recovered fault

/-- The run where the next token is none of these. -/
def unlessAt (stops : List κ) (a : Runner κ) : Runner κ := fun c =>
  match c.rest with
  | [] => .fail [] ⟨c.offset, []⟩
  | (_, k) :: _ => if stops.contains k then .fail [] ⟨c.offset, []⟩ else a c

/-- Runs from here, or from the first place further on where it succeeds with no token of `stops`
skipped. -/
def retryFrom (stops : List κ) (a : Runner κ) (recovered : List (Fault κ)) (fault : Fault κ) :
    Nat → List (Nat × κ) → Reply κ
  | offset, rest =>
    match a ⟨offset, rest⟩ with
    | .ok recovered' trees next beyond => .ok (recovered' ++ [fault]) trees next beyond
    | .fail _ _ =>
      match rest with
      | [] => .fail recovered fault
      | (_, k) :: rest =>
        if stops.contains k then .fail recovered fault
        else retryFrom stops a recovered fault (offset + 1) rest

/-- The run; after a fault, the run from a later place. -/
def retry (stops : List κ) (a : Runner κ) : Runner κ := fun c =>
  match a c with
  | .ok recovered trees next beyond => .ok recovered trees next beyond
  | .fail recovered fault =>
    match c.rest with
    | [] => retryFrom stops a recovered fault c.offset []
    | _ :: rest => retryFrom stops a recovered fault (c.offset + 1) rest

/-- A node that stands for skipped tokens: it keeps the first and the last of them. -/
def skipped (kind : NodeKind) : List (Nat × κ) → ParseTree
  | [] => .node kind []
  | [(i, _)] => .node kind [.leaf i]
  | (i, _) :: more => .node kind [.leaf i, .leaf ((more.getLast?.map (·.1)).getD i)]

/-- The run; after a fault, a node for the tokens up to one of `stops`. -/
def skipTo (stops : List κ) (kind : NodeKind) (a : Runner κ) : Runner κ := fun c =>
  match a c with
  | .ok recovered trees next beyond => .ok recovered trees next beyond
  | .fail recovered fault =>
    match c.rest.takeWhile fun t => !stops.contains t.2 with
    | [] => .fail (recovered ++ [fault]) ⟨c.offset, stops.map some⟩
    | taken =>
      .ok (recovered ++ [fault]) [skipped kind taken]
        ⟨c.offset + taken.length, c.rest.drop taken.length⟩ none

end Runner

namespace Grammar

variable {κ ν : Type} [DecidableEq κ]

/-- The run of a grammar, given the runs of the grammars it refers to. -/
def run (callee : ν → Runner κ) : Grammar κ ν → Runner κ
  | empty => fun c => .ok [] [] c none
  | token k => Runner.token [some k] (· == k)
  | tokenIn p => Runner.token [] p
  | seq a b => Runner.seq (run callee a) (run callee b)
  | alt a b => Runner.alt (run callee a) (run callee b)
  | opt a => Runner.opt (run callee a)
  | many least a => Runner.many least (run callee a)
  | sepBy least separator a => Runner.sepBy least (run callee separator) (run callee a)
  | node kind a => Runner.map (fun ts => [.node kind ts]) (run callee a)
  | map f a => Runner.map f (run callee a)
  | ref x => callee x
  | unlessAt stops a => Runner.unlessAt stops (run callee a)
  | retry stops a => Runner.retry stops (run callee a)
  | skipTo stops kind a => Runner.skipTo stops kind (run callee a)

/-- The run of a named grammar with references nested at most as deep as the fuel. -/
def runRef (rules : ν → Grammar κ ν) : Nat → ν → Runner κ
  | 0, _, c => .fail [] ⟨c.offset, []⟩
  | fuel + 1, x, c => (rules x).run (runRef rules fuel) c

/-- What a grammar makes of a whole list of tokens: trees unless it failed or left tokens over, and
the faults, a last one for a failure included. -/
def parse (rules : ν → Grammar κ ν) (g : Grammar κ ν) (tokens : List (Nat × κ)) :
    Option (List ParseTree) × List (Fault κ) :=
  match g.run (runRef rules (tokens.length + 1)) ⟨0, tokens⟩ with
  | .fail recovered fault => (none, recovered ++ [fault])
  | .ok recovered trees next beyond =>
    if next.rest.isEmpty then (some trees, recovered)
    else (none, recovered ++ [Fault.joinWith ⟨next.offset, [none]⟩ beyond])

end Grammar

end Verilog
