import Verilog.Grammar.Tree

/-!
# Grammars

A grammar is data: an expression over token kinds and names of other grammars, with ordered choice,
greedy repetition and two ways of going on after a fault. What a grammar yields is always a list of
trees, so a sequence yields the concatenation and a production wraps what it is made of into one
node.
-/

namespace Verilog

/-- An expression over tokens of kinds in `κ` that may refer to grammars named in `ν`. -/
inductive Grammar (κ ν : Type) where
  /-- Nothing. -/
  | empty
  /-- One token of this kind, kept as a leaf. -/
  | token (k : κ)
  /-- One token of a class of kinds, kept as a leaf. A fault here names no expected token. -/
  | tokenIn (p : κ → Bool)
  /-- One grammar after the other. -/
  | seq (a b : Grammar κ ν)
  /-- The first grammar that succeeds. -/
  | alt (a b : Grammar κ ν)
  /-- The grammar, or nothing where it fails. -/
  | opt (a : Grammar κ ν)
  /-- The grammar as often as it succeeds, at least `least` times. -/
  | many (least : Nat) (a : Grammar κ ν)
  /-- The grammar as often as it succeeds, at least `least` times, with separators between, which
  are not kept. A separator that no item follows is not part of it. -/
  | sepBy (least : Nat) (separator a : Grammar κ ν)
  /-- A production. -/
  | node (kind : NodeKind) (a : Grammar κ ν)
  /-- What a function makes of the trees of a grammar. -/
  | map (f : List ParseTree → List ParseTree) (a : Grammar κ ν)
  /-- The grammar with this name. -/
  | ref (x : ν)
  /-- The grammar where the next token is none of these. -/
  | unlessAt (stops : List κ) (a : Grammar κ ν)
  /-- After a fault, skips one token and then more, but none of `stops`, until the grammar
  succeeds. -/
  | retry (stops : List κ) (a : Grammar κ ν)
  /-- After a fault, skips all tokens up to one of `stops`, at least one, and keeps the first and
  the last of them in a node. -/
  | skipTo (stops : List κ) (kind : NodeKind) (a : Grammar κ ν)

namespace Grammar

variable {κ ν : Type}

/-- All grammars of a list, one after the other. -/
def all : List (Grammar κ ν) → Grammar κ ν
  | [] => empty
  | [a] => a
  | a :: as => seq a (all as)

/-- The first grammar of a list that succeeds. -/
def choice : List (Grammar κ ν) → Grammar κ ν
  | [] => tokenIn fun _ => false
  | [a] => a
  | a :: as => alt a (choice as)

/-- One token of a list of kinds. -/
def oneOf [DecidableEq κ] (ks : List κ) : Grammar κ ν := tokenIn ks.contains

/-- The production of a list of grammars, one after the other. -/
def rule (kind : NodeKind) (as : List (Grammar κ ν)) : Grammar κ ν := node kind (all as)

end Grammar

end Verilog
