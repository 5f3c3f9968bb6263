import Verilog.Preprocess.Conditional
import Mathlib.Data.List.Induction

/-!
# Chains and the branch that is selected

What a text says about its conditional directives is the list of the steps it takes: chains are
opened, go on to a further branch, and are closed. Which chains are open at a place, and which
branches they have had, is read off the steps before it without any stack: a chain is open as long
as no more chains were closed behind its opening than were opened there. Of the branches a chain has
had the first one whose test holds is selected.

The frames that are kept while a text is scanned say the same (`Frames.of_steps`): text is active
exactly where the current branch of every open chain is the selected one.
-/

namespace Verilog

/-- What a piece of a text is to the chains of conditional directives. -/
inductive ConditionStep where
  /-- A chain begins with a branch that has a test. -/
  | opening (test : Bool)
  /-- The next branch begins; the test of a last branch holds. -/
  | branch (test : Bool)
  | closing
  /-- The piece is no conditional directive. -/
  | other
  deriving DecidableEq, Repr

namespace ConditionStep

/-! ### Chains -/

/-- The number of open chains after a step, where so many were open before it; none where the step
closes a chain and there is none to close. -/
def depthFrom : Nat → ConditionStep → Option Nat
  | n, opening _ => some (n + 1)
  | n, closing => if n = 0 then none else some (n - 1)
  | n, _ => some n

/-- How many of the chains opened in a stretch of steps are open at its end; none if the stretch
closes a chain that was open before it. -/
def depth (steps : List ConditionStep) : Option Nat := steps.foldlM depthFrom 0

/-- The tests of the branches in a stretch of steps that belong to the chain around it, where so
many chains are open inside that chain. -/
def ownTests : Nat → List ConditionStep → List Bool
  | _, [] => []
  | n, opening _ :: steps => ownTests (n + 1) steps
  | n, closing :: steps => ownTests (n - 1) steps
  | 0, branch test :: steps => test :: ownTests 0 steps
  | n + 1, branch _ :: steps => ownTests (n + 1) steps
  | n, other :: steps => ownTests n steps

/-- Is there a chain, opened by the step behind so many others, in which so many chains are open at
the end of the steps, and are these the tests of the branches that it has had? -/
def ChainAt (steps : List ConditionStep) (start inner : Nat) (tests : List Bool) : Prop :=
  ∃ before test inside, steps = before ++ opening test :: inside ∧ before.length = start ∧
    depth inside = some inner ∧ tests = test :: ownTests 0 inside

/-- Is a chain open at the end of the steps, and are these the tests of the branches it has had? -/
def OpenChain (steps : List ConditionStep) (start : Nat) (tests : List Bool) : Prop :=
  ∃ inner, ChainAt steps start inner tests

/-- Is the last of some branches the first one whose test holds? -/
def Selected (tests : List Bool) : Prop := tests.getLast? = some true ∧ true ∉ tests.dropLast

/-- Is every chain that is open at the end of the steps in its selected branch? -/
def InSelected (steps : List ConditionStep) : Prop :=
  ∀ start tests, OpenChain steps start tests → Selected tests

instance (tests : List Bool) : Decidable (Selected tests) := inferInstanceAs (Decidable (_ ∧ _))

/-! ### One more step -/

/-- The test that a step adds to those of a chain in which so many chains are open. -/
def newTests : Nat → ConditionStep → List Bool
  | 0, branch test => [test]
  | _, _ => []

theorem depth_append (steps : List ConditionStep) (e : ConditionStep) :
    depth (steps ++ [e]) = (depth steps).bind fun n => depthFrom n e := by
  rw [depth, List.foldlM_append]
  change (depth steps).bind _ = _
  congr 1
  funext n
  change (depthFrom n e).bind pure = _
  cases depthFrom n e <;> rfl

/-- A branch that ends the steps belongs to the chain around them if no chain is open inside. -/
theorem ownTests_append {n m : Nat} {steps : List ConditionStep}
    (h : steps.foldlM depthFrom n = some m) (e : ConditionStep) :
    ownTests n (steps ++ [e]) = ownTests n steps ++ newTests m e := by
  induction steps generalizing n with
  | nil =>
    obtain rfl : n = m := by simpa using h
    cases n <;> cases e <;> rfl
  | cons x steps ih =>
    rw [List.foldlM_cons] at h
    obtain ⟨k, hk, h⟩ := Option.bind_eq_some_iff.mp h
    have ih := ih h
    cases x with
    | opening test =>
      obtain rfl : n + 1 = k := Option.some.inj hk
      cases n <;> exact ih
    | branch test =>
      obtain rfl : n = k := Option.some.inj hk
      cases n with
      | zero => exact congrArg (test :: ·) ih
      | succ n => exact ih
    | closing =>
      rw [depthFrom] at hk
      split at hk
      · simp at hk
      · obtain rfl := Option.some.inj hk
        cases n <;> exact ih
    | other =>
      obtain rfl : n = k := Option.some.inj hk
      cases n <;> exact ih

variable {steps : List ConditionStep} {start inner : Nat} {tests : List Bool} {e : ConditionStep}

theorem not_chainAt_nil : ¬ChainAt [] start inner tests := by
  rintro ⟨before, test, inside, h, -⟩
  simp at h

/-- **The chains after one more step** are the one that the step opens and those before it, as the
step changes them. -/
theorem chainAt_append : ChainAt (steps ++ [e]) start inner tests ↔
    (∃ test, e = opening test ∧ start = steps.length ∧ inner = 0 ∧ tests = [test]) ∨
    ∃ n old, ChainAt steps start n old ∧ depthFrom n e = some inner ∧ tests = old ++
    newTests n e := by
  constructor
  · rintro ⟨before, test, inside, h, rfl, hdepth, rfl⟩
    rcases List.eq_nil_or_concat inside with rfl | ⟨inside, x, rfl⟩
    · obtain ⟨rfl, hx⟩ := List.append_inj' h rfl
      exact .inl ⟨test, List.cons.inj hx |>.1, rfl, (Option.some.inj hdepth).symm, rfl⟩
    · rw [List.concat_eq_append] at *
      rw [← List.cons_append, ← List.append_assoc] at h
      obtain ⟨rfl, hx⟩ := List.append_inj' h rfl
      obtain rfl := List.cons.inj hx |>.1
      rw [depth_append] at hdepth
      obtain ⟨n, hn, hdepth⟩ := Option.bind_eq_some_iff.mp hdepth
      refine .inr ⟨n, _, ⟨before, test, inside, rfl, rfl, hn, rfl⟩, hdepth, ?_⟩
      rw [ownTests_append hn, List.cons_append]
  · rintro (⟨test, rfl, rfl, rfl, rfl⟩ | ⟨n, old, ⟨before, test, inside, rfl, rfl, hn, rfl⟩, hd,
      rfl⟩)
    · exact ⟨steps, test, [], rfl, rfl, rfl, rfl⟩
    · refine ⟨before, test, inside ++ [e], by simp, rfl, ?_, ?_⟩
      · rw [depth_append, hn]
        exact hd
      · rw [ownTests_append hn, List.cons_append]

/-! ### The open chains in order -/

/-- The open chains, the innermost one first, each by where it was opened and the tests of its
branches. -/
abbrev Chains := List (Nat × List Bool)

/-- The open chains after a step behind so many others. -/
def next (chains : Chains) (n : Nat) (e : ConditionStep) : Chains :=
  match e, chains with
  | opening test, chains => (n, [test]) :: chains
  | branch test, (start, tests) :: chains => (start, tests ++ [test]) :: chains
  | closing, _ :: chains => chains
  | _, chains => chains

/-- Are these the open chains at the end of the steps, in order? -/
def Lists (steps : List ConditionStep) (chains : Chains) : Prop :=
  ∀ start inner tests, ChainAt steps start inner tests ↔ chains[inner]? = some (start, tests)

theorem lists_nil : Lists [] [] := fun start inner tests => by
  simp [not_chainAt_nil]

/-- **One more step changes the list of the open chains at its head only.** -/
theorem Lists.next {chains : Chains} (h : Lists steps chains) (e : ConditionStep) :
    Lists (steps ++ [e]) (next chains steps.length e) := by
  intro start inner tests
  have hold : (∃ n old, ChainAt steps start n old ∧ depthFrom n e = some inner ∧
      tests = old ++ newTests n e) ↔
      ∃ n old, chains[n]? = some (start, old) ∧ depthFrom n e = some inner ∧
        tests = old ++ newTests n e :=
    exists_congr fun n => exists_congr fun old => and_congr_left fun _ => h start n old
  rw [chainAt_append, hold]
  cases e with
  | opening test => cases inner <;> simp [ConditionStep.next, depthFrom, newTests, eq_comm]
  | branch test =>
    cases chains with
    | nil => simp [ConditionStep.next]
    | cons chain chains =>
      obtain ⟨first, old⟩ := chain
      cases inner with
      | zero =>
        simp only [ConditionStep.next, depthFrom, newTests, Option.some.injEq]
        constructor
        · rintro (⟨test', h, -⟩ | ⟨n, old', hn, rfl, rfl⟩)
          · cases h
          · obtain ⟨rfl, rfl⟩ := Prod.mk.inj (Option.some.inj hn)
            rfl
        · intro h
          obtain ⟨rfl, rfl⟩ := Prod.mk.inj (Option.some.inj h)
          exact .inr ⟨0, old, rfl, rfl, rfl⟩
      | succ inner => simp [ConditionStep.next, depthFrom, newTests]
  | closing =>
    cases chains with
    | nil => simp [ConditionStep.next]
    | cons chain chains =>
      have hclose (n : Nat) : depthFrom n closing = some inner ↔ n = inner + 1 := by
        rw [depthFrom]
        split <;> simp <;> omega
      simp [ConditionStep.next, hclose, newTests]
  | other => simp [ConditionStep.next, depthFrom, newTests]

/-- Were these chains opened one after the other, the first one of the list last, and all before so
many steps were taken? -/
def Chains.InOrder (chains : Chains) (n : Nat) : Prop := (n :: chains.map (·.1)).Pairwise (· > ·)

theorem Chains.inOrder_nil : Chains.InOrder [] 0 := by
  simp [InOrder]

theorem Chains.InOrder.next {chains : Chains} {n : Nat} (h : chains.InOrder n) (e : ConditionStep) :
    (ConditionStep.next chains n e).InOrder (n + 1) := by
  have hold : chains.InOrder (n + 1) := by
    obtain ⟨hlt, hp⟩ := List.pairwise_cons.mp h
    exact List.pairwise_cons.mpr ⟨fun s hs => Nat.lt_succ_of_lt (hlt s hs), hp⟩
  have hopen (tests : List Bool) : Chains.InOrder ((n, tests) :: chains) (n + 1) := by
    obtain ⟨hlt, -⟩ := List.pairwise_cons.mp h
    refine List.pairwise_cons.mpr ⟨fun s hs => ?_, h⟩
    rcases List.mem_cons.mp hs with rfl | hs
    · exact Nat.lt_succ_self _
    · exact Nat.lt_succ_of_lt (hlt s hs)
  cases e with
  | opening test => exact hopen _
  | branch test => cases chains <;> exact hold
  | closing =>
    cases chains with
    | nil => exact hold
    | cons chain chains =>
      exact hold.sublist (.cons_cons _ (List.sublist_cons_self _ _))
  | other => cases chains <;> exact hold

/-! ### Chains in chains -/

/-- The chains around a chain are as they were when it was opened as long as it is open. -/
theorem ChainAt.inside {before inside : List ConditionStep} {test : Bool}
    (h : ChainAt before start inner tests) {n : Nat} (hn : depth inside = some n) :
    ChainAt (before ++ opening test :: inside) start (inner + 1 + n) tests := by
  induction inside using List.reverseRec generalizing n with
  | nil =>
    obtain rfl : 0 = n := Option.some.inj hn
    exact chainAt_append.mpr (.inr ⟨inner, tests, h, rfl, by cases inner <;> simp [newTests]⟩)
  | append_singleton inside e ih =>
    rw [depth_append] at hn
    obtain ⟨m, hm, hn⟩ := Option.bind_eq_some_iff.mp hn
    have hnew : newTests (inner + 1 + m) e = [] := by
      rw [Nat.add_right_comm]
      rfl
    have hdepth : depthFrom (inner + 1 + m) e = some (inner + 1 + n) := by
      cases e with
      | closing =>
        rw [depthFrom] at hn
        split at hn
        · simp at hn
        · obtain rfl := Option.some.inj hn
          rw [depthFrom, if_neg (by omega)]
          congr 1
          omega
      | _ =>
        obtain rfl := Option.some.inj hn
        rfl
    rw [← List.cons_append, ← List.append_assoc]
    exact chainAt_append.mpr (.inr ⟨_, tests, ih hm, hdepth, by simp [hnew]⟩)

/-- **Where text is in selected branches, every open chain was opened in such text.** -/
theorem InSelected.opened (h : InSelected steps) (hc : OpenChain steps start tests) :
    start < steps.length ∧ InSelected (steps.take start) := by
  obtain ⟨inner, before, test, inside, rfl, rfl, hdepth, -⟩ := hc
  rw [List.take_left]
  exact ⟨by simp, fun _ _ ⟨_, hc⟩ => h _ _ ⟨_, hc.inside hdepth⟩⟩

/-! ### Branches -/

theorem selected_singleton (test : Bool) : Selected [test] ↔ test = true := by
  simp [Selected]

/-- A new branch is selected if its test holds and that of none before it does. -/
theorem selected_append (tests : List Bool) (test : Bool) :
    Selected (tests ++ [test]) ↔ test = true ∧ true ∉ tests := by
  simp [Selected]

/-- Text is in selected branches where all chains of the list are. -/
theorem Lists.inSelected {chains : Chains} (h : Lists steps chains) :
    InSelected steps ↔ ∀ chain ∈ chains, Selected chain.2 := by
  constructor
  · intro hsel chain hc
    obtain ⟨inner, hinner⟩ := List.mem_iff_getElem?.mp hc
    exact hsel _ _ ⟨inner, (h _ _ _).mpr hinner⟩
  · rintro hsel start tests ⟨inner, hc⟩
    exact hsel (start, tests) (List.mem_of_getElem? ((h _ _ _).mp hc))

end ConditionStep

/-! ### Frames -/

open ConditionStep

/-- Does a frame say of a chain what its branches say, where text around the chain is active or not?
In inactive text no branch is active, and whether one was taken does not matter. -/
structure Conditional.Frames (c : Conditional) (around : Bool) (tests : List Bool) : Prop where
  outer : c.outerActive = around
  taken : around = true → (c.branchTaken = true ↔ true ∈ tests)
  active : c.active = true ↔ around = true ∧ Selected tests

namespace Conditionals

/-- Do frames say of the open chains what their branches say, and where they begin? -/
inductive Framed (place : Nat → Nat × Nat) : Conditionals → Chains → Prop
  | nil : Framed place [] []
  | cons {c cs start tests chains} (hc : c.Frames (active cs) tests)
    (hplace : place start = (c.line, c.column)) (hcs : Framed place cs chains) :
    Framed place (c :: cs) ((start, tests) :: chains)

variable {place : Nat → Nat × Nat} {cs : Conditionals} {chains : Chains}

/-- **Text is active where every open chain is in its selected branch.** -/
theorem Framed.active_iff (h : Framed place cs chains) :
    cs.active = true ↔ ∀ chain ∈ chains, Selected chain.2 := by
  induction h with
  | nil => simp [active]
  | cons hc _ _ ih =>
    rw [List.forall_mem_cons, ← ih, and_comm, ← hc.active]
    simp [active]

theorem Framed.openChain (h : Framed place cs chains) {n line column : Nat}
    (hplace : place n = (line, column)) (test : Bool) :
    Framed place (cs.openChain test line column) (next chains n (.opening test)) := by
  refine .cons ⟨rfl, fun ha => ?_, ?_⟩ hplace h
  · simp [ha, eq_comm]
  · simp [selected_singleton]

theorem Framed.nextBranch (h : Framed place cs chains) (n : Nat) (test : Bool) :
    Framed place ((cs.nextBranch? test).getD cs) (next chains n (.branch test)) := by
  cases h with
  | nil => exact .nil
  | @cons c cs start tests chains hc hplace hcs =>
    refine .cons ⟨hc.outer, fun ha => ?_, ?_⟩ hplace hcs
    · have htaken := hc.taken ha
      cases htest : test <;> simp [hc.outer, ha, htaken]
    · rw [selected_append]
      simp only [hc.outer, Bool.and_eq_true, Bool.not_eq_true', and_assoc]
      refine and_congr_right fun ha => ?_
      rw [← Bool.not_eq_true, hc.taken ha, and_comm]

theorem Framed.lastBranch (h : Framed place cs chains) (n : Nat) :
    Framed place (cs.lastBranch?.getD cs) (next chains n (.branch true)) := by
  cases h with
  | nil => exact .nil
  | @cons c cs start tests chains hc hplace hcs =>
    refine .cons ⟨hc.outer, fun ha => by simp, ?_⟩ hplace hcs
    rw [selected_append]
    simp only [hc.outer, Bool.and_eq_true, Bool.not_eq_true', true_and]
    refine and_congr_right fun ha => ?_
    rw [← Bool.not_eq_true, hc.taken ha]

theorem Framed.closeChain (h : Framed place cs chains) (n : Nat) :
    Framed place (cs.closeChain?.getD cs) (next chains n .closing) := by
  cases h with
  | nil => exact .nil
  | cons _ _ hcs => exact hcs

/-- A frame for each open chain. -/
theorem Framed.map_place (h : Framed place cs chains) :
    cs.map (fun c => (c.line, c.column)) = chains.map fun chain => place chain.1 := by
  induction h with
  | nil => rfl
  | cons _ hplace _ ih => simp [hplace, ih]

end Conditionals

end Verilog
