import Verilog.Node.Validate
import Verilog.Proofs.Node.Query

/-!
# What the check of the links tells

The check of a table follows every chain of children and marks what it meets, and it leaves a chain
at a node that is marked already. So it ends on every table, however the links lead: each turn that
does not leave the chain marks one more node (`NodeTable.unmarked_mark`).

A chain in which nothing is wrong ends, and holds children of the one node that its members name as
their parent (`NodeTable.Checks.linked`). This is all that is checked: a node is marked as a child
once, but that it is marked does not say that it is above the chain. Nodes that stand above each
other in a ring have nothing wrong with them, each being a child of one node only. What can be said
of a table that passes is therefore said apart for nodes that are above themselves and for the
others (`NodeTable.checks_links`).
-/

namespace Verilog

/-- Is a problem one of nodes, and not of a design element? -/
def TableProblem.isOfNodes : TableProblem → Bool
  | missingNode .. | linkedTwice _ | wrongParent .. => true
  | endsBeforeStart _ => false

namespace NodeTable

variable {t : NodeTable} {id p q r : Nat} {ids ps : List Nat} {seen after : Array Bool}
  {found : List TableProblem}

/-! ### Marks -/

theorem getD_mark (h : id < seen.size) (q : Nat) :
    (seen.setIfInBounds id true).getD q false = (decide (q = id) || seen.getD q false) := by
  rw [Array.getD_eq_getD_getElem?, Array.getD_eq_getD_getElem?, Array.getElem?_setIfInBounds]
  by_cases hq : q = id
  · simp [hq, h]
  · simp [hq, Ne.symm hq]

/-- The number of nodes that are not marked. -/
def unmarked (t : NodeTable) (seen : Array Bool) : Nat :=
  ((Finset.Icc 1 t.size).filter fun q => seen.getD q false = false).card

theorem unmarked_le (t : NodeTable) (seen : Array Bool) : t.unmarked seen ≤ t.size :=
  (Finset.card_filter_le _ _).trans (by simp)

/-- **A node that gets a mark** is one less without. -/
theorem unmarked_mark (hsize : seen.size = t.size + 1) (hid : t.contains id)
    (hseen : seen.getD id false = false) :
    t.unmarked (seen.setIfInBounds id true) < t.unmarked seen := by
  obtain ⟨hpos, hle⟩ := contains_iff.mp hid
  have hmark : ∀ q, (seen.setIfInBounds id true).getD q false =
      (decide (q = id) || seen.getD q false) := getD_mark (by omega)
  refine Finset.card_lt_card (Finset.ssubset_iff_of_subset ?_ |>.mpr ⟨id, ?_, ?_⟩)
  · intro q hq
    rw [Finset.mem_filter, hmark, Bool.or_eq_false_iff] at hq
    exact Finset.mem_filter.mpr ⟨hq.1, hq.2.2⟩
  · exact Finset.mem_filter.mpr ⟨Finset.mem_Icc.mpr ⟨hpos, hle⟩, hseen⟩
  · simp [hmark]

/-! ### Runs of the check -/

/-- **The check of a chain**, which goes on to the next sibling for as long as there is one and
nothing keeps it from being marked. From a node the check ends, with these problems and marks. -/
inductive Checks (t : NodeTable) (p : NodeId) :
    NodeId → Array Bool → List TableProblem → Array Bool → Prop where
  /-- The chain has ended. -/
  | ended {seen : Array Bool} : t.Checks p 0 seen [] seen
  /-- There is no such node. -/
  | missing {id : NodeId} {seen : Array Bool} (h0 : id ≠ 0) (hid : ¬t.contains id) :
      t.Checks p id seen [.missingNode p id] seen
  /-- The node is marked already. -/
  | twice {id : NodeId} {seen : Array Bool} (hid : t.contains id)
      (hseen : seen.getD id false = true) : t.Checks p id seen [.linkedTwice id] seen
  /-- The node is marked, and its parent is looked at. -/
  | marks {id : NodeId} {seen after : Array Bool} {found : List TableProblem}
      (hid : t.contains id) (hseen : seen.getD id false = false)
      (rest : t.Checks p (t.sibling id) (seen.setIfInBounds id true) found after) :
      t.Checks p id seen
        ((if t.parent id = p then [] else [.wrongParent id p (t.parent id)]) ++ found) after

/-- **The check of the chains of some nodes**, one after the other. -/
inductive ChecksAll (t : NodeTable) : List NodeId → Array Bool → List TableProblem → Prop where
  /-- No node is left. -/
  | done {seen : Array Bool} : t.ChecksAll [] seen []
  /-- The chain of the next node is checked. -/
  | next {p : NodeId} {ps : List NodeId} {seen after : Array Bool}
      {found rest : List TableProblem} (first : t.Checks p (t.child p) seen found after)
      (others : t.ChecksAll ps after rest) : t.ChecksAll (p :: ps) seen (found ++ rest)

/-- **The check of a chain ends**, and gives what is computed from as much of the chain as there are
nodes without a mark. -/
theorem checks_markChain {fuel : Nat} (p id : NodeId) (hsize : seen.size = t.size + 1)
    (hfuel : t.unmarked seen < fuel) :
    t.Checks p id seen (t.markChain p (t.chain fuel id) seen).1
        (t.markChain p (t.chain fuel id) seen).2 ∧
      (t.markChain p (t.chain fuel id) seen).2.size = t.size + 1 := by
  induction fuel generalizing id seen with
  | zero => exact absurd hfuel (Nat.not_lt_zero _)
  | succ fuel ih =>
    by_cases h0 : id = 0
    · subst h0
      exact ⟨.ended, hsize⟩
    rw [chain, if_neg h0, markChain]
    by_cases hid : t.contains id
    · cases hseen : seen.getD id false with
      | true =>
        simp only [hid, Bool.not_true, Bool.false_eq_true, if_false, if_true]
        exact ⟨.twice hid hseen, hsize⟩
      | false =>
        have hlt := unmarked_mark hsize hid hseen
        obtain ⟨hrest, hafter⟩ := ih (t.sibling id) (by simpa using hsize)
          (Nat.lt_of_lt_of_le hlt (Nat.le_of_lt_succ hfuel))
        have hchecks := Checks.marks hid hseen hrest
        simp only [hid, Bool.not_true, Bool.false_eq_true, if_false]
        by_cases hp : t.parent id = p
        · rw [if_pos hp, List.nil_append] at hchecks
          rw [if_pos hp]
          exact ⟨hchecks, hafter⟩
        · rw [if_neg hp] at hchecks
          rw [if_neg hp]
          exact ⟨hchecks, hafter⟩
    · simp only [hid, Bool.not_false, if_true]
      exact ⟨.missing h0 hid, hsize⟩

/-- **The check ends on every table**, and finds the problems that are listed. -/
theorem checksAll_linkProblems (hsize : seen.size = t.size + 1) :
    t.ChecksAll ps seen (t.linkProblems ps seen) := by
  induction ps generalizing seen with
  | nil => exact .done
  | cons p ps ih =>
    have hfuel : t.unmarked seen < t.size + 1 := Nat.lt_succ_of_le (t.unmarked_le seen)
    obtain ⟨hfirst, hafter⟩ := checks_markChain p (t.child p) hsize hfuel
    exact .next hfirst (ih hafter)

theorem checksAll_ids (t : NodeTable) : t.ChecksAll t.ids (Array.replicate (t.size + 1) false)
    (t.linkProblems t.ids (Array.replicate (t.size + 1) false)) :=
  checksAll_linkProblems (by simp)

/-! ### What is found -/

theorem Checks.isOfNodes (h : t.Checks p id seen found after) :
    ∀ problem ∈ found, problem.isOfNodes := by
  induction h with
  | ended => simp
  | missing | twice => simp [TableProblem.isOfNodes]
  | marks hid hseen rest ih =>
    rw [List.forall_mem_append]
    refine ⟨?_, ih⟩
    split <;> simp [TableProblem.isOfNodes]

theorem ChecksAll.isOfNodes (h : t.ChecksAll ps seen found) :
    ∀ problem ∈ found, problem.isOfNodes := by
  induction h with
  | done => simp
  | next first others ih => exact List.forall_mem_append.mpr ⟨first.isOfNodes, ih⟩

/-- **A chain in which nothing is wrong** ends, and its members are there, name the node that it
belongs to as their parent, and had no marks. -/
theorem Checks.chained (h : t.Checks p id seen found after) (hnone : found = [])
    (hsize : seen.size = t.size + 1) :
    ∃ ids : List Nat, t.Chained id ids ∧ ids.Nodup ∧
      ∀ q ∈ ids, t.contains q ∧ t.parent q = p ∧ seen.getD q false = false := by
  induction h with
  | ended => exact ⟨[], rfl, .nil, by simp⟩
  | missing | twice => cases hnone
  | @marks id seen after found hid hseen rest ih =>
    obtain ⟨hparent, hfound⟩ := List.append_eq_nil_iff.mp hnone
    have hp : t.parent id = p := by
      by_contra hp
      rw [if_neg hp] at hparent
      cases hparent
    obtain ⟨ids, hchained, hnodup, hids⟩ := ih hfound (by simpa using hsize)
    obtain ⟨hpos, hle⟩ := contains_iff.mp hid
    -- what is marked later was not marked before, and the node has just been marked
    have hmarks : ∀ q ∈ ids, q ≠ id ∧ seen.getD q false = false := by
      intro q hq
      have hlater := (hids q hq).2.2
      rw [getD_mark (by omega), Bool.or_eq_false_iff, decide_eq_false_iff_not] at hlater
      exact hlater
    refine ⟨id :: ids, ⟨rfl, Nat.pos_iff_ne_zero.mp hpos, hchained⟩, ?_, ?_⟩
    · exact List.nodup_cons.mpr ⟨fun hmem => (hmarks id hmem).1 rfl, hnodup⟩
    · rw [List.forall_mem_cons]
      exact ⟨⟨hid, hp, hseen⟩, fun q hq => ⟨(hids q hq).1, (hids q hq).2.1, (hmarks q hq).2⟩⟩

theorem Checks.size (h : t.Checks p id seen found after) : after.size = seen.size := by
  induction h with
  | ended | missing | twice => rfl
  | marks hid hseen rest ih => simpa using ih

theorem ChecksAll.exists_checks (h : t.ChecksAll ps seen found) (hnone : found = [])
    (hsize : seen.size = t.size + 1) {p : NodeId} (hp : p ∈ ps) :
    ∃ seen after, t.Checks p (t.child p) seen [] after ∧ seen.size = t.size + 1 := by
  induction h with
  | done => cases hp
  | @next p' ps seen after found rest first others ih =>
    obtain ⟨rfl, hrest⟩ := List.append_eq_nil_iff.mp hnone
    rcases List.mem_cons.mp hp with rfl | hp
    · exact ⟨seen, after, first, hsize⟩
    · exact ih hrest (first.size.trans hsize) hp

/-- **Where the check finds nothing wrong**, every chain is that of the children of one node. -/
theorem ChecksAll.linked (h : t.ChecksAll t.ids seen []) (hsize : seen.size = t.size + 1) :
    t.Linked t.children := by
  have hchain : ∀ p : Nat, ∃ ids : List Nat, t.Chained (t.child p) ids ∧ ids.Nodup ∧
      ∀ q ∈ ids, t.contains q ∧ t.parent q = p := by
    intro p
    by_cases hp : t.contains p
    · obtain ⟨_, _, hchecks, hsize⟩ := h.exists_checks rfl hsize (mem_ids.mpr hp)
      obtain ⟨ids, hchained, hnodup, hids⟩ := hchecks.chained rfl hsize
      exact ⟨ids, hchained, hnodup, fun q hq => ⟨(hids q hq).1, (hids q hq).2.1⟩⟩
    · refine ⟨[], ?_, .nil, by simp⟩
      rw [child, node_of_not_contains hp]
      rfl
  choose kids hchained hnodup hkids using hchain
  have hlinked : t.Linked kids :=
    ⟨hchained, fun p q hq => (hkids p q hq).1, fun p q hq => (hkids p q hq).2, hnodup⟩
  exact hlinked.children

/-- The problems of nodes are those of links. -/
theorem filter_problems (t : NodeTable) : t.problems.filter TableProblem.isOfNodes =
    t.linkProblems t.ids (Array.replicate (t.size + 1) false) := by
  have hlinks := t.checksAll_ids.isOfNodes
  have helements : t.elementProblems.filter TableProblem.isOfNodes = [] := by
    rw [List.filter_eq_nil_iff, elementProblems]
    intro problem hmem
    obtain ⟨e, -, rfl⟩ := List.mem_map.mp hmem
    simp [TableProblem.isOfNodes]
  rw [problems, List.filter_append, List.filter_eq_self.mpr hlinks, helements, List.append_nil]

/-- **The check of the links is exact**: it finds nothing wrong with the nodes of a table exactly if
every chain is that of the children of one node. -/
theorem filter_problems_eq_nil_iff :
    t.problems.filter TableProblem.isOfNodes = [] ↔ t.Linked t.children := by
  rw [filter_problems]
  constructor
  · intro hnone
    have hchecks := t.checksAll_ids
    rw [hnone] at hchecks
    exact hchecks.linked (by simp)
  · exact fun h => h.linkProblems_ids

/-- A node without a parent is a child of none. -/
theorem Linked.not_above_of_parent (h : t.Linked t.children) (hr : t.parent r = 0) :
    ¬t.Above r r := by
  intro hup
  obtain ⟨q, -, hmem⟩ := Relation.TransGen.tail'_iff.mp hup
  obtain rfl : q = 0 := (h.parent q r hmem).symm.trans hr
  exact t.not_mem_children_zero r hmem

/-- **What the check of the links tells.** It ends on every table. Where it finds nothing wrong with
the nodes, following siblings ends, and what it meets below a node are nodes that name it as their
parent, none of them twice. The walk downwards from a node ends exactly if the node is not above
itself, and then it meets every node of the tree once; so it is from all nodes without a parent. The
links are a forest exactly if no node is above itself, which the check does not see. -/
theorem checks_links (t : NodeTable) :
    t.ChecksAll t.ids (Array.replicate (t.size + 1) false)
      (t.problems.filter TableProblem.isOfNodes) ∧
    (t.problems.filter TableProblem.isOfNodes = [] ↔ t.Linked t.children) ∧
    (t.problems.filter TableProblem.isOfNodes = [] →
      (∀ r : NodeId, r ≠ 0 → ((∃ met, t.Walks [r] met) ↔ ¬t.Above r r) ∧
        (¬t.Above r r → t.Traversed r)) ∧
      (∀ r : NodeId, t.parent r = 0 → ¬t.Above r r) ∧
      (t.IsForest ↔ ∀ r : NodeId, ¬t.Above r r)) := by
  refine ⟨?_, filter_problems_eq_nil_iff, fun hnone => ?_⟩
  · rw [filter_problems]
    exact t.checksAll_ids
  · have h := filter_problems_eq_nil_iff.mp hnone
    exact ⟨fun r hr0 => ⟨h.exists_walks_iff hr0, h.traversed hr0⟩,
      fun r => h.not_above_of_parent, fun hforest => hforest.acyclic, fun hacyclic => ⟨h, hacyclic⟩⟩

theorem checks_links_lateOperand : lateOperand.problems.filter TableProblem.isOfNodes = [] ∧
    lateOperand.Linked lateOperand.children ∧ lateOperand.parent 1 = 0 ∧
    lateOperand.Traversed 1 := by
  obtain ⟨-, hexact, hsound⟩ := checks_links lateOperand
  have hnone : lateOperand.problems.filter TableProblem.isOfNodes = [] := by decide
  obtain ⟨hwalks, htop, -⟩ := hsound hnone
  have hroot : lateOperand.parent 1 = 0 := by decide
  exact ⟨hnone, hexact.mp hnone, hroot, (hwalks 1 (by decide)).2 (htop 1 hroot)⟩

/-- A node that has been put below its own child. -/
def ringOfTwo : NodeTable :=
  let node : Node :=
    { kind := .paExpression, file := none, line := 1, column := 1, endLine := 1, endColumn := 2 }
  let t := (({ file := none, library := "work" } : NodeTable).add node).2
  (t.addChild 1 node).2.append 2 1

/-- **The check passes a ring**: nothing is wrong with either node, each being the one child of the
other and naming it as its parent, and the walk from one of them does not end. -/
theorem passes_ringOfTwo : ringOfTwo.problems = [] ∧ ringOfTwo.Above 1 1 ∧
    ¬∃ met, ringOfTwo.Walks [1] met := by
  have hring : ringOfTwo.Above 1 1 :=
    .tail (.single (by decide : 2 ∈ ringOfTwo.children 1)) (by decide : 1 ∈ ringOfTwo.children 2)
  refine ⟨by decide, hring, fun ⟨met, hwalk⟩ => ?_⟩
  exact not_above_of_acc (hwalk.acc 1 List.mem_cons_self) hring

end NodeTable

end Verilog
