import Verilog.Proofs.Node.Forest

/-!
# What queries find

Queries over a tree are loops: they go along the chain of the children of a node, walk with a stack,
or follow parents upwards. In a forest all of them end, and what they find is told by recursion on
the tree: the nodes of a tree, and those of a kind among them, are the root and then what is found
below each child (`NodeTable.queries_recursive`).

The way up is a chain as well, of parents, and no longer than the number of all nodes
(`NodeTable.IsForest.exists_climbs`). It holds the nodes that are above a node, each before those
above itself, so that the first one of some kinds is the nearest.
-/

namespace Verilog

namespace NodeTable

variable {t : NodeTable} {id p q r : Nat} {ups : List Nat} {k : NodeKind} {kinds : List NodeKind}

/-! ### Ways up -/

/-- Following parents from a node up gives a list of nodes and then ends. -/
def Climbs (t : NodeTable) : NodeId → List NodeId → Prop
  | id, [] => t.parent id = 0
  | id, up :: ups => t.parent id = up ∧ up ≠ 0 ∧ t.Climbs up ups

theorem ancestorsWithin_of_climbs {fuel : Nat} (h : t.Climbs id ups) (hf : ups.length ≤ fuel) :
    t.ancestorsWithin fuel id = ups := by
  induction ups generalizing id fuel with
  | nil =>
    have hid : t.parent id = 0 := h
    cases fuel with
    | zero => rfl
    | succ fuel => simp [ancestorsWithin, hid]
  | cons up ups ih =>
    obtain ⟨rfl, hup, h⟩ := h
    cases fuel with
    | zero => simp at hf
    | succ fuel =>
      simp only [ancestorsWithin, if_neg hup]
      rw [ih h (by simpa using hf)]

/-- **The way up ends** and goes through what is above a node, the nearest first. It is no longer
than the number of nodes leaves room above those below the node. -/
theorem IsForest.exists_climbs (h : t.IsForest) (hp : t.ParentsAgree) (id : NodeId) :
    ∃ ups : List NodeId, t.Climbs id ups ∧ ups.length + t.weight id ≤ t.size ∧
      (∀ p : NodeId, p ∈ ups ↔ t.Above p id) ∧ ups.Pairwise fun a b => t.Above b a := by
  -- a parent has more nodes below it than its child, and none has more than there are
  induction hn : t.size - t.weight id using Nat.strong_induction_on generalizing id with
  | _ n ih =>
    subst hn
    by_cases hid : t.parent id = 0
    · refine ⟨[], hid, by simpa using t.weight_le id, fun p => ?_, .nil⟩
      refine ⟨fun hmem => (nomatch hmem), fun hup => ?_⟩
      obtain ⟨q, -, hmem⟩ := Relation.TransGen.tail'_iff.mp hup
      obtain rfl : q = 0 := (h.linked.parent q id hmem).symm.trans hid
      exact absurd hmem (t.not_mem_children_zero id)
    · have hmem := hp id hid
      have hlt := h.linked.weight_lt hmem (h.acyclic id)
      have hle := t.weight_le (t.parent id)
      obtain ⟨ups, hclimbs, hlength, hups, hsorted⟩ := ih _ (by omega) (t.parent id) rfl
      refine ⟨t.parent id :: ups, ⟨rfl, hid, hclimbs⟩, ?_, fun p => ?_, ?_⟩
      · rw [List.length_cons]
        omega
      · rw [List.mem_cons, hups, h.linked.above_iff hmem]
      · exact List.pairwise_cons.mpr ⟨fun b hb => (hups b).mp hb, hsorted⟩

/-- **Is this the nearest node above another one** that is of one of some kinds? -/
def NearestAbove (t : NodeTable) (id : NodeId) (kinds : List NodeKind) (p : NodeId) : Prop :=
  t.Above p id ∧ t.kind p ∈ kinds ∧
    ∀ q : NodeId, t.Above q id → t.kind q ∈ kinds → ¬t.Above p q

/-- The nearest node is one only. -/
theorem IsForest.eq_of_nearestAbove (h : t.IsForest) (hp : t.NearestAbove id kinds p)
    (hq : t.NearestAbove id kinds q) : p = q := by
  rcases h.linked.total (.inr hp.1) (.inr hq.1) with heq | hpq | hqp
  · exact heq
  · exact absurd hpq (hp.2.2 q hq.1 hq.2.1)
  · exact absurd hqp (hq.2.2 p hp.1 hp.2.1)

/-- What the search on the way up gives, by whether there is anything to find. -/
theorem IsForest.ancestorOf_cases (h : t.IsForest) (hp : t.ParentsAgree) (id : NodeId)
    (kinds : List NodeKind) :
    (t.ancestorOf id kinds = 0 ∧ ∀ p, t.Above p id → t.kind p ∉ kinds) ∨
      t.NearestAbove id kinds (t.ancestorOf id kinds) := by
  obtain ⟨ups, hclimbs, hlength, hups, hsorted⟩ := h.exists_climbs hp id
  have hfound : t.ancestorOf id kinds =
      (ups.find? fun up => kinds.contains (t.kind up)).getD 0 := by
    rw [ancestorOf, ancestorsWithin_of_climbs hclimbs (by omega)]
  cases hf : ups.find? fun up => kinds.contains (t.kind up) with
  | none =>
    rw [List.find?_eq_none] at hf
    refine .inl ⟨by rw [hfound, List.find?_eq_none.mpr hf]; rfl, fun p hup => ?_⟩
    simpa using hf p ((hups p).mpr hup)
  | some a =>
    have ha : t.ancestorOf id kinds = a := by rw [hfound, hf]; rfl
    obtain ⟨hkind, before, behind, rfl, hbefore⟩ := List.find?_eq_some_iff_append.mp hf
    rw [ha]
    refine .inr ⟨(hups a).mp (by simp), by simpa using hkind, fun q hup hq haq => ?_⟩
    -- what is of one of the kinds is the found node or comes behind it, and so is above it
    rcases List.mem_append.mp ((hups q).mpr hup) with hmem | hmem
    · have hno := hbefore q hmem
      simp [hq] at hno
    · rcases List.mem_cons.mp hmem with rfl | hmem
      · exact h.acyclic q haq
      · have hqa := List.rel_of_pairwise_cons (List.pairwise_append.mp hsorted).2.1 hmem
        exact h.acyclic a (haq.trans hqa)

/-- **The search on the way up finds the nearest node**, and nothing only where there is none. -/
theorem IsForest.ancestorOf_iff (h : t.IsForest) (hp : t.ParentsAgree) (id : NodeId)
    (kinds : List NodeKind) :
    (∀ p : NodeId, p ≠ 0 → (t.ancestorOf id kinds = p ↔ t.NearestAbove id kinds p)) ∧
      (t.ancestorOf id kinds = 0 ↔ ∀ p, t.Above p id → t.kind p ∉ kinds) := by
  have hne : ∀ p, t.Above p id → p ≠ 0 := by
    rintro p hup rfl
    obtain ⟨q, hq, -⟩ := Relation.TransGen.head'_iff.mp hup
    exact t.not_mem_children_zero q hq
  rcases h.ancestorOf_cases hp id kinds with ⟨h0, hnone⟩ | hnear
  · refine ⟨fun p hp0 => ⟨fun heq => absurd (heq.symm.trans h0) hp0, fun hnear => ?_⟩,
      iff_of_true h0 hnone⟩
    exact absurd hnear.2.1 (hnone p hnear.1)
  · refine ⟨fun p _ => ⟨fun heq => heq ▸ hnear, h.eq_of_nearestAbove hnear⟩, ?_⟩
    exact iff_of_false (hne _ hnear.1) fun hnone => hnone _ hnear.1 hnear.2.1

/-! ### Nodes of a kind -/

theorem findWithin_eq (t : NodeTable) (k : NodeKind) (depth : Nat) (id : NodeId) :
    t.findWithin k depth id = (t.preorderWithin depth id).find? fun q => t.kind q == k := by
  induction depth generalizing id with
  | zero => rfl
  | succ depth ih =>
    rw [findWithin, preorderWithin, List.find?_cons, List.find?_flatMap]
    cases t.kind id == k with
    | true => rfl
    | false => exact congrArg (List.findSome? · (t.children id)) (funext ih)

/-- **The first node of a kind** is the first of all of them. -/
theorem first_eq (t : NodeTable) (r : NodeId) (k : NodeKind) :
    t.first r k = (t.collect r k).head?.getD 0 := by
  rw [first, collect, preorder, List.head?_filter]
  split
  · rfl
  · rw [findWithin_eq]

/-- **The nodes of a kind** in a tree: the root, if it is one, and those below each child. -/
theorem Linked.collect_eq (h : t.Linked t.children) (hr0 : r ≠ 0) (hr : ¬t.Above r r)
    (k : NodeKind) : t.collect r k =
      (if t.kind r = k then [r] else []) ++ (t.children r).flatMap (t.collect · k) := by
  rw [collect, h.preorder_eq hr0 hr, List.filter_cons, List.filter_flatMap]
  by_cases hk : t.kind r = k
  · simp [hk, collect]
  · simp [hk, collect]

/-! ### What is found -/

/-- **What is promised of the walk over a tree.** -/
structure Traversed (t : NodeTable) (r : NodeId) : Prop where
  /-- Following siblings from the first child on gives the children and then ends. -/
  chained : t.Chained (t.child r) (t.children r)
  /-- The walk with a stack ends and meets the nodes that are listed. -/
  walks : t.Walks [r] (t.preorder r)
  /-- They are the root and then the nodes of the trees of its children. -/
  recursive : t.preorder r = r :: (t.children r).flatMap t.preorder
  /-- None is met twice. -/
  nodup : (t.preorder r).Nodup
  /-- They are the nodes of the tree. -/
  members : ∀ q : NodeId, q ∈ t.preorder r ↔ r = q ∨ t.Above r q

theorem Linked.traversed (h : t.Linked t.children) (hr0 : r ≠ 0) (hr : ¬t.Above r r) :
    t.Traversed r where
  chained := h.chained r
  walks := h.walks_preorder hr0 hr
  recursive := h.preorder_eq hr0 hr
  nodup := h.nodup_preorder hr0 hr
  members _ := h.mem_preorder hr0 hr

/-- **In a forest, queries find what recursion on the tree says.** From every node the walk ends and
meets each node of the tree once, a node before the trees of its children; the nodes of a kind come
from the root and then from each child; the first of them is what is found where one is asked for.
Where parents agree with children too, the way up from every node ends, and what is found there is
the nearest node above it of one of the kinds, or nothing if there is none. -/
theorem queries_recursive (h : t.IsForest) :
    (∀ r : NodeId, r ≠ 0 → t.Traversed r ∧ ∀ k, t.collect r k =
      (if t.kind r = k then [r] else []) ++ (t.children r).flatMap (t.collect · k)) ∧
    (∀ (r : NodeId) k, t.first r k = (t.collect r k).head?.getD 0) ∧
    (t.ParentsAgree → ∀ (id : NodeId) kinds, (∃ ups, t.Climbs id ups) ∧
      (∀ p : NodeId, p ≠ 0 → (t.ancestorOf id kinds = p ↔ t.NearestAbove id kinds p)) ∧
      (t.ancestorOf id kinds = 0 ↔ ∀ p, t.Above p id → t.kind p ∉ kinds)) := by
  refine ⟨fun r hr0 => ⟨h.linked.traversed hr0 (h.acyclic r), fun k => ?_⟩, t.first_eq,
    fun hp id kinds => ⟨?_, h.ancestorOf_iff hp id kinds⟩⟩
  · exact h.linked.collect_eq hr0 (h.acyclic r) k
  · obtain ⟨ups, hclimbs, -⟩ := h.exists_climbs hp id
    exact ⟨ups, hclimbs⟩

theorem queries_recursive_lateOperand : lateOperand.IsForest ∧ lateOperand.ParentsAgree ∧
    lateOperand.Traversed 1 ∧ lateOperand.preorder 1 = [1, 2, 3, 4, 5] ∧
    lateOperand.collect 1 .paExpression = [2, 4] ∧ lateOperand.first 1 .paExpression = 2 ∧
    lateOperand.NearestAbove 4 [.paSourceText, .paPrimary] 3 := by
  have hforest := sound_lateOperand.isForest
  have hparents := sound_lateOperand.parentsAgree
  obtain ⟨htree, hfirst, hup⟩ := queries_recursive hforest
  have hcollect : lateOperand.collect 1 .paExpression = [2, 4] := by decide
  refine ⟨hforest, hparents, (htree 1 (by decide)).1, by decide, hcollect, ?_, ?_⟩
  · rw [hfirst, hcollect]
    rfl
  · exact ((hup hparents 4 [.paSourceText, .paPrimary]).2.1 3 (by decide)).mp (by decide)

end NodeTable

end Verilog
