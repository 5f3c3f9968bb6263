import Verilog.Proofs.Lexing.Place
import Verilog.Proofs.Node.Valid
import Verilog.Proofs.Node.Forest

/-!
# Children in the order of the source

The children of a node are sorted by relinking them: the node gets a new first child, and each child
the one behind it. In a forest no other chain goes through these links, so all that changes is the
order of the one chain (`NodeTable.PutsInOrder`), and what is below a node stays below it.

A chain that is in order already is left alone, and so is a table that has been sorted. Sorting a
whole table goes from node to node; as the chains have nothing in common, what is in order stays so
while others are sorted (`NodeTable.PutsInOrder.sortChildren`), and a run over some nodes puts all
their chains in order (`NodeTable.PutsInOrder.foldl`).
-/

namespace Verilog

namespace NodeTable

variable {t u v : NodeTable} {p q : Nat} {ids before after : List Nat} {S : Nat → Prop}

/-! ### The order in which nodes start -/

/-- Where a node starts. -/
def begins (t : NodeTable) (id : Nat) : Nat × Nat := ((t.node id).line, (t.node id).column)

theorem startsBefore_iff {a b : Nat} : t.startsBefore a b ↔ NoLater (t.begins a) (t.begins b) := by
  simp [startsBefore, NoLater, begins]

theorem startsBefore_trans (t : NodeTable) (a b c : Nat) (hab : t.startsBefore a b)
    (hbc : t.startsBefore b c) : t.startsBefore a c :=
  startsBefore_iff.mpr ((startsBefore_iff.mp hab).trans (startsBefore_iff.mp hbc))

theorem startsBefore_total (t : NodeTable) (a b : Nat) :
    (t.startsBefore a b || t.startsBefore b a) = true := by
  rw [Bool.or_eq_true]
  exact (NoLater.total _ _).imp startsBefore_iff.mpr startsBefore_iff.mpr

/-- Do nodes start one behind the other? -/
def Ascending (t : NodeTable) (ids : List NodeId) : Prop :=
  ids.Pairwise fun a b => NoLater (t.begins a) (t.begins b)

theorem ascending_iff : t.Ascending ids ↔ ids.Pairwise fun a b => t.startsBefore a b := by
  simp only [Ascending, startsBefore_iff]

theorem ascending_mergeSort (t : NodeTable) (ids : List Nat) :
    t.Ascending (ids.mergeSort t.startsBefore) :=
  ascending_iff.mpr (List.pairwise_mergeSort t.startsBefore_trans t.startsBefore_total ids)

/-- What starts one behind the other stays in its order while other nodes are sorted in. -/
theorem Ascending.sublist_mergeSort (h : t.Ascending before) (hsub : before.Sublist ids) :
    before.Sublist (ids.mergeSort t.startsBefore) :=
  List.sublist_mergeSort t.startsBefore_trans t.startsBefore_total (ascending_iff.mp h) hsub

/-- **Nodes that start at different places** are put in one order only. -/
theorem mergeSort_eq (hperm : after.Perm ids) (h : t.Ascending after)
    (hplace : ∀ a ∈ after, ∀ b ∈ after, t.begins a = t.begins b → a = b) :
    ids.mergeSort t.startsBefore = after := by
  refine ((List.mergeSort_perm _ _).trans hperm.symm).eq_of_pairwise (fun a b ha hb hab hba => ?_)
    (t.ascending_mergeSort ids) h
  have hmem := hperm.mem_iff.mpr (List.mem_mergeSort.mp ha)
  rw [NoLater] at hab hba
  exact hplace a hmem b hb (Prod.ext (by omega) (by omega))

theorem inOrder_iff : t.inOrder ids = true ↔ t.Ascending ids := by
  rw [ascending_iff]
  induction ids with
  | nil => simp [inOrder]
  | cons a ids ih =>
    cases ids with
    | nil => simp [inOrder]
    | cons b ids =>
      rw [inOrder, Bool.and_eq_true, ih]
      refine ⟨fun ⟨hab, hs⟩ => List.pairwise_cons.mpr ⟨fun c hc => ?_, hs⟩, fun hs => ?_⟩
      · rcases List.mem_cons.mp hc with rfl | hc
        · exact hab
        · exact t.startsBefore_trans a b c hab (List.rel_of_pairwise_cons hs hc)
      · exact ⟨List.rel_of_pairwise_cons hs List.mem_cons_self, hs.tail⟩

/-- **Is a list of nodes another one, sorted by where they start**, nodes at one place being in the
order that they had? -/
structure IsStableSort (t : NodeTable) (before after : List NodeId) : Prop where
  perm : after.Perm before
  sorted : t.Ascending after
  stable : ∀ place : Nat × Nat, after.filter (fun q => t.begins q = place) =
    before.filter fun q => t.begins q = place

namespace IsStableSort

theorem of_ascending (h : t.Ascending ids) : t.IsStableSort ids ids := ⟨.refl _, h, fun _ => rfl⟩

theorem mergeSort (t : NodeTable) (ids : List Nat) :
    t.IsStableSort ids (ids.mergeSort t.startsBefore) := by
  refine ⟨List.mergeSort_perm _ _, t.ascending_mergeSort ids, fun place => ?_⟩
  have hone : t.Ascending (ids.filter fun q => t.begins q = place) := by
    refine List.pairwise_of_forall_mem_list fun a ha b hb => ?_
    have hab : t.begins a = t.begins b := by
      have ha := (List.mem_filter.mp ha).2
      have hb := (List.mem_filter.mp hb).2
      simp only [decide_eq_true_eq] at ha hb
      exact ha.trans hb.symm
    rw [hab]
    exact .refl _
  -- the nodes at one place are still in their order, and sorting leaves none out
  have hsub := (hone.sublist_mergeSort List.filter_sublist).filter fun q => t.begins q = place
  rw [List.filter_filter, List.filter_congr (q := fun q => decide (t.begins q = place))
    fun q _ => Bool.and_self _] at hsub
  exact (hsub.eq_of_length ((List.mergeSort_perm _ _).filter _).length_eq.symm).symm

theorem trans (h : t.IsStableSort ids before) (h' : t.IsStableSort before after) :
    t.IsStableSort ids after :=
  ⟨h'.perm.trans h.perm, h'.sorted, fun place => (h'.stable place).trans (h.stable place)⟩

end IsStableSort

/-! ### Tables that differ in the order of children -/

theorem SameNodes.begins_eq (h : t.SameNodes u) : u.begins = t.begins := by
  funext q
  have hline : (u.node q).line = (t.node q).line := congrArg (·.line) (h.unlinked q)
  have hcolumn : (u.node q).column = (t.node q).column := congrArg (·.column) (h.unlinked q)
  rw [begins, begins, hline, hcolumn]

theorem SameNodes.isStableSort (h : t.SameNodes u) (hs : u.IsStableSort before after) :
    t.IsStableSort before after := by
  refine ⟨hs.perm, ?_, ?_⟩
  · rw [Ascending, ← h.begins_eq]
    exact hs.sorted
  · rw [← h.begins_eq]
    exact hs.stable

/-- **What it means to put the children of some nodes in order**, and to change nothing else: not
the nodes but for their links, not the first child of another node, and not what stands behind a
node that is no child of one of them. -/
structure PutsInOrder (t u : NodeTable) (S : NodeId → Prop) : Prop where
  library : u.library = t.library
  elements : u.elements = t.elements
  same : t.SameNodes u
  child : ∀ q : NodeId, ¬S q → u.child q = t.child q
  sibling : ∀ q : NodeId, (∀ p : NodeId, S p → q ∉ t.children p) → u.sibling q = t.sibling q
  linked : u.Linked u.children
  others : ∀ p : NodeId, ¬S p → u.children p = t.children p
  sorted : ∀ p : NodeId, S p → t.IsStableSort (t.children p) (u.children p)

namespace PutsInOrder

/-- No child is put below another node. -/
theorem mem_children (h : t.PutsInOrder u S) : q ∈ u.children p ↔ q ∈ t.children p := by
  by_cases hp : S p
  · exact (h.sorted p hp).perm.mem_iff
  · rw [h.others p hp]

theorem above_eq (h : t.PutsInOrder u S) : u.Above = t.Above :=
  above_congr fun _ _ => h.mem_children

/-- **A forest is still one**, with the same parents. -/
theorem isForest (h : t.PutsInOrder u S) (ht : t.IsForest) : u.IsForest :=
  ⟨h.linked, fun q => by rw [h.above_eq]; exact ht.acyclic q⟩

theorem parentsAgree (h : t.PutsInOrder u S) (ht : t.ParentsAgree) : u.ParentsAgree := by
  intro q hq
  rw [h.same.parent_eq] at hq ⊢
  exact h.mem_children.mpr (ht q hq)

/-- Nothing is done where the children are in order. -/
theorem refl (h : t.Linked t.children) (hs : ∀ p : Nat, S p → t.Ascending (t.children p)) :
    t.PutsInOrder t S where
  library := rfl
  elements := rfl
  same := .refl t
  child _ _ := rfl
  sibling _ _ := rfl
  linked := h
  others _ _ := rfl
  sorted p hp := .of_ascending (hs p hp)

/-- The children of one more node are put in order. -/
theorem insert (h : t.PutsInOrder u S) (h' : u.PutsInOrder v (· = p)) :
    t.PutsInOrder v fun q => q = p ∨ S q where
  library := h'.library.trans h.library
  elements := h'.elements.trans h.elements
  same := h.same.trans h'.same
  child q hq := by
    rw [not_or] at hq
    rw [h'.child q hq.1, h.child q hq.2]
  sibling q hq := by
    rw [h'.sibling q, h.sibling q fun r hr => hq r (.inr hr)]
    rintro r rfl
    rw [h.mem_children]
    exact hq r (.inl rfl)
  linked := h'.linked
  others q hq := by
    rw [not_or] at hq
    rw [h'.others q hq.1, h.others q hq.2]
  sorted q hq := by
    have hbefore : S q → t.IsStableSort (t.children q) (u.children q) := h.sorted q
    by_cases hqp : q = p
    · have hafter := h.same.isStableSort (h'.sorted q hqp)
      by_cases hS : S q
      · exact (hbefore hS).trans hafter
      · rwa [h.others q hS] at hafter
    · rw [h'.others q hqp]
      exact hbefore (hq.resolve_left hqp)

end PutsInOrder

/-! ### Sorting -/

theorem libraryElements_link (t : NodeTable) (ids : List Nat) :
    (t.link ids).library = t.library ∧ (t.link ids).elements = t.elements := by
  have hmodify : ∀ (t : NodeTable) (id : Nat) (f : Node → Node),
      (t.modify id f).library = t.library ∧ (t.modify id f).elements = t.elements :=
    fun t id f => by cases id <;> exact ⟨rfl, rfl⟩
  induction t, ids using link.induct with
  | case1 t => exact ⟨rfl, rfl⟩
  | case2 t last => exact hmodify t last _
  | case3 t a b ids ih =>
    rw [link]
    exact ⟨ih.1.trans (hmodify t a _).1, ih.2.trans (hmodify t a _).2⟩

/-- **Linking the children of a node anew** puts them in order. -/
theorem Linked.putsInOrder (h : t.Linked t.children) (hp : t.contains p) :
    t.PutsInOrder (t.linkFamily p (t.children p)) (· = p) := by
  let sorted := (t.children p).mergeSort t.startsBefore
  have hsame := sameNodes_linkFamily t p (t.children p)
  have hmem : ∀ {q r : Nat}, r ∈ Function.update t.children p sorted q → r ∈ t.children q := by
    intro q r hr
    by_cases hq : q = p
    · subst hq
      rw [Function.update_self] at hr
      exact List.mem_mergeSort.mp hr
    · rwa [Function.update_of_ne hq] at hr
  have hlinked : (t.linkFamily p (t.children p)).Linked (Function.update t.children p sorted) := by
    refine ⟨fun q => ?_, fun q r hr => ?_, fun q r hr => ?_, fun q => ?_⟩
    · by_cases hq : q = p
      · subst hq
        rw [Function.update_self]
        exact chained_linkFamily hp (h.contains q) (h.nodup q)
      · rw [Function.update_of_ne hq, child_linkFamily_of_ne hq]
        exact (h.chained q).congr fun r hr =>
          sibling_linkFamily_of_not_mem fun hrp => hq (h.eq_of_mem hr hrp)
    · rw [hsame.contains_eq]
      exact h.contains q r (hmem hr)
    · rw [hsame.parent_eq]
      exact h.parent q r (hmem hr)
    · by_cases hq : q = p
      · subst hq
        rw [Function.update_self]
        exact (List.mergeSort_perm _ _).nodup_iff.mpr (h.nodup q)
      · rw [Function.update_of_ne hq]
        exact h.nodup q
  have hmodify : ∀ f : Node → Node, (t.modify p f).library = t.library ∧
      (t.modify p f).elements = t.elements := fun f => by cases p <;> exact ⟨rfl, rfl⟩
  have hlink := libraryElements_link (t.modify p fun n => { n with child := sorted.head?.getD 0 })
    sorted
  exact {
    library := hlink.1.trans (hmodify _).1
    elements := hlink.2.trans (hmodify _).2
    same := hsame
    child := fun q hq => child_linkFamily_of_ne hq
    sibling := fun q hq => sibling_linkFamily_of_not_mem (hq p rfl)
    linked := hlinked.children
    others := fun q hq => (hlinked.children_eq q).trans (Function.update_of_ne hq _ _)
    sorted := by
      rintro q rfl
      rw [hlinked.children_eq, Function.update_self]
      exact .mergeSort t _ }

/-- A chain that is in order is left alone. -/
theorem sortChildren_of_ascending (h : t.Ascending (t.children p)) : t.sortChildren p = t := by
  rw [sortChildren, if_pos (inOrder_iff.mpr h)]

/-- What sorting does to children that start at different places. -/
theorem sortChildren_eq (after : List NodeId) (hperm : after.Perm (t.children p))
    (hbefore : t.inOrder (t.children p) = false) (hafter : t.inOrder after = true)
    (hplace : ∀ a ∈ after, ∀ b ∈ after, t.begins a = t.begins b → a = b) : t.sortChildren p =
      (t.modify p fun n => { n with child := after.head?.getD 0 }).link after := by
  rw [sortChildren, if_neg (by simp [hbefore]), linkFamily,
    mergeSort_eq hperm (inOrder_iff.mp hafter) hplace]

/-- **Sorting the children of a node** puts them in order. -/
theorem Linked.sortChildren (h : t.Linked t.children) (p : NodeId) :
    t.PutsInOrder (t.sortChildren p) (· = p) := by
  by_cases hs : t.Ascending (t.children p)
  · rw [sortChildren_of_ascending hs]
    exact .refl h fun q hq => hq ▸ hs
  · have hp : t.contains p := by
      by_contra hp
      rw [h.kids_eq_nil hp] at hs
      exact hs .nil
    rw [NodeTable.sortChildren, if_neg (mt inOrder_iff.mp hs)]
    exact h.putsInOrder hp

/-- **Sorting is done with once it is done.** -/
theorem Linked.sortChildren_sortChildren (h : t.Linked t.children) (p : NodeId) :
    (t.sortChildren p).sortChildren p = t.sortChildren p := by
  refine sortChildren_of_ascending ?_
  have hsort := h.sortChildren p
  rw [Ascending, hsort.same.begins_eq]
  exact (hsort.sorted p rfl).sorted

/-- **One node after the other** has its children put in order. -/
theorem PutsInOrder.foldl (h : t.PutsInOrder u S) (ps : List NodeId) :
    t.PutsInOrder (ps.foldl NodeTable.sortChildren u) fun q => q ∈ ps ∨ S q := by
  induction ps generalizing u S with
  | nil => simpa using h
  | cons p ps ih =>
    refine cast (congrArg _ ?_) (ih (h.insert (h.linked.sortChildren p)))
    funext q
    simp only [List.mem_cons, eq_iff_iff]
    tauto

/-- Who has children. -/
theorem mem_parents : p ∈ t.ids.filter (fun id => t.child id != 0) ↔ t.child p ≠ 0 := by
  rw [List.mem_filter, mem_ids, bne_iff_ne, and_iff_right_iff_imp]
  intro hp
  by_contra hc
  rw [NodeTable.child, node_of_not_contains hc] at hp
  exact hp rfl

theorem Linked.sortTree (h : t.Linked t.children) :
    t.PutsInOrder t.sortTree fun p => t.child p ≠ 0 := by
  have hnone : t.PutsInOrder t fun _ => False := .refl h fun _ hp => hp.elim
  refine cast (congrArg _ ?_) (hnone.foldl (t.ids.filter fun id => t.child id != 0))
  funext q
  rw [mem_parents, or_false]

/-- **Every chain of a sorted table is in order.** -/
theorem Linked.ascending_sortTree (h : t.Linked t.children) (p : NodeId) :
    t.sortTree.Ascending (t.sortTree.children p) := by
  have hsort := h.sortTree
  rw [Ascending, hsort.same.begins_eq]
  by_cases hp : t.child p = 0
  · have hnil : t.children p = [] := by
      rw [NodeTable.children, hp]
      rfl
    rw [hsort.others p (not_not_intro hp), hnil]
    exact .nil
  · exact (hsort.sorted p hp).sorted

theorem sortTree_of_ascending (h : ∀ p, t.Ascending (t.children p)) : t.sortTree = t := by
  rw [NodeTable.sortTree]
  induction t.ids.filter fun id => t.child id != 0 with
  | nil => rfl
  | cons p ps ih => rw [List.foldl_cons, sortChildren_of_ascending (h p), ih]

/-- **Sorting restores the order of the source and harms nothing.** In a forest the children of a
node are left as the stable sort of what they were, by where they start; no other field of any node
changes than the first child of the node and what stands behind its children; the links are still a
forest, every node keeping its parent; and a second time changes nothing. Sorting a whole table does
this to all nodes that have children, and then every chain is in order. -/
theorem sorts_harmlessly (h : t.IsForest) :
    (∀ p : NodeId, t.PutsInOrder (t.sortChildren p) (· = p) ∧ (t.sortChildren p).IsForest ∧
      (t.ParentsAgree → (t.sortChildren p).ParentsAgree) ∧
      (t.sortChildren p).sortChildren p = t.sortChildren p) ∧
    t.PutsInOrder t.sortTree (fun p => t.child p ≠ 0) ∧ t.sortTree.IsForest ∧
    (t.ParentsAgree → t.sortTree.ParentsAgree) ∧
    (∀ p : NodeId, t.sortTree.Ascending (t.sortTree.children p)) ∧
    t.sortTree.sortTree = t.sortTree := by
  have hall := h.linked.ascending_sortTree
  have htree := h.linked.sortTree
  refine ⟨fun p => ?_, htree, htree.isForest h, htree.parentsAgree, hall,
    sortTree_of_ascending hall⟩
  have hsort := h.linked.sortChildren p
  exact ⟨hsort, hsort.isForest h, hsort.parentsAgree, h.linked.sortChildren_sortChildren p⟩

theorem sorts_harmlessly_lateOperand : lateOperand.IsForest ∧ lateOperand.children 1 = [2, 5] ∧
    (lateOperand.sortChildren 1).children 1 = [5, 2] ∧ lateOperand.IsStableSort [2, 5] [5, 2] ∧
    (lateOperand.sortChildren 1).IsForest := by
  have hforest := sound_lateOperand.isForest
  have hbefore : lateOperand.children 1 = [2, 5] := by decide
  have hafter : (lateOperand.sortChildren 1).children 1 = [5, 2] := by
    rw [sortChildren_eq [5, 2] (by decide) (by decide) (by decide) (by decide)]
    decide
  obtain ⟨hsort, hstill, -⟩ := (sorts_harmlessly hforest).1 1
  have hstable := hsort.sorted 1 rfl
  rw [hbefore, hafter] at hstable
  exact ⟨hforest, hbefore, hafter, hstable, hstill⟩

end NodeTable

end Verilog
