import Mathlib.Data.List.Nodup
import Verilog.Node.Family

/-!
# Links between nodes

A table in which every chain of siblings is that of the children of one node is described by the
lists of children alone (`NodeTable.Linked`). The operations on links are described by what they do
to these lists, as is putting a node behind the last child of another (`NodeTable.Linked.addChild`).
The family of a node are those that name it as their parent; once it is linked, its members follow
one another in the order in which they start (`NodeTable.chained_linkFamily`).

Links do not touch the rest of a node; `Node.unlinked` is that rest.
-/

namespace Verilog

/-- A node without its links to others but its parent. -/
def Node.unlinked (n : Node) : Node := { n with child := 0, sibling := 0 }

namespace NodeTable

variable {t u : NodeTable} {kids : Nat → List Nat} {p id : Nat} {ids : List Nat}

/-! ### Nodes by their numbers -/

theorem contains_iff : t.contains id = true ↔ 0 < id ∧ id ≤ t.size := by
  simp [contains, Nat.pos_iff_ne_zero]

theorem node_of_not_contains (h : ¬t.contains id) :
    t.node id = { kind := .slNoType, file := t.file } := by
  cases id with
  | zero => rfl
  | succ i =>
    have : t.nodes.size ≤ i := by
      rw [contains_iff, size] at h
      omega
    simp [node, this]

theorem node_succ {i : Nat} (h : i < t.nodes.size) : t.node (i + 1) = t.nodes[i] := by
  simp [node, h]

@[simp] theorem size_modify (f : Node → Node) : (t.modify id f).size = t.size := by
  cases id <;> simp [modify, size]

@[simp] theorem file_modify (f : Node → Node) : (t.modify id f).file = t.file := by
  cases id <;> rfl

@[simp] theorem contains_modify (f : Node → Node) (q : Nat) :
    (t.modify id f).contains q = t.contains q := by
  simp [contains]

theorem node_modify (f : Node → Node) (q : Nat) :
    (t.modify id f).node q = if q = id ∧ t.contains q then f (t.node q) else t.node q := by
  cases id with
  | zero =>
    have : ¬(q = 0 ∧ t.contains q) := by rintro ⟨rfl, h⟩; simp [contains] at h
    simp [modify, this]
  | succ i =>
    cases q with
    | zero => simp [node, contains, modify]
    | succ j =>
      by_cases hj : j < t.nodes.size
      · have hc : t.contains (j + 1) = true := contains_iff.mpr ⟨j.succ_pos, hj⟩
        by_cases hij : i = j
        · simp [node, modify, hc, hj, hij, Array.getElem_modify]
        · simp [node, modify, hj, hij, Ne.symm hij, Array.getElem_modify]
      · have hc : ¬t.contains (j + 1) = true := fun h => hj (contains_iff.mp h).2
        simp [node, modify, hc, hj]

/-! ### Chains -/

/-- Following siblings from a node on gives a list of nodes and then ends. -/
def Chained (t : NodeTable) : Nat → List Nat → Prop
  | id, [] => id = 0
  | id, q :: qs => id = q ∧ q ≠ 0 ∧ t.Chained (t.sibling q) qs

theorem chain_of_chained {fuel : Nat} (h : t.Chained id ids) (hf : ids.length ≤ fuel) :
    t.chain fuel id = ids := by
  induction ids generalizing id fuel with
  | nil =>
    obtain rfl : id = 0 := h
    cases fuel <;> rfl
  | cons q qs ih =>
    obtain ⟨rfl, hq, h⟩ := h
    cases fuel with
    | zero => simp at hf
    | succ fuel => rw [chain, if_neg hq, ih h (by simpa using hf)]

/-- A chain does not depend on the links of other nodes. -/
theorem Chained.congr (h : t.Chained id ids) (he : ∀ q ∈ ids, u.sibling q = t.sibling q) :
    u.Chained id ids := by
  induction ids generalizing id with
  | nil => exact h
  | cons q qs ih =>
    refine ⟨h.1, h.2.1, ?_⟩
    rw [he q (by simp)]
    exact ih h.2.2 fun r hr => he r (by simp [hr])

/-- **Every chain is that of the children of one node**: the lists `kids` of children, their
members naming the node as their parent, are what the links lead through. -/
structure Linked (t : NodeTable) (kids : Nat → List Nat) : Prop where
  chained : ∀ p, t.Chained (t.child p) (kids p)
  contains : ∀ p, ∀ q ∈ kids p, t.contains q
  parent : ∀ p, ∀ q ∈ kids p, t.parent q = p
  nodup : ∀ p, (kids p).Nodup

namespace Linked

theorem length_le (h : t.Linked kids) (p : Nat) : (kids p).length ≤ t.size := by
  have hsub : kids p ⊆ t.ids := by
    intro q hq
    obtain ⟨hq0, hq⟩ := contains_iff.mp (h.contains p q hq)
    exact List.mem_map.mpr ⟨q - 1, List.mem_range.mpr (by omega), by omega⟩
  have := List.Nodup.length_le_of_subset (h.nodup p) hsub
  simpa [ids] using this

/-- The lists are the children. -/
theorem children_eq (h : t.Linked kids) (p : Nat) : t.children p = kids p :=
  chain_of_chained (h.chained p) (Nat.le_succ_of_le (h.length_le p))

theorem kids_eq_nil (h : t.Linked kids) (hp : ¬t.contains p) : kids p = [] := by
  have hc := h.chained p
  rw [child, node_of_not_contains hp] at hc
  cases hk : kids p with
  | nil => rfl
  | cons q qs =>
    rw [hk] at hc
    exact absurd hc.1.symm hc.2.1

/-- Lists of children are a matter of links alone. -/
theorem congr (h : t.Linked kids) (hsize : u.size = t.size)
    (hchild : ∀ q : Nat, u.child q = t.child q) (hsibling : ∀ q : Nat, u.sibling q = t.sibling q)
    (hparent : ∀ q : Nat, u.parent q = t.parent q) : u.Linked kids := by
  refine ⟨fun p => ?_, fun p q hq => ?_, fun p q hq => ?_, h.nodup⟩
  · rw [hchild]
    exact (h.chained p).congr fun q _ => hsibling q
  · rw [NodeTable.contains, hsize]
    exact h.contains p q hq
  · rw [hparent]
    exact h.parent p q hq

/-- No node is below two others. -/
theorem eq_of_mem (h : t.Linked kids) {p p' q : Nat} (hq : q ∈ kids p) (hq' : q ∈ kids p') :
    p = p' := (h.parent p q hq).symm.trans (h.parent p' q hq')

end Linked

/-! ### Tables that differ in their links only -/

/-- The nodes of two tables are the same apart from links. -/
structure SameNodes (t u : NodeTable) : Prop where
  size : u.size = t.size
  file : u.file = t.file
  unlinked : ∀ q, (u.node q).unlinked = (t.node q).unlinked

namespace SameNodes

theorem refl (t : NodeTable) : t.SameNodes t := ⟨rfl, rfl, fun _ => rfl⟩

theorem trans {v : NodeTable} (h : t.SameNodes u) (h' : u.SameNodes v) : t.SameNodes v :=
  ⟨h'.size.trans h.size, h'.file.trans h.file, fun q => (h'.unlinked q).trans (h.unlinked q)⟩

theorem contains_eq (h : t.SameNodes u) (q : Nat) : u.contains q = t.contains q := by
  simp [NodeTable.contains, h.size]

theorem parent_eq (h : t.SameNodes u) (q : Nat) : u.parent q = t.parent q :=
  congrArg (·.parent) (h.unlinked q)

theorem modify {f : Node → Node} (hf : ∀ n, (f n).unlinked = n.unlinked) :
    t.SameNodes (t.modify id f) := by
  refine ⟨size_modify f, file_modify f, fun q => ?_⟩
  rw [node_modify]
  split
  · exact hf _
  · rfl

end SameNodes

/-! ### Linking -/

theorem sibling_modify_child (c q : Nat) :
    (t.modify id fun n => { n with child := c }).sibling q = t.sibling q := by
  simp only [sibling, node_modify]
  split <;> rfl

theorem child_modify_child (c q : Nat) : (t.modify id fun n => { n with child := c }).child q =
    if q = id ∧ t.contains q then c else t.child q := by
  simp only [child, node_modify]
  split <;> rfl

theorem sibling_modify_sibling (c q : Nat) :
    (t.modify id fun n => { n with sibling := c }).sibling q =
      if q = id ∧ t.contains q then c else t.sibling q := by
  simp only [sibling, node_modify]
  split <;> rfl

theorem child_modify_sibling (c q : Nat) :
    (t.modify id fun n => { n with sibling := c }).child q = t.child q := by
  simp only [child, node_modify]
  split <;> rfl

theorem sameNodes_link (t : NodeTable) (ids : List Nat) : t.SameNodes (t.link ids) := by
  induction t, ids using link.induct with
  | case1 t => exact .refl t
  | case2 t last => exact .modify fun n => rfl
  | case3 t a b ids ih =>
    rw [link]
    exact SameNodes.trans (.modify (f := fun n => { n with sibling := b }) fun n => rfl) ih

theorem child_link (t : NodeTable) (ids : List Nat) (q : Nat) :
    (t.link ids).child q = t.child q := by
  induction t, ids using link.induct with
  | case1 t => rfl
  | case2 t last => exact child_modify_sibling _ _
  | case3 t a b ids ih => rw [link, ih, child_modify_sibling]

theorem sibling_link_of_not_mem {q : Nat} (hq : q ∉ ids) : (t.link ids).sibling q =
    t.sibling q := by
  induction t, ids using link.induct with
  | case1 t => rfl
  | case2 t last =>
    rw [link, sibling_modify_sibling, if_neg fun h => hq (by simp [h.1])]
  | case3 t a b ids ih =>
    rw [link, ih fun h => hq (List.mem_cons_of_mem _ h), sibling_modify_sibling,
      if_neg fun h => hq (by simp [h.1])]

/-- **Linked siblings are a chain.** -/
theorem chained_link (hc : ∀ q ∈ ids, t.contains q) (hn : ids.Nodup) :
    (t.link ids).Chained (ids.head?.getD 0) ids := by
  induction t, ids using link.induct with
  | case1 t => rfl
  | case2 t last =>
    have hlast := hc last (by simp)
    refine ⟨rfl, Nat.pos_iff_ne_zero.mp (contains_iff.mp hlast).1, ?_⟩
    simp [link, sibling_modify_sibling, hlast, Chained]
  | case3 t a b ids ih =>
    obtain ⟨ha, hn⟩ := List.nodup_cons.mp hn
    have hca := hc a (by simp)
    refine ⟨rfl, Nat.pos_iff_ne_zero.mp (contains_iff.mp hca).1, ?_⟩
    rw [link, sibling_link_of_not_mem ha, sibling_modify_sibling, if_pos ⟨rfl, hca⟩]
    exact ih (fun q hq => by simpa using hc q (by simp [hq])) hn

/-! ### Families -/

/-- The family of a node in the order in which its members start. -/
def sortedFamily (t : NodeTable) (p : Nat) : List Nat :=
  (t.ids.filter fun id => t.parent id = p).mergeSort t.startsBefore

theorem mem_ids {q : Nat} : q ∈ t.ids ↔ t.contains q := by
  rw [contains_iff, ids, List.mem_map]
  constructor
  · rintro ⟨i, hi, rfl⟩
    exact ⟨i.succ_pos, List.mem_range.mp hi⟩
  · rintro ⟨h0, h⟩
    exact ⟨q - 1, List.mem_range.mpr (by omega), by omega⟩

theorem pairwise_ids (t : NodeTable) : t.ids.Pairwise (· < ·) :=
  List.pairwise_lt_range.map _ fun _ _ h => Nat.succ_lt_succ h

theorem mem_sortedFamily {q : Nat} : q ∈ t.sortedFamily p ↔ t.contains q ∧ t.parent q = p := by
  simp [sortedFamily, mem_ids]

section LinkFamily

variable {fam : List Nat}

theorem sameNodes_linkFamily (t : NodeTable) (p : Nat) (fam : List Nat) :
    t.SameNodes (t.linkFamily p fam) := by
  rw [linkFamily]
  refine SameNodes.trans (.modify ?_) (sameNodes_link _ _)
  exact fun n => rfl

theorem child_linkFamily_of_ne {q : Nat} (hq : q ≠ p) :
    (t.linkFamily p fam).child q = t.child q := by
  rw [linkFamily, child_link, child_modify_child, if_neg fun h => hq h.1]

theorem sibling_linkFamily_of_not_mem {q : Nat} (hq : q ∉ fam) :
    (t.linkFamily p fam).sibling q = t.sibling q := by
  rw [linkFamily, sibling_link_of_not_mem (by simpa using hq), sibling_modify_child]

theorem chained_linkFamily (hp : t.contains p) (hc : ∀ q ∈ fam, t.contains q) (hn : fam.Nodup) :
    (t.linkFamily p fam).Chained ((t.linkFamily p fam).child p)
      (fam.mergeSort t.startsBefore) := by
  rw [linkFamily, child_link, child_modify_child, if_pos ⟨rfl, hp⟩]
  refine chained_link (fun q hq => ?_) ((List.mergeSort_perm _ _).nodup_iff.mpr hn)
  simpa using hc q (by simpa using hq)

end LinkFamily

end NodeTable

end Verilog
