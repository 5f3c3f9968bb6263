import Mathlib.Data.List.Nodup
import Mathlib.Logic.Relation
import Mathlib.Order.Interval.Finset.Nat
import Verilog.Node.Query
import Verilog.Proofs.Node.Valid

/-!
# Forests of nodes

The links of a table form a forest if every chain of siblings is that of the children of one node
and no node is above itself (`NodeTable.IsForest`). The chains alone do not say so: a node may be a
child of one that is below it, and no chain shows that.

A descent that does not count levels is a walk with a stack, and such a walk need not end. It is a
relation here, whose derivations are the walks that end (`NodeTable.Walks`). Where the chains are
those of the children, the walk from a node ends exactly if the node is not above itself
(`NodeTable.Linked.exists_walks_iff`), and then it meets the nodes that `NodeTable.preorder` lists:
the number of all nodes is depth enough, since a node has fewer nodes below it than its parent
(`NodeTable.Linked.weight_lt`). Everything that is said of a node by what is said of its children
goes by that number (`NodeTable.Linked.descend`).
-/

namespace Verilog

namespace NodeTable

variable {t u : NodeTable} {p q r : Nat}

/-- **Is a node above another one**, at whatever distance? -/
def Above (t : NodeTable) : NodeId → NodeId → Prop :=
  Relation.TransGen fun p q => q ∈ t.children p

/-- **The links of a table form a forest**: every chain of siblings is that of the children of one
node, which all of them name as their parent, and no node is above itself. -/
structure IsForest (t : NodeTable) : Prop where
  linked : t.Linked t.children
  acyclic : ∀ q : Nat, ¬t.Above q q

/-- Is every node that names a parent among the children of that parent? -/
def ParentsAgree (t : NodeTable) : Prop := ∀ q : Nat, t.parent q ≠ 0 → q ∈ t.children (t.parent q)

/-! ### Above and below -/

theorem Above.of_mem (h : q ∈ t.children p) : t.Above p q := .single h

/-- What is above what depends on who is a child of whom, and on no order. -/
theorem above_congr (h : ∀ p q : Nat, q ∈ u.children p ↔ q ∈ t.children p) :
    u.Above = t.Above := by
  rw [Above, Above]
  congr 1
  funext p q
  exact propext (h p q)

theorem not_mem_children_zero (t : NodeTable) (q : Nat) : q ∉ t.children 0 := by
  simp [children, child, node, chain]

namespace Linked

variable (h : t.Linked t.children)
include h

theorem contains_of_above (hq : t.Above p q) : t.contains q := by
  obtain ⟨_, -, hmem⟩ := Relation.TransGen.tail'_iff.mp hq
  exact h.contains _ q hmem

theorem ne_zero_of_mem (hq : q ∈ t.children p) : q ≠ 0 :=
  Nat.pos_iff_ne_zero.mp (contains_iff.mp (h.contains p q hq)).1

/-- What is above a child is its parent, or is above that. -/
theorem above_iff (hr : r ∈ t.children p) : t.Above q r ↔ q = p ∨ t.Above q p := by
  rw [Above, Relation.TransGen.tail'_iff]
  constructor
  · rintro ⟨p', hup, hmem⟩
    obtain rfl := h.eq_of_mem hmem hr
    rcases Relation.reflTransGen_iff_eq_or_transGen.mp hup with rfl | hup
    · exact .inl rfl
    · exact .inr hup
  · rintro (rfl | hup)
    · exact ⟨q, .refl, hr⟩
    · exact ⟨p, hup.to_reflTransGen, hr⟩

/-- A ring of nodes is left by no descent. -/
theorem not_above_self (hp : ¬t.Above p p) (hq : q ∈ t.children p) : ¬t.Above q q := by
  rw [h.above_iff hq]
  rintro (rfl | hup)
  · exact hp (.of_mem hq)
  · exact hp (Relation.TransGen.head hq hup)

/-- Of two nodes that are both above a third one, or the same as it, one is above the other. -/
theorem total {a b c : Nat} (ha : a = c ∨ t.Above a c) (hb : b = c ∨ t.Above b c) :
    a = b ∨ t.Above a b ∨ t.Above b a := by
  have hunique : Relator.RightUnique (Function.swap fun p q : Nat => q ∈ t.children p) :=
    fun _ _ _ hq hq' => h.eq_of_mem hq hq'
  have hup : ∀ {a : Nat}, a = c ∨ t.Above a c →
      Relation.ReflTransGen (Function.swap fun p q : Nat => q ∈ t.children p) c a := fun ha =>
    Relation.reflTransGen_swap.mpr (Relation.reflTransGen_iff_eq_or_transGen.mpr
      (ha.imp_left Eq.symm))
  rcases Relation.ReflTransGen.total_of_right_unique hunique (hup ha) (hup hb) with hab | hba
  · rcases Relation.reflTransGen_iff_eq_or_transGen.mp (Relation.reflTransGen_swap.mp hab) with
      rfl | hab
    · exact .inl rfl
    · exact .inr (.inr hab)
  · rcases Relation.reflTransGen_iff_eq_or_transGen.mp (Relation.reflTransGen_swap.mp hba) with
      rfl | hba
    · exact .inl rfl
    · exact .inr (.inl hba)

/-- The trees below two children of a node have no node in common. -/
theorem disjoint_below (hp : ¬t.Above p p) {a b c : Nat} (ha : a ∈ t.children p)
    (hb : b ∈ t.children p) (hne : a ≠ b) (hac : a = c ∨ t.Above a c) :
    ¬(b = c ∨ t.Above b c) := by
  intro hbc
  rcases h.total hac hbc with heq | hab | hba
  · exact hne heq
  · rcases (h.above_iff hb).mp hab with rfl | hup
    · exact hp (.of_mem ha)
    · exact hp (Relation.TransGen.head ha hup)
  · rcases (h.above_iff ha).mp hba with rfl | hup
    · exact hp (.of_mem hb)
    · exact hp (Relation.TransGen.head hb hup)

end Linked

/-! ### How far down it goes -/

open Classical in
/-- The number of nodes below a node. -/
noncomputable def weight (t : NodeTable) (p : NodeId) : Nat :=
  ((Finset.Icc 1 t.size).filter (t.Above p)).card

theorem weight_le (t : NodeTable) (p : Nat) : t.weight p ≤ t.size := by
  classical
  rw [weight]
  exact (Finset.card_filter_le _ _).trans (by simp)

/-- **A child has fewer nodes below it than its parent**, unless it is above itself. -/
theorem Linked.weight_lt (h : t.Linked t.children) (hq : q ∈ t.children p)
    (hacyclic : ¬t.Above q q) : t.weight q < t.weight p := by
  classical
  have hmem : ∀ a b : Nat, b ∈ (Finset.Icc 1 t.size).filter (t.Above a) ↔ t.Above a b := by
    intro a b
    rw [Finset.mem_filter, Finset.mem_Icc]
    exact ⟨fun hb => hb.2, fun hb => ⟨contains_iff.mp (h.contains_of_above hb), hb⟩⟩
  refine Finset.card_lt_card (Finset.ssubset_iff_of_subset ?_ |>.mpr ⟨q, ?_, ?_⟩)
  · intro b hb
    exact (hmem p b).mpr (Relation.TransGen.head hq ((hmem q b).mp hb))
  · exact (hmem p q).mpr (.of_mem hq)
  · exact fun hself => hacyclic ((hmem q q).mp hself)

/-- **Descent**: what is true of a node as soon as it is true of its children is true of every node
that is not above itself. -/
theorem Linked.descend (h : t.Linked t.children) {P : Nat → Prop}
    (step : ∀ p, ¬t.Above p p → (∀ q ∈ t.children p, P q) → P p) : ∀ p, ¬t.Above p p → P p := by
  intro p hp
  induction hn : t.weight p using Nat.strong_induction_on generalizing p with
  | _ n ih =>
    subst hn
    refine step p hp fun q hq => ?_
    have hqq := h.not_above_self hp hq
    exact ih _ (h.weight_lt hq hqq) q hqq rfl

/-! ### The nodes of a tree -/

/-- A descent goes no further down than there are nodes below where it begins. -/
theorem Linked.preorderWithin_eq (h : t.Linked t.children) {depth depth' : Nat}
    (hp : ¬t.Above p p) (hd : t.weight p < depth) (hd' : t.weight p < depth') :
    t.preorderWithin depth p = t.preorderWithin depth' p := by
  induction depth generalizing p depth' with
  | zero => exact absurd hd (Nat.not_lt_zero _)
  | succ depth ih =>
    obtain ⟨depth', rfl⟩ := Nat.exists_eq_succ_of_ne_zero (Nat.ne_of_gt (Nat.zero_lt_of_lt hd'))
    rw [preorderWithin, preorderWithin]
    refine congrArg (p :: ·) (List.flatMap_congr fun q hq => ?_)
    have hqq := h.not_above_self hp hq
    have hlt := h.weight_lt hq hqq
    exact ih hqq (by omega) (by omega)

/-- **A node comes before its children**, each of which brings its own tree. -/
theorem Linked.preorder_eq (h : t.Linked t.children) (hp0 : p ≠ 0) (hp : ¬t.Above p p) :
    t.preorder p = p :: (t.children p).flatMap t.preorder := by
  rw [preorder, if_neg hp0, preorderWithin]
  refine congrArg (p :: ·) (List.flatMap_congr fun q hq => ?_)
  have hqq := h.not_above_self hp hq
  have hlt := h.weight_lt hq hqq
  have hle := t.weight_le p
  rw [preorder, if_neg (h.ne_zero_of_mem hq)]
  exact h.preorderWithin_eq hqq (by omega) (by omega)

/-- **The nodes of a tree** are its root and what is below it. -/
theorem Linked.mem_preorder (h : t.Linked t.children) (hp0 : p ≠ 0) (hp : ¬t.Above p p) :
    q ∈ t.preorder p ↔ p = q ∨ t.Above p q := by
  revert hp0
  refine h.descend (P := fun p => p ≠ 0 → (q ∈ t.preorder p ↔ p = q ∨ t.Above p q))
    (fun p hp ih hp0 => ?_) p hp
  rw [h.preorder_eq hp0 hp, List.mem_cons, List.mem_flatMap, Above,
    Relation.TransGen.head'_iff]
  refine or_congr eq_comm (exists_congr fun c => and_congr_right fun hc => ?_)
  rw [ih c hc (h.ne_zero_of_mem hc), Relation.reflTransGen_iff_eq_or_transGen]
  exact or_congr_left eq_comm

/-- **No node is met twice.** -/
theorem Linked.nodup_preorder (h : t.Linked t.children) (hp0 : p ≠ 0) (hp : ¬t.Above p p) :
    (t.preorder p).Nodup := by
  revert hp0
  refine h.descend (P := fun p => p ≠ 0 → (t.preorder p).Nodup) (fun p hp ih hp0 => ?_) p hp
  have hmem : ∀ c ∈ t.children p, ∀ q, q ∈ t.preorder c ↔ c = q ∨ t.Above c q := fun c hc q =>
    h.mem_preorder (h.ne_zero_of_mem hc) (h.not_above_self hp hc)
  rw [h.preorder_eq hp0 hp, List.nodup_cons, List.nodup_flatMap]
  refine ⟨?_, fun c hc => ih c hc (h.ne_zero_of_mem hc), ?_⟩
  · rw [List.mem_flatMap]
    rintro ⟨c, hc, hpc⟩
    rcases (hmem c hc p).mp hpc with rfl | hup
    · exact hp (.of_mem hc)
    · exact hp (Relation.TransGen.head hc hup)
  · refine (h.nodup p).imp_of_mem fun {a b} ha hb hne q hqa hqb => ?_
    exact h.disjoint_below hp ha hb hne ((hmem a ha q).mp hqa) ((hmem b hb q).mp hqb)

/-! ### Walks -/

/-- **A walk with a stack** takes a node off the stack and puts its children there, the first one
on top. From a stack the walk ends, and it meets these nodes. -/
inductive Walks (t : NodeTable) : (stack met : List NodeId) → Prop where
  /-- Nothing is left. -/
  | done : t.Walks [] []
  /-- The node on top is met, and its children take its place. -/
  | turn {id : NodeId} {stack met : List NodeId} (rest : t.Walks (t.children id ++ stack) met) :
      t.Walks (id :: stack) (id :: met)

namespace Walks

variable {stack stack' met met' : List NodeId}

theorem append (h : t.Walks stack met) (h' : t.Walks stack' met') :
    t.Walks (stack ++ stack') (met ++ met') := by
  induction h with
  | done => exact h'
  | turn _ ih => exact .turn (by rwa [List.append_assoc] at ih)

/-- The trees of the nodes on a stack are gone through one after the other. -/
theorem flatMap {f : NodeId → List NodeId} (h : ∀ q ∈ stack, t.Walks [q] (f q)) :
    t.Walks stack (stack.flatMap f) := by
  induction stack with
  | nil => exact .done
  | cons q stack ih =>
    rw [List.forall_mem_cons] at h
    exact h.1.append (ih h.2)

/-- What a walk that ends has met has no endless descent below it. -/
theorem acc (h : t.Walks stack met) :
    ∀ p ∈ stack, Acc (fun q p : NodeId => q ∈ t.children p) p := by
  induction h with
  | done => simp
  | turn _ ih =>
    rw [List.forall_mem_cons]
    exact ⟨.intro _ fun q hq => ih q (List.mem_append_left _ hq),
      fun q hq => ih q (List.mem_append_right _ hq)⟩

end Walks

/-- Where every descent ends, no node is above itself. -/
theorem not_above_of_acc (h : Acc (fun q p : NodeId => q ∈ t.children p) p) : ¬t.Above p p := by
  induction h with
  | intro p _ ih =>
    intro hp
    obtain ⟨q, hq, hup⟩ := Relation.TransGen.head'_iff.mp hp
    exact ih q hq (Relation.TransGen.tail'_iff.mpr ⟨p, hup, hq⟩)

/-- **The walk from a node that is not above itself ends**, and meets the nodes of its tree. -/
theorem Linked.walks_preorder (h : t.Linked t.children) (hp0 : p ≠ 0) (hp : ¬t.Above p p) :
    t.Walks [p] (t.preorder p) := by
  revert hp0
  refine h.descend (P := fun p => p ≠ 0 → t.Walks [p] (t.preorder p)) (fun p hp ih hp0 => ?_) p hp
  rw [h.preorder_eq hp0 hp]
  refine .turn ?_
  rw [List.append_nil]
  exact .flatMap fun q hq => ih q hq (h.ne_zero_of_mem hq)

/-- **A walk ends exactly if it does not begin at a node that is above itself.** -/
theorem Linked.exists_walks_iff (h : t.Linked t.children) (hp0 : p ≠ 0) :
    (∃ met, t.Walks [p] met) ↔ ¬t.Above p p :=
  ⟨fun ⟨_, hwalk⟩ => not_above_of_acc (hwalk.acc p List.mem_cons_self),
    fun hp => ⟨_, h.walks_preorder hp0 hp⟩⟩

/-! ### Tables that are forests -/

theorem Sound.parentsAgree (h : t.Sound) : t.ParentsAgree := by
  intro q hq
  by_cases hc : t.contains q
  · exact h.reached q hc hq
  · rw [parent, node_of_not_contains hc] at hq
    exact absurd rfl hq

/-- **Where nodes come after their parents, the links form a forest.** -/
theorem Sound.isForest (h : t.Sound) : t.IsForest := by
  have hlt : ∀ {p q : Nat}, t.Above p q → p < q := by
    intro p q hpq
    induction hpq with
    | single hq => exact (h.grounded p _ hq).1
    | tail _ hq ih => exact ih.trans (h.grounded _ _ hq).1
  exact ⟨h.linked, fun q hq => Nat.lt_irrefl q (hlt hq)⟩

/-- A table whose last node, the fifth one, stands before the node that it is linked behind. -/
def lateOperand : NodeTable :=
  let node (kind : NodeKind) (column : Nat) : Node :=
    { kind, file := none, line := 1, column, endLine := 1, endColumn := column + 1 }
  let t := (({ file := none, library := "work" } : NodeTable).add (node .paSourceText 1)).2
  let t := (t.addChild 1 (node .paExpression 5)).2
  let t := (t.addChild 2 (node .paPrimary 5)).2
  let t := (t.addChild 3 (node .paExpression 6)).2
  (t.addChild 1 (node .paPrimary 2)).2

theorem sound_lateOperand : lateOperand.Sound :=
  Grafted.sound_addChild
    (Grafted.sound_addChild
      (Grafted.sound_addChild
        (Grafted.sound_addChild ((rooted_of_empty rfl).sound.add rfl rfl) (by decide) rfl rfl)
        (by decide) rfl rfl)
      (by decide) rfl rfl)
    (by decide) rfl rfl

end NodeTable

end Verilog
