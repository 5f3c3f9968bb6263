import Verilog.Proofs.Syntax.Hidden
import Verilog.Proofs.Source.Grammar

/-!
# The shape that a parse tree gives

Without comments, blanks and marks, the nodes that are made of a parse tree are its outline: one
node for each production and one for each token that is a leaf of some kind, in the nesting and
order of the parse tree, with nothing inside an opaque body (`ParseTree.outline`).

The proof follows the recursion over the tree. One step of it is stated as `Growth.Grown`: what is
put below the innermost production that is open is the outline of the tree that was gone through,
and the tokens dealt with reach no further than its leaves.
-/

namespace Verilog

namespace ParseTree

/-- The label of the leaf that the token at a position of a production is, if it is one. -/
def leafLabel? (tokens : Array SourceToken) (production : ParseTree) (i : Nat) :
    Option (NodeKind × Option String) := do
  let t ← tokens[i]?
  let kind ← leafKindIn? t.kind (← production.kind?) (production.opensWith i)
  return (kind, leafName? kind t.text)

mutual

/-- The outline of a tree that stands in a production: nothing if it is a token that is no leaf of
any kind. An opaque body is a node with nothing below it. -/
def outline (tokens : Array SourceToken) (production : ParseTree) :
    ParseTree → List (Outline (NodeKind × Option String))
  | leaf i => (production.leafLabel? tokens i).toList.map fun a => .node a []
  | node kind ts =>
    [.node (kind, none)
      (if kind = .paOpaqueBody then [] else outlineAll tokens (.node kind ts) ts)]

/-- The outlines of trees that stand in a production. -/
def outlineAll (tokens : Array SourceToken) (production : ParseTree) :
    List ParseTree → List (Outline (NodeKind × Option String))
  | [] => []
  | t :: ts => outline tokens production t ++ outlineAll tokens production ts

end

end ParseTree

open NodeTable

/-! ### Kinds of leaves -/

theorem isTrivia_leafKind? {k : SourceKind} {kind : NodeKind} (h : k.leafKind? = some kind) :
    kind.isTrivia = false := by
  unfold SourceKind.leafKind? at h
  split at h <;> cases h <;> rfl

theorem isTrivia_operatorKind? {front : Bool} {k : SourceKind} {kind : NodeKind}
    (h : k.operatorKind? front = some kind) : kind.isTrivia = false := by
  unfold SourceKind.operatorKind? at h
  cases front <;> split at h <;> cases h <;> rfl

theorem isTrivia_gateKind? {k : SourceKind} {kind : NodeKind} (h : k.gateKind? = some kind) :
    kind.isTrivia = false := by
  unfold SourceKind.gateKind? at h
  split at h <;> cases h <;> rfl

/-- No leaf is a comment, a blank or a mark. -/
theorem isTrivia_leafKindIn? {k : SourceKind} {production : NodeKind} {front : Bool}
    {kind : NodeKind} (h : leafKindIn? k production front = some kind) : kind.isTrivia = false := by
  unfold leafKindIn? at h
  split at h
  · rename_i hk
    cases h
    exact isTrivia_leafKind? hk
  · split at h
    · exact isTrivia_operatorKind? h
    · split at h
      case h_4 => exact isTrivia_gateKind? h
      case h_5 => cases h
      all_goals split at h <;> cases h; rfl

namespace Growth

variable {s : GrowthSource} {g g' g'' : Growth} {rows : List (Nat × Nat)} {p : Nat}
  {os os' : List (Outline (NodeKind × Option String))} {leaves leaves' : List Nat}

/-! ### Steps -/

/-- Can tokens be met as the leaves of a tree, when all before `next` have been dealt with? -/
structure Fits (s : GrowthSource) (next : Nat) (leaves : List Nat) : Prop where
  sorted : leaves.Pairwise (· < ·)
  seen : ∀ i ∈ leaves, ∃ token, s.marked.tokens[i]? = some token ∧ token.kind.isHidden = false
  ahead : ∀ i ∈ leaves, next ≤ i

/-- **What going through trees does**: their outlines are put below a node, and no token is dealt
with that stands behind their leaves. -/
structure Grown (s : GrowthSource) (g g' : Growth) (p : Nat)
    (os : List (Outline (NodeKind × Option String))) (leaves : List Nat) : Prop where
  going : ∃ rows, Going s g' rows
  gains : (g.table s).shapeForest.Gains (g'.table s).shapeForest p os
  pauses : g'.pauses = g.pauses
  next_le : g.next ≤ g'.next
  next : ∀ j, (∀ i ∈ leaves, i < j) → g.next ≤ j → g'.next ≤ j

theorem Going.grounded (h : Going s g rows) : (g.table s).shapeForest.Grounded := by
  intro p q hq
  obtain ⟨hmem, hpar⟩ := List.mem_filter.mp hq
  have hc := mem_ids.mp hmem
  have hpar : (g.table s).parent q = p := of_decide_eq_true (Bool.and_eq_true_iff.mp hpar).1
  exact ⟨hpar ▸ h.parent_lt q hc, (contains_iff.mp hc).2⟩

theorem Fits.left (h : Fits s g.next (leaves ++ leaves')) : Fits s g.next leaves :=
  ⟨(List.pairwise_append.mp h.sorted).1, fun i hi => h.seen i (List.mem_append_left _ hi),
    fun i hi => h.ahead i (List.mem_append_left _ hi)⟩

theorem Fits.right (h : Fits s g.next (leaves ++ leaves'))
    (hg : ∀ j, (∀ i ∈ leaves, i < j) → g.next ≤ j → g'.next ≤ j) : Fits s g'.next leaves' := by
  obtain ⟨-, hs, hlt⟩ := List.pairwise_append.mp h.sorted
  refine ⟨hs, fun i hi => h.seen i (List.mem_append_right _ hi), fun i hi => ?_⟩
  exact hg i (fun j hj => hlt j hj i hi) (h.ahead i (List.mem_append_right _ hi))

namespace Grown

theorem refl (h : Going s g rows) (p : Nat) : Grown s g g p [] [] :=
  ⟨⟨rows, h⟩, .of_keeps (.refl _) p, rfl, Nat.le_refl _, fun _ _ hj => hj⟩

theorem trans (h : Grown s g g' p os leaves) (h' : Grown s g' g'' p os' leaves')
    (hp : p ≤ g.nodes.size) : Grown s g g'' p (os ++ os') (leaves ++ leaves') := by
  obtain ⟨rows, hgoing⟩ := h.going
  refine ⟨h'.going, h.gains.trans h'.gains hp hgoing.grounded, h'.pauses.trans h.pauses,
    h.next_le.trans h'.next_le, fun j hj hn => h'.next j (fun i hi => ?_) (h.next j ?_ hn)⟩
  · exact hj i (List.mem_append_right _ hi)
  · exact fun i hi => hj i (List.mem_append_left _ hi)

end Grown

theorem shapeForest_eq (hn : g'.nodes = g.nodes) :
    (g'.table s).shapeForest = (g.table s).shapeForest := by
  cases g
  cases g'
  cases hn
  rfl

theorem hosts_push {n : Node} (hk : n.kind.isTrivia = false) (hn : g'.nodes = g.nodes.push n) :
    Hosts s g' (g.nodes.size + 1) := by
  refine ⟨Nat.succ_pos _, ?_, ?_⟩
  · rw [hn, Array.size_push]
    exact Nat.le_refl _
  · have hself : ((g.table s).add n).2.node (g.nodes.size + 1) = n := node_add_self
    have hkind : (g'.table s).node (g.nodes.size + 1) = n := by
      simp only [table, NodeTable.node, hn] at hself ⊢
      exact hself
    rw [NodeTable.kind, hkind]
    exact hk

/-- A node that gives the tree its shape is put below its parent. -/
theorem gains_add {n : Node} {a : NodeKind × Option String} (h : Going s g rows)
    (hk : n.kind.isTrivia = false) (hp : Hosts s g n.parent) (ha : (n.kind, n.name) = a)
    {f : Forest (NodeKind × Option String)}
    (hf : ((g.add n).2.table s).shapeForest.Gains f (g.nodes.size + 1) os) :
    (g.table s).shapeForest.Gains f n.parent [.node a os] := by
  have hself : ((g.table s).add n).2.node (g.nodes.size + 1) = n := node_add_self
  refine Forest.Gains.node (f := (g.table s).shapeForest) (by simp [shapeForest, table, add, size])
    rfl (fun q hq0 hq => ?_) ?_ (fun q hq => ?_) ?_ ?_ hp.le hf
  · have hold := node_add_of_contains (t := g.table s) (n := n) (contains_iff.mpr ⟨hq0, hq⟩)
    exact congrArg (fun n : Node => (n.kind, n.name)) hold
  · exact (congrArg (fun n : Node => (n.kind, n.name)) hself).trans ha
  · refine (below_add (g.table s) n q).trans ?_
    rw [if_neg fun hn => hq hn.1.symm, List.append_nil]
  · refine (below_add (g.table s) n n.parent).trans ?_
    rw [if_pos ⟨rfl, hk⟩]
    rfl
  · refine List.eq_nil_iff_forall_not_mem.mpr fun q hq => ?_
    obtain ⟨hlt, hle⟩ := h.grounded _ q hq
    exact Nat.not_succ_le_self _ (Nat.le_trans (Nat.le_of_lt hlt) hle)

/-- Tokens may be dealt with before trees that have a leaf behind them. -/
theorem Grown.of_drains {i : Nat} (hd : Drains s g g' i) (hi : i ∈ leaves) (hn : g.next ≤ i)
    (h : Grown s g' g'' p os leaves) : Grown s g g'' p os leaves := by
  have hnext := hd.next
  refine ⟨h.going, .of_keeps_left hd.keeps h.gains, h.pauses.trans hd.pauses,
    hn.trans (hnext ▸ h.next_le), fun j hj _ => h.next j hj ?_⟩
  rw [hnext]
  exact Nat.le_of_lt (hj i hi)

/-! ### Leaves -/

theorem triviaKind?_eq_none {keepBlanks : Bool} {k : SourceKind} (h : k.isHidden = false) :
    triviaKind? keepBlanks k = none := by
  unfold triviaKind?
  split <;> first | rfl | cases h

theorem isMark_eq_false {k : SourceKind} (h : k.isHidden = false) : k.isMark = false := by
  unfold SourceKind.isMark
  split <;> first | rfl | cases h

/-- The label of a leaf is that of its node. -/
theorem leafLabel?_eq (s : GrowthSource) (p : Nat) (production : ParseTree) (i : Nat) :
    production.leafLabel? s.marked.tokens i =
      (leafNode? s p production i).map fun n => (n.kind, n.name) := by
  simp only [ParseTree.leafLabel?, leafNode?, bind, pure, Option.map_bind, Function.comp_def,
    Option.map_some]
  rfl

theorem leafNode?_eq_some {production : ParseTree} {i : Nat} {n : Node}
    (h : leafNode? s p production i = some n) : n.kind.isTrivia = false ∧ n.parent = p ∧
      ∃ token, s.marked.tokens[i]? = some token ∧ (n.line, n.column) = token.begins := by
  simp only [leafNode?, bind, Option.bind_eq_some_iff, Option.some.injEq, pure] at h
  obtain ⟨token, ht, k, hk, kind, hkind, rfl⟩ := h
  exact ⟨isTrivia_leafKindIn? hkind, rfl, token, ht, rfl⟩

variable {text : PreprocessedText}

section Marked

variable (hm : MarkedText.ofText text = .ok s.marked)

include hm

/-- A token that the grammar sees is gone past. -/
theorem Going.pass_visible (h : Going s g rows) {token : SourceToken}
    (ht : s.marked.tokens[g.next]? = some token) (hv : token.kind.isHidden = false) :
    Going s { g with next := g.next + 1 } rows :=
  h.pass hm ht (by simp [GrowthSource.keeps, ht, triviaKind?_eq_none hv]) (isMark_eq_false hv)

/-- **A leaf of a tree** becomes a node if it is to have one, and none inside an opaque body. -/
theorem grown_addLeaf (h : Going s g rows) (hp : Hosts s g p)
    (production : ParseTree) {i : Nat} (hfit : Fits s g.next [i]) :
    Grown s g (g.addLeaf s p production i) p
      (if 0 < g.pauses then [] else ParseTree.outline s.marked.tokens production (.leaf i))
      [i] := by
  obtain ⟨token, ht, hv⟩ := hfit.seen i (by simp)
  have hn := hfit.ahead i (by simp)
  have hlt := (Array.getElem?_eq_some_iff.mp ht).1
  have hd := drains_advance hm h hp i
  rw [show max g.next (min i s.marked.tokens.size) = i by omega] at hd
  refine .of_drains hd (by simp) hn ?_
  rw [addLeaf, ← hd.pauses]
  simp only
  have hp₁ := hp.mono hd.keeps.size_le hd.keeps.label_eq
  generalize g.advance s i p = g₁ at hd hp₁
  obtain ⟨rows₁, h₁⟩ := hd.going
  obtain rfl : g₁.next = i := hd.next
  rw [show max g₁.next (g₁.next + 1) = g₁.next + 1 by omega]
  have hnext : ∀ j, (∀ i ∈ [g₁.next], i < j) → g₁.next ≤ j → g₁.next + 1 ≤ j :=
    fun j hj _ => hj _ (by simp)
  have hpass : Grown s g₁ { g₁ with next := g₁.next + 1 } p [] [g₁.next] :=
    ⟨⟨rows₁, h₁.pass_visible hm ht hv⟩, .of_keeps (.refl _) p, rfl, Nat.le_succ _, hnext⟩
  by_cases hpause : 0 < g₁.pauses
  · rw [if_pos hpause, if_pos hpause]
    exact hpass
  · rw [if_neg hpause, if_neg hpause, ParseTree.outline, leafLabel?_eq s p]
    cases hl : leafNode? s p production g₁.next with
    | none => exact hpass
    | some n =>
      obtain ⟨hk, hpar, token', ht', hplace⟩ := leafNode?_eq_some hl
      obtain rfl : token = token' := Option.some.inj (ht.symm.trans ht')
      subst hpar
      have hadd := h₁.add_shape hk hp₁ (hplace.trans (emptyPlace_of_visible ht hv).symm)
      refine ⟨⟨rows₁, (hadd.pass_visible hm ht hv).of_eq rfl rfl rfl⟩, ?_, rfl, Nat.le_succ _,
        hnext⟩
      exact gains_add h₁ hk hp₁ rfl (.of_keeps (.refl _) _)

/-! ### Trees -/

omit hm in
/-- The way to a production: the tokens before its first leaf are dealt with. -/
def reach (s : GrowthSource) (p : Nat) (t : ParseTree) (g : Growth) : Growth :=
  match t.first? with
  | some start => g.advance s start p
  | none => g

omit hm in
theorem addTree_node (s : GrowthSource) (around : Surroundings) (production : ParseTree)
    (kind : NodeKind) (ts : List ParseTree) (g : Growth) :
    addTree s around production (.node kind ts) g =
      (let t := ParseTree.node kind ts
       let g := g.reach s around.parent t
       if g.pauses > 0 then addTrees s around t ts g
       else
        let r := g.addProduction s t kind around
        addTrees s r.1 t ts r.2 >>= leave s kind) := by
  rw [addTree]
  rfl

omit hm in
/-- Two steps that succeed have done so one after the other. -/
theorem exists_of_bind {α β : Type} {x : Except Failure α} {f : α → Except Failure β} {b : β}
    (h : x >>= f = .ok b) : ∃ a, x = .ok a ∧ f a = .ok b := by
  cases x with
  | error e => cases h
  | ok a => exact ⟨a, rfl, h⟩

omit hm in
/-- **How a production is gone through**: in a pause its parts are, and else they are between the
making of its node and the going on behind it. -/
theorem cases_of_addTree {around : Surroundings} {production : ParseTree} {kind : NodeKind}
    {ts : List ParseTree} (h : addTree s around production (.node kind ts) g = .ok g') :
    let g₁ := g.reach s around.parent (.node kind ts)
    let r := g₁.addProduction s (.node kind ts) kind around
    (0 < g₁.pauses ∧ addTrees s around (.node kind ts) ts g₁ = .ok g') ∨
      (¬0 < g₁.pauses ∧ ∃ g₂, addTrees s r.1 (.node kind ts) ts r.2 = .ok g₂ ∧
        g₂.leave s kind = .ok g') := by
  rw [addTree_node] at h
  dsimp only at h
  split at h
  · exact .inl ⟨‹_›, h⟩
  · exact .inr ⟨‹_›, exists_of_bind h⟩

theorem going_reach (h : Going s g rows) (hp : Hosts s g p) {t : ParseTree}
    (hfit : Fits s g.next t.leaves) :
    (∃ rows, Going s (g.reach s p t) rows) ∧ (g.reach s p t).pauses = g.pauses ∧
      Hosts s (g.reach s p t) p ∧ Fits s (g.reach s p t).next t.leaves ∧
      (∀ i, t.first? = some i → (g.reach s p t).next = i) ∧
      ∀ {g' os}, Grown s (g.reach s p t) g' p os t.leaves → Grown s g g' p os t.leaves := by
  cases hf : t.first? with
  | none =>
    rw [reach, hf]
    exact ⟨⟨rows, h⟩, rfl, hp, hfit, by simp, id⟩
  | some i =>
    rw [reach, hf]
    have hi : i ∈ t.leaves := List.mem_of_head? (t.first?_eq ▸ hf)
    have hn := hfit.ahead i hi
    obtain ⟨token, ht, -⟩ := hfit.seen i hi
    have hlt := (Array.getElem?_eq_some_iff.mp ht).1
    have hd := drains_advance hm h hp i
    rw [show max g.next (min i s.marked.tokens.size) = i by omega] at hd
    refine ⟨hd.going, hd.pauses, hp.mono hd.keeps.size_le hd.keeps.label_eq,
      ⟨hfit.sorted, hfit.seen, fun j hj => ?_⟩, fun j hj => hd.next.trans (Option.some.inj hj),
      .of_drains hd hi hn⟩
    simp only
    rw [hd.next]
    rw [t.first?_eq] at hf
    obtain ⟨leaves, hl⟩ := List.head?_eq_some_iff.mp hf
    have hs := hfit.sorted
    rw [hl] at hj hs
    rcases List.mem_cons.mp hj with rfl | hj
    · exact Nat.le_refl _
    · exact Nat.le_of_lt ((List.pairwise_cons.mp hs).1 j hj)

omit hm in
/-- The node of a production stands where the next visible token stands, once the tokens before it
have been dealt with. -/
theorem begins_productionNode (kind : NodeKind) {t : ParseTree} (hfit : Fits s g.next t.leaves)
    (hn : ∀ i, t.first? = some i → g.next = i) (p : Nat) :
    let n := g.productionNode s kind (t.first?.bind (s.marked.tokens[·]?))
      (t.last?.bind (s.marked.tokens[·]?)) p
    n.kind = kind ∧ n.name = none ∧ n.parent = p ∧ (n.line, n.column) = g.emptyPlace s := by
  rw [t.first?_eq] at hn ⊢
  rw [t.last?_eq]
  cases hl : t.leaves.getLast? with
  | none =>
    rw [List.getLast?_eq_none_iff.mp hl]
    exact ⟨rfl, rfl, rfl, rfl⟩
  | some j =>
    obtain ⟨i, hi⟩ : ∃ i, t.leaves.head? = some i := by
      cases hl' : t.leaves with
      | nil => simp [hl'] at hl
      | cons i _ => exact ⟨i, rfl⟩
    obtain rfl := hn i hi
    obtain ⟨token, ht, hv⟩ := hfit.seen _ (List.mem_of_head? hi)
    obtain ⟨token', ht', -⟩ := hfit.seen _ (List.mem_of_getLast? hl)
    rw [hi, Option.bind_some, Option.bind_some, ht, ht', emptyPlace_of_visible ht hv]
    exact ⟨rfl, rfl, rfl, rfl⟩

omit hm in
/-- Recording a design element changes nothing else. -/
theorem addElement_spec (s : GrowthSource) (t : ParseTree) (id : NodeId)
    (around : Option (Nat × String)) (g : Growth) :
    let g' := (g.addElement s t id around).2
    g'.nodes = g.nodes ∧ g'.next = g.next ∧ g'.openMarks = g.openMarks ∧ g'.pauses = g.pauses := by
  rw [addElement]
  split <;> exact ⟨rfl, rfl, rfl, rfl⟩

omit hm in
/-- What a production adds besides its node concerns elements and pauses alone. -/
theorem addProduction_spec (s : GrowthSource) (t : ParseTree) (kind : NodeKind)
    (around : Surroundings) (g : Growth) :
    let n := g.productionNode s kind (t.first?.bind (s.marked.tokens[·]?))
      (t.last?.bind (s.marked.tokens[·]?)) around.parent
    let r := g.addProduction s t kind around
    r.1.parent = g.nodes.size + 1 ∧ r.2.nodes = g.nodes.push n ∧ r.2.next = g.next ∧
      r.2.openMarks = g.openMarks ∧
      r.2.pauses = g.pauses + if kind = .paOpaqueBody then 1 else 0 := by
  simp only [addProduction, nodes_relink, next_relink, openMarks_relink, pauses_relink,
    addElement_spec]
  by_cases hk : kind = .paOpaqueBody <;> simp [hk, Growth.add]

omit hm in
/-- Behind a production things go on as before it. -/
theorem leave_spec (s : GrowthSource) (kind : NodeKind) {pauses : Int}
    (hp : g.pauses = pauses + if kind = .paOpaqueBody then 1 else 0) (h0 : 0 ≤ pauses) :
    ∃ g', g.leave s kind = .ok g' ∧ g'.nodes = g.nodes ∧ g'.next = g.next ∧
      g'.openMarks = g.openMarks ∧ g'.pauses = pauses := by
  rw [leave]
  by_cases hk : kind = .paOpaqueBody
  · rw [if_pos hk] at hp
    rw [if_pos hk, if_neg (by omega)]
    exact ⟨_, rfl, rfl, rfl, rfl, by simp only [pauses_relink]; omega⟩
  · rw [if_neg hk] at hp
    rw [if_neg hk]
    exact ⟨_, rfl, rfl, rfl, rfl, by simp only [pauses_relink]; omega⟩

end Marked

mutual

/-- **Going through a tree** puts its outline below the production it stands in. -/
theorem grown_addTree (hm : MarkedText.ofText text = .ok s.marked) (around : Surroundings)
    (production : ParseTree) :
    (t : ParseTree) → ∀ {g : Growth} {rows : List (Nat × Nat)}, Going s g rows →
      Hosts s g around.parent → Fits s g.next t.leaves →
      (∀ k ∈ t.kinds, k.isTrivia = false) → 0 ≤ g.pauses →
      ∃ g', addTree s around production t g = .ok g' ∧ Grown s g g' around.parent
        (if 0 < g.pauses then [] else ParseTree.outline s.marked.tokens production t) t.leaves
  | .leaf i, g, rows, h, hp, hfit, _, _ =>
    ⟨_, by rw [addTree], grown_addLeaf hm h hp production hfit⟩
  | .node kind ts, g, rows, h, hp, hfit, hkinds, hpause => by
    have hk : kind.isTrivia = false := hkinds kind (by simp [ParseTree.kinds])
    have hks : ∀ k ∈ ParseTree.kindsAll ts, k.isTrivia = false :=
      fun k hk => hkinds k (by simp [ParseTree.kinds, hk])
    obtain ⟨⟨rows₁, h₁⟩, hpause₁, hp₁, hfit₁, hnext₁, hback⟩ := going_reach hm h hp hfit
    rw [addTree_node]
    simp only
    generalize g.reach s around.parent (.node kind ts) = g₁ at *
    rw [← hpause₁] at hpause ⊢
    -- in an opaque body productions have no nodes, and hidden tokens in them go below the body
    by_cases hpaused : 0 < g₁.pauses
    · obtain ⟨g₂, he₂, hg₂⟩ := grown_addTrees hm _ (.node kind ts) ts h₁ hp₁ hfit₁ hks hpause
      rw [if_pos hpaused] at hg₂
      rw [if_pos hpaused, if_pos hpaused]
      exact ⟨g₂, he₂, hback hg₂⟩
    · rw [if_neg hpaused, if_neg hpaused]
      have hzero : g₁.pauses = 0 := by omega
      obtain ⟨hnk, hnn, hnp, hplace⟩ := begins_productionNode kind hfit₁ hnext₁ around.parent
      obtain ⟨hpar, hnodes, hnext, hopen, hpauses⟩ :=
        addProduction_spec s (.node kind ts) kind around g₁
      generalize g₁.addProduction s (.node kind ts) kind around = r at *
      generalize g₁.productionNode s kind _ _ around.parent = n at *
      have hnp₁ : Hosts s g₁ n.parent := hnp.symm ▸ hp₁
      rw [← hnk] at hk
      have h₂ : Going s r.2 rows₁ :=
        (h₁.add_shape hk hnp₁ hplace).of_eq hnodes hnext hopen
      have hp₂ : Hosts s r.2 r.1.parent := by
        rw [hpar]
        exact hosts_push hk hnodes
      obtain ⟨g₃, he₃, hg₃⟩ := grown_addTrees hm _ (.node kind ts) ts h₂ hp₂ (hnext ▸ hfit₁) hks
        (by rw [hpauses]; split <;> omega)
      obtain ⟨g₄, he₄, hn₄, hx₄, ho₄, hp₄⟩ := leave_spec s kind (hg₃.pauses.trans hpauses) hpause
      obtain ⟨rows₃, h₃⟩ := hg₃.going
      refine ⟨g₄, by rw [he₃]; exact he₄, hback ⟨⟨rows₃, h₃.of_eq hn₄ hx₄ ho₄⟩, ?_, hp₄, ?_, ?_⟩⟩
      · have hgains := hg₃.gains
        have hbefore : (r.2.table s).shapeForest = ((g₁.add n).2.table s).shapeForest :=
          shapeForest_eq hnodes
        rw [hpar, hbefore, ← shapeForest_eq hn₄] at hgains
        have hall := gains_add h₁ hk hnp₁ rfl hgains
        rw [hnp, hnk, hnn, hpauses, hzero] at hall
        rw [ParseTree.outline]
        by_cases hko : kind = .paOpaqueBody <;> simpa [hko] using hall
      · rw [hx₄, ← hnext]
        exact hg₃.next_le
      · rw [hx₄, ← hnext]
        exact hg₃.next

/-- **Going through trees** puts their outlines below the production they stand in. -/
theorem grown_addTrees (hm : MarkedText.ofText text = .ok s.marked) (around : Surroundings)
    (production : ParseTree) :
    (ts : List ParseTree) → ∀ {g : Growth} {rows : List (Nat × Nat)}, Going s g rows →
      Hosts s g around.parent →
      Fits s g.next (ParseTree.leavesAll ts) →
      (∀ k ∈ ParseTree.kindsAll ts, k.isTrivia = false) → 0 ≤ g.pauses →
      ∃ g', addTrees s around production ts g = .ok g' ∧ Grown s g g' around.parent
        (if 0 < g.pauses then [] else ParseTree.outlineAll s.marked.tokens production ts)
        (ParseTree.leavesAll ts)
  | [], g, rows, h, hp, hfit, _, _ =>
    ⟨g, by rw [addTrees], by simpa [ParseTree.outlineAll] using .refl h _⟩
  | t :: ts, g, rows, h, hp, hfit, hkinds, hpause => by
    obtain ⟨g₁, he₁, hg₁⟩ := grown_addTree hm around production t h hp hfit.left
      (fun k hk => hkinds k (List.mem_append_left _ hk)) hpause
    obtain ⟨rows₁, h₁⟩ := hg₁.going
    obtain ⟨g₂, he₂, hg₂⟩ := grown_addTrees hm around production ts h₁
      (hp.mono hg₁.gains.size_le hg₁.gains.label_eq) (hfit.right hg₁.next)
      (fun k hk => hkinds k (List.mem_append_right _ hk)) (hg₁.pauses ▸ hpause)
    refine ⟨g₂, by rw [addTrees, he₁]; exact he₂, ?_⟩
    have hg := hg₁.trans hg₂ hp.le
    rw [hg₁.pauses] at hg
    by_cases hpaused : 0 < g.pauses <;>
      simpa [hpaused, ParseTree.outlineAll, ParseTree.leavesAll] using hg

end

/-! ### Whole trees -/

/-- The root alone. -/
theorem going_root {root : Node} (hk : root.kind.isTrivia = false) (hp : root.parent = 0)
    (elements : Array DesignElement)
    (hplace : NoLater (root.line, root.column) (emptyPlace s {})) :
    Going s { nodes := #[root], elements } [] := by
  have hone : ∀ q : Nat,
      (({ nodes := #[root], elements } : Growth).table s).contains q → q = 1 := by
    intro q hq
    obtain ⟨h0, h1⟩ := contains_iff.mp hq
    exact Nat.le_antisymm h1 h0
  refine ⟨Nat.zero_le _, ⟨rfl, hk⟩, ?_, ?_, ?_, ?_, ?_, rfl, ?_, by simp, .nil, by simp⟩
  · intro q hq
    rw [hone q hq]
    exact hp ▸ Nat.zero_lt_one
  · exact fun q hq h1 => absurd (hone q hq) h1
  · intro q hq
    have hpar : (({ nodes := #[root], elements } : Growth).table s).parent 1 = 0 := hp
    rw [hone q hq, hpar]
    rfl
  · intro q r hq hr _ _ _
    rw [hone q hq, hone r hr]
    exact .refl _
  · intro q hq _
    rw [hone q hq]
    exact hplace
  · have hid : (({ nodes := #[root], elements } : Growth).table s).ids = [1] := rfl
    rw [triviaIds, hid, List.filter_singleton, show NodeTable.kind _ 1 = root.kind from rfl, hk]
    rfl

/-- A place at which a node may stand is that of a token, if there are tokens. -/
theorem exists_token_emptyPlace {token : SourceToken} (ht : s.marked.tokens[0]? = some token)
    (g : Growth) : ∃ (j : Nat) (u : SourceToken), s.marked.tokens[j]? = some u ∧
      g.emptyPlace s = u.begins := by
  rw [emptyPlace_eq]
  cases hv : visibleFrom s g.next with
  | some u =>
    obtain ⟨k, -, hk, -⟩ := find?_drop hv
    exact ⟨k, u, by simpa using hk, rfl⟩
  | none =>
    cases hb : s.marked.tokens.back? with
    | some u =>
      rw [Array.back?_eq_getElem?] at hb
      exact ⟨_, u, hb, rfl⟩
    | none =>
      rw [Array.back?_eq_none_iff] at hb
      simp [hb] at ht

/-- The first token comes before every place at which a node may stand. -/
theorem noLater_emptyPlace (hm : MarkedText.ofText text = .ok s.marked) {token : SourceToken}
    (ht : s.marked.tokens[0]? = some token) (g : Growth) :
    NoLater token.begins (g.emptyPlace s) := by
  obtain ⟨j, u, hu, hplace⟩ := exists_token_emptyPlace ht g
  rw [hplace]
  exact MarkedText.noLater_tokens hm ht hu (Nat.zero_le j)

/-- The node of the root: from the start of the first token to the end of the last. -/
def rootNode (s : GrowthSource) (kind : NodeKind) : Node :=
  match s.marked.tokens[0]?, s.marked.tokens.back? with
  | some first, some last => productionNode s kind (some first) (some last) 0 {}
  | _, _ => productionNode s kind none none 0 {}

theorem ofTree_node (s : GrowthSource) (kind : NodeKind) (ts : List ParseTree) :
    ofTree s (.node kind ts) =
      (let t := ParseTree.node kind ts
       let r := (({} : Growth).add (rootNode s kind)).2.addElement s t rootId none
       addTrees s ⟨rootId, r.1⟩ t ts r.2 >>= fun g =>
        let g := (g.relink .leave).advance s s.marked.tokens.size rootId
        if g.openMarks.isEmpty then return g
        else throw (.unbalancedMarks (nameText s.marked.text.file) .leftOpen)) := rfl

/-- **How a whole tree is gone through**: its parts are behind the making of its node, and then the
tokens that are left. -/
theorem exists_of_ofTree {kind : NodeKind} {ts : List ParseTree}
    (h : ofTree s (.node kind ts) = .ok g) :
    let r := (({} : Growth).add (rootNode s kind)).2.addElement s (.node kind ts) rootId none
    ∃ g₁, addTrees s ⟨rootId, r.1⟩ (.node kind ts) ts r.2 = .ok g₁ ∧
      g = (g₁.relink .leave).advance s s.marked.tokens.size rootId := by
  rw [ofTree_node] at h
  obtain ⟨g₁, hg₁, h⟩ := exists_of_bind h
  dsimp only at h
  split at h
  · exact ⟨g₁, hg₁, (Except.ok.inj h).symm⟩
  · cases h

theorem going_rootNode (hm : MarkedText.ofText text = .ok s.marked) {kind : NodeKind}
    (hk : kind.isTrivia = false) :
    Going s (({} : Growth).add (rootNode s kind)).2 [] ∧ (rootNode s kind).kind = kind ∧
      (rootNode s kind).name = none := by
  have hempty : ∀ k : NodeKind, k.isTrivia = false →
      Going s (({} : Growth).add (productionNode s k none none 0 {})).2 [] :=
    fun k hk => going_root hk rfl _ (.refl _)
  rw [rootNode]
  cases h0 : s.marked.tokens[0]? with
  | none => exact ⟨hempty kind hk, rfl, rfl⟩
  | some first =>
    cases s.marked.tokens.back? with
    | none => exact ⟨hempty kind hk, rfl, rfl⟩
    | some last => exact ⟨going_root hk rfl _ (noLater_emptyPlace hm h0 _), rfl, rfl⟩

/-- **The nodes of a whole tree** are its outline at the root, and the hidden tokens of the whole
text; every mark has been closed. -/
theorem ofTree_spec (hm : MarkedText.ofText text = .ok s.marked) {kind : NodeKind}
    {ts : List ParseTree} (hko : kind ≠ .paOpaqueBody)
    (hfit : Fits s 0 (ParseTree.node kind ts).leaves)
    (hkinds : ∀ k ∈ (ParseTree.node kind ts).kinds, k.isTrivia = false) (production : ParseTree) :
    ∃ g rows, ofTree s (.node kind ts) = .ok g ∧ Going s g rows ∧
      g.next = s.marked.tokens.size ∧
      Outline.AllAt (g.table s).shapeForest
        (ParseTree.outline s.marked.tokens production (.node kind ts)) [rootId] := by
  have hk : kind.isTrivia = false := hkinds kind (by simp [ParseTree.kinds])
  have hks : ∀ k ∈ ParseTree.kindsAll ts, k.isTrivia = false :=
    fun k hk => hkinds k (by simp [ParseTree.kinds, hk])
  obtain ⟨hroot, hrk, hrn⟩ := going_rootNode hm hk
  obtain ⟨hnodes, hnext, hopen, hpauses⟩ := addElement_spec s (.node kind ts) rootId none
    (({} : Growth).add (rootNode s kind)).2
  rw [ofTree_node]
  simp only
  generalize addElement s (.node kind ts) rootId none (({} : Growth).add (rootNode s kind)).2 = r
    at *
  have h₁ : Going s r.2 [] := hroot.of_eq hnodes hnext hopen
  have hone : r.2.nodes.size = 1 := by rw [hnodes]; rfl
  have hzero : r.2.pauses = 0 := hpauses
  have hp₁ : Hosts s r.2 rootId := hosts_push (g := {}) (hrk.symm ▸ hk) hnodes
  have hfit₁ : Fits s r.2.next (ParseTree.leavesAll ts) := by rw [hnext]; exact hfit
  obtain ⟨g₂, he₂, hg₂⟩ := grown_addTrees hm ⟨rootId, r.1⟩ (.node kind ts) ts h₁
    hp₁ hfit₁ hks (Int.le_of_eq hzero.symm)
  obtain ⟨rows₂, h₂⟩ := hg₂.going
  have hleft : Going s (g₂.relink .leave) rows₂ := h₂.of_eq rfl rfl rfl
  have hd := drains_advance hm hleft (hp₁.mono hg₂.gains.size_le hg₂.gains.label_eq)
    s.marked.tokens.size
  obtain ⟨rows₃, h₃⟩ := hd.going
  have hnext₃ : ((g₂.relink .leave).advance s s.marked.tokens.size rootId).next =
      s.marked.tokens.size := by
    have := h₂.next_le
    exact hd.next.trans (by rw [next_relink]; omega)
  -- the marks that are open behind all tokens are those that pairing leaves open, which are none
  have hopen₃ : ((g₂.relink .leave).advance s s.marked.tokens.size rootId).openMarks = [] := by
    have := h₃.opens
    rw [hnext₃, MarkedText.opened_size hm] at this
    exact List.forall₂_nil_right_iff.mp this
  refine ⟨(g₂.relink .leave).advance s s.marked.tokens.size rootId, rows₃, ?_, h₃, hnext₃, ?_⟩
  · rw [he₂]
    simp only [bind, Except.bind]
    rw [hopen₃]
    rfl
  · have hone' : 1 ≤ (r.2.table s).shapeForest.size := Nat.le_of_eq hone.symm
    have hgains := hg₂.gains.trans (.of_keeps hd.keeps rootId) hone' h₂.grounded
    rw [List.append_nil, if_neg (by rw [hzero]; exact Int.lt_irrefl 0)] at hgains
    obtain ⟨tops, hbelow, -, hat⟩ := hgains.tops
    have hnone : (r.2.table s).shapeForest.below rootId = [] := by
      refine List.eq_nil_iff_forall_not_mem.mpr fun q hq => ?_
      obtain ⟨hlt, hle⟩ := h₁.grounded _ q hq
      rw [show (r.2.table s).shapeForest.size = 1 from hone] at hle
      exact Nat.not_succ_le_self _ (Nat.le_trans hlt hle)
    have hlabel := hgains.label_eq rootId Nat.zero_lt_one hone'
    rw [hnone, List.nil_append] at hbelow
    rw [ParseTree.outline, if_neg hko]
    refine ⟨⟨hlabel.trans ?_, hbelow ▸ hat⟩, trivial⟩
    rw [shapeForest_eq hnodes]
    exact Prod.ext hrk hrn

end Growth

end Verilog
