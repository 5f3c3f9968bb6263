import Mathlib.Logic.Relation
import Verilog.Node.Validate
import Verilog.Proofs.Lexing.Place
import Verilog.Proofs.Node.Graft

/-!
# Valid tables

A table is valid if the check of its links finds nothing wrong, all nodes are below the first one,
no node ends before it starts, and every design element stands where its node stands
(`NodeTable.Valid`). Nodes of some kinds may be spared the look at their range.

The check marks what it meets, chain by chain, and so depends on the order in which it goes. It
finds nothing as soon as every chain is that of the children of one node
(`NodeTable.linkProblems_eq_nil`): chains of different nodes have no member in common, so what is
marked before a chain is not on it. That all nodes are below the first one needs more, that every
other node has a parent and comes after it (`NodeTable.Rooted`). Both are kept by adding children
and by copying trees.
-/

namespace Verilog

/-- Does a node end no earlier than it starts? -/
def Node.Spans (n : Node) : Prop := NoLater (n.line, n.column) (n.endLine, n.endColumn)

/-- Does a design element stand where a node stands? -/
structure DesignElement.StandsAt (e : DesignElement) (n : Node) : Prop where
  file : e.file = n.file
  line : e.line = n.line
  column : e.column = n.column
  endLine : e.endLine = n.endLine
  endColumn : e.endColumn = n.endColumn

/-- A range does not hang on links. -/
theorem Node.Spans.congr {m n : Node} (hn : n.Spans) (h : m.bare = n.bare) : m.Spans := by
  have hm : m.bare.Spans := h ▸ hn
  exact hm

/-- Nor does where an element stands hang on links. -/
theorem DesignElement.StandsAt.congr {e : DesignElement} {m n : Node} (h : e.StandsAt n)
    (hm : m.bare = n.bare) : e.StandsAt m := by
  obtain ⟨hfile, hline, hcolumn, hendLine, hendColumn⟩ := h
  have hbare : e.StandsAt m.bare := hm ▸ ⟨hfile, hline, hcolumn, hendLine, hendColumn⟩
  exact ⟨hbare.file, hbare.line, hbare.column, hbare.endLine, hbare.endColumn⟩

namespace NodeTable

variable {t u source : NodeTable} {kids : Nat → List Nat} {p id : Nat} {ids : List Nat}
  {spared : NodeKind → Prop}

/-- Does no node of a table end before it starts, those of some kinds spared? -/
def Spanning (spared : NodeKind → Prop) (t : NodeTable) : Prop :=
  ∀ q : Nat, (t.node q).Spans ∨ spared (t.kind q)

/-- **What is promised of a table**, nodes of some kinds spared. -/
structure Valid (spared : NodeKind → Prop) (t : NodeTable) : Prop where
  /-- The check finds nothing wrong. -/
  problems : t.problems = []
  /-- No node is above the first one. -/
  root : ∀ p : Nat, 1 ∉ t.children p
  /-- All other nodes are below the first one. -/
  reachable : ∀ id : Nat, t.contains id → id ≠ 1 →
    Relation.TransGen (fun p q : Nat => q ∈ t.children p) 1 id
  /-- No node ends before it starts. -/
  spanning : t.Spanning spared
  /-- Design elements stand where their nodes stand. -/
  elements : ∀ e ∈ t.elements, e.StandsAt (t.node e.node)

/-! ### The check of the links -/

/-- A chain of nodes that are all there and not marked yet is marked, and nothing else is. -/
theorem markChain_of_unmarked {seen : Array Bool} (hc : ∀ q ∈ ids, t.contains q)
    (hp : ∀ q ∈ ids, t.parent q = p) (hn : ids.Nodup)
    (hseen : ∀ q ∈ ids, seen.getD q false = false) :
    ∃ after, t.markChain p ids seen = ([], after) ∧
      ∀ q, q ∉ ids → after.getD q false = seen.getD q false := by
  induction ids generalizing seen with
  | nil => exact ⟨seen, rfl, fun _ _ => rfl⟩
  | cons id ids ih =>
    obtain ⟨hid, hn⟩ := List.nodup_cons.mp hn
    have hmarked : ∀ q, q ≠ id →
        (seen.setIfInBounds id true).getD q false = seen.getD q false := by
      intro q hq
      simp [Array.getD_eq_getD_getElem?, Ne.symm hq]
    have hunmarked : ∀ q ∈ ids, (seen.setIfInBounds id true).getD q false = false := by
      intro q hq
      rw [hmarked q fun h => hid (h ▸ hq)]
      exact hseen q (List.mem_cons_of_mem _ hq)
    obtain ⟨after, hafter, hkept⟩ := ih (fun q hq => hc q (List.mem_cons_of_mem _ hq))
      (fun q hq => hp q (List.mem_cons_of_mem _ hq)) hn hunmarked
    refine ⟨after, ?_, fun q hq => ?_⟩
    · have hcid : (!t.contains id) = false := by simp [hc id List.mem_cons_self]
      rw [markChain, hcid, hseen id List.mem_cons_self, hafter]
      simp [hp id List.mem_cons_self]
    · rw [List.mem_cons, not_or] at hq
      rw [hkept q hq.2, hmarked q hq.1]

/-- **The check of the links finds nothing** where every chain is that of the children of one
node. -/
theorem linkProblems_eq_nil (h : t.Linked t.children) {ps : List Nat} {seen : Array Bool}
    (hn : ps.Nodup) (hseen : ∀ p ∈ ps, ∀ q ∈ t.children p, seen.getD q false = false) :
    t.linkProblems ps seen = [] := by
  induction ps generalizing seen with
  | nil => rfl
  | cons p ps ih =>
    obtain ⟨hp, hn⟩ := List.nodup_cons.mp hn
    obtain ⟨after, hafter, hkept⟩ := markChain_of_unmarked (h.contains p) (h.parent p) (h.nodup p)
      (hseen p List.mem_cons_self)
    rw [linkProblems, hafter]
    refine ih hn fun r hr q hq => ?_
    -- the chains of two nodes have no member in common
    rw [hkept q fun hqp => hp (h.eq_of_mem hqp hq ▸ hr)]
    exact hseen r (List.mem_cons_of_mem _ hr) q hq

theorem Linked.linkProblems_ids (h : t.Linked t.children) :
    t.linkProblems t.ids (Array.replicate (t.size + 1) false) = [] := by
  refine linkProblems_eq_nil h (t.pairwise_ids.imp Nat.ne_of_lt) fun p _ q _ => ?_
  rw [Array.getD_eq_getD_getElem?, Array.getElem?_replicate]
  split <;> rfl

theorem elementProblems_eq_nil (hs : ∀ e ∈ t.elements, (t.node e.node).Spans)
    (he : ∀ e ∈ t.elements, e.StandsAt (t.node e.node)) : t.elementProblems = [] := by
  rw [elementProblems, List.map_eq_nil_iff, List.filter_eq_nil_iff]
  intro e hmem
  have hat := he e (Array.mem_toList_iff.mp hmem)
  have hspan := hs e (Array.mem_toList_iff.mp hmem)
  rw [Node.Spans, NoLater, ← hat.line, ← hat.column, ← hat.endLine, ← hat.endColumn] at hspan
  simp only [Bool.or_eq_true, Bool.and_eq_true, decide_eq_true_eq, beq_iff_eq]
  omega

/-! ### Trees -/

/-- All nodes but the first one have a parent, which they come after and are a child of. -/
structure Rooted (t : NodeTable) : Prop where
  sound : t.Sound
  parent_ne : ∀ q : Nat, t.contains q → q ≠ 1 → t.parent q ≠ 0

/-- No node is a child of none. -/
theorem Rooted.of_mem (h : t.Sound)
    (hmem : ∀ q : Nat, t.contains q → q ≠ 1 → q ∈ t.children (t.parent q)) : t.Rooted := by
  refine ⟨h, fun q hq h1 h0 => ?_⟩
  have hq := h0 ▸ hmem q hq h1
  rw [h.linked.kids_eq_nil (p := 0) (by simp [NodeTable.contains])] at hq
  cases hq

theorem Rooted.reachable (h : t.Rooted) {id : Nat} (hid : t.contains id) (h1 : id ≠ 1) :
    Relation.TransGen (fun p q : Nat => q ∈ t.children p) 1 id := by
  induction id using Nat.strong_induction_on with
  | _ id ih =>
    -- parents come before their children, so the way up ends, and only the first node has none
    have hne := h.parent_ne id hid h1
    have hlt := h.sound.parent_lt id hid
    have hmem := h.sound.reached id hid hne
    by_cases hp1 : t.parent id = 1
    · exact .single (hp1 ▸ hmem)
    · have hp : t.contains (t.parent id) :=
        contains_iff.mpr ⟨Nat.pos_of_ne_zero hne, Nat.le_trans (Nat.le_of_lt hlt)
          (contains_iff.mp hid).2⟩
      exact .tail (ih _ hlt hp hp1) hmem

/-- **A tree whose nodes end no earlier than they start is valid**, if its elements stand where
their nodes stand. -/
theorem Rooted.valid (h : t.Rooted) (hs : t.Spanning spared)
    (hends : ∀ e ∈ t.elements, (t.node e.node).Spans)
    (he : ∀ e ∈ t.elements, e.StandsAt (t.node e.node)) : t.Valid spared where
  problems := by
    rw [problems, elementProblems_eq_nil hends he, List.append_nil]
    exact h.sound.linked.linkProblems_ids
  root p hmem := by
    have hlt := (h.sound.grounded p 1 hmem).1
    obtain rfl : p = 0 := Nat.lt_one_iff.mp hlt
    rw [h.sound.linked.kids_eq_nil (p := 0) (by simp [NodeTable.contains])] at hmem
    cases hmem
  reachable _ := h.reachable
  spanning := hs
  elements := he

/-- A tree is valid if its elements stand where they stood in a table before, and that table spared
no node the look at its range. -/
theorem Rooted.valid_of_bare (h : t.Rooted) (hs : t.Spanning spared)
    (hu : ∀ q : Nat, (u.node q).Spans)
    (he : ∀ e ∈ t.elements, e.StandsAt (u.node e.node) ∧
      (t.node e.node).bare = (u.node e.node).bare) : t.Valid spared :=
  h.valid hs (fun e hmem => (hu e.node).congr (he e hmem).2)
    fun e hmem => (he e hmem).1.congr (he e hmem).2

/-- A table without nodes. -/
theorem rooted_of_empty (h : t.nodes = #[]) : t.Rooted := by
  have hsize : t.size = 0 := by simp [size, h]
  have hnone : ∀ q : Nat, ¬t.contains q := by
    intro q hq
    have := contains_iff.mp hq
    omega
  have hnode : ∀ q : Nat, t.node q = { kind := .slNoType, file := t.file } :=
    fun q => node_of_not_contains (hnone q)
  have hlinked : t.Linked fun _ => [] := by
    refine ⟨fun p => ?_, ?_, ?_, ?_⟩
    · rw [child, hnode]
      rfl
    all_goals simp
  exact ⟨⟨hlinked.children, fun q hq => absurd hq (hnone q), fun q hq => absurd hq (hnone q)⟩,
    fun q hq => absurd hq (hnone q)⟩

/-- Tables with the same links are trees together. -/
theorem Rooted.congr (h : t.Rooted) (hsize : u.size = t.size)
    (hchild : ∀ q : Nat, u.child q = t.child q) (hsibling : ∀ q : Nat, u.sibling q = t.sibling q)
    (hparent : ∀ q : Nat, u.parent q = t.parent q) : u.Rooted := by
  have hcontains : ∀ q : Nat, u.contains q = t.contains q := by simp [NodeTable.contains, hsize]
  have hlinked := h.sound.linked.congr hsize hchild hsibling hparent
  refine ⟨⟨hlinked.children, fun q hq => ?_, fun q hq h0 => ?_⟩, fun q hq h1 => ?_⟩
  · exact hparent q ▸ h.sound.parent_lt q (hcontains q ▸ hq)
  · rw [hlinked.children_eq, hparent]
    exact h.sound.reached q (hcontains q ▸ hq) (hparent q ▸ h0)
  · exact hparent q ▸ h.parent_ne q (hcontains q ▸ hq) h1

theorem Rooted.addChild (h : t.Rooted) (hp : t.contains p) {n : Node} (hc : n.child = 0)
    (hs : n.sibling = 0) : (t.addChild p n).2.Rooted := by
  refine ⟨Grafted.sound_addChild h.sound hp hc hs, fun q hq h1 => ?_⟩
  have hparent := congrArg Node.parent ((h.sound.linked.addChild hp hc hs).2 q)
  change (t.addChild p n).2.parent q = _ at hparent
  rw [hparent]
  split
  · exact Nat.pos_iff_ne_zero.mp (contains_iff.mp hp).1
  · refine h.parent_ne q ?_ h1
    have hsize := (sizeFile_addChild t p n).1
    rw [contains_iff] at hq ⊢
    omega

/-! ### Ranges -/

theorem spanning_of_empty (h : t.nodes = #[]) : t.Spanning spared := by
  intro q
  have hq : ¬t.contains q := by
    have hsize : t.size = 0 := by simp [size, h]
    rw [contains_iff]
    omega
  rw [node_of_not_contains hq]
  exact .inl (.refl _)

/-- Of a table that is added to only the new nodes have to be looked at. -/
theorem Spanning.extends (h : t.Spanning spared) (hu : t.Extends u)
    (hnew : ∀ q : Nat, t.size < q → u.contains q → (u.node q).Spans ∨ spared (u.kind q)) :
    u.Spanning spared := by
  intro q
  by_cases hq : u.contains q
  · by_cases hle : q ≤ t.size
    · have hbare := hu.node q (contains_iff.mpr ⟨(contains_iff.mp hq).1, hle⟩)
      have hkind : (u.node q).bare.kind = (t.node q).bare.kind := congrArg Node.kind hbare
      change (u.node q).Spans ∨ spared (u.node q).bare.kind
      rw [hkind]
      exact (h q).imp_left fun hspans => hspans.congr hbare
    · exact hnew q (Nat.lt_of_not_le hle) hq
  · rw [node_of_not_contains hq]
    exact .inl (.refl _)

theorem Spanning.modify (h : t.Spanning spared) (id : Nat) {f : Node → Node}
    (hf : ∀ n, (f n).bare = n.bare) : (t.modify id f).Spanning spared := by
  refine h.extends (.modify t id hf) fun q hlt hq => ?_
  rw [contains_iff, size_modify] at hq
  omega

theorem Spanning.addChild (h : t.Spanning spared) (p : Nat) {n : Node}
    (hn : n.Spans ∨ spared n.kind) : (t.addChild p n).2.Spanning spared := by
  refine h.extends (.addChild t p n) fun q hlt hq => ?_
  have hsize := (sizeFile_addChild t p n).1
  rw [contains_iff] at hq
  obtain rfl : q = t.size + 1 := by omega
  have hbare := (bare_addChild t p n).2
  have hkind : ((t.addChild p n).2.node (t.size + 1)).bare.kind = n.bare.kind :=
    congrArg Node.kind hbare
  change _ ∨ spared ((t.addChild p n).2.node (t.size + 1)).bare.kind
  rw [hkind]
  exact hn.imp_left fun hspans => hspans.congr hbare

/-- **Copies have the ranges of what they are copies of.** -/
theorem Spanning.graftWithin (hs : source.Spanning spared) (depth id p : Nat)
    (h : t.Spanning spared) : (source.graftWithin depth id p t).Spanning spared := by
  induction depth generalizing id p t with
  | zero => exact h
  | succ depth ih =>
    rw [NodeTable.graftWithin]
    have hall : ∀ (ids : List Nat) (p : Nat) {u : NodeTable}, u.Spanning spared →
        (ids.foldl (fun u child => source.graftWithin depth child p u) u).Spanning spared := by
      intro ids p
      induction ids with
      | nil => exact fun hu => hu
      | cons id ids ihs => exact fun hu => ihs (ih id p hu)
    exact hall _ _ (h.addChild p (hs id))

end NodeTable

end Verilog
