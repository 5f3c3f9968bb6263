import Verilog.Proofs.Node.Links
import Verilog.Proofs.Node.Outline

/-!
# Putting copies below nodes

A copy of a tree of another table is made node by node, each put behind the last child of its
parent. The table it is put into keeps its nodes and their children, the one node excepted that the
copy is put below, and there the copy stands as a whole (`NodeTable.grafted_graftWithin`).

The table that is copied from need not be a tree: a copy shows what a descent of the given depth
shows (`NodeTable.outlineWithin`).
-/

namespace Verilog

/-- What a node says by itself: a node without its links to others. -/
def Node.content (n : Node) : Node := { n with parent := 0, child := 0, sibling := 0 }

theorem Node.content_eq {m n : Node} (h : m.unlinked = n.unlinked) : m.content = n.content :=
  congrArg (fun n : Node => { n with parent := 0 }) h

namespace NodeTable

variable {t u v : NodeTable} {kids : Nat → List Nat} {p id : Nat} {ids : List Nat}

/-- A table as a forest. -/
def forest (t : NodeTable) : Forest Node := ⟨t.size, fun id => (t.node id).content, t.children⟩

/-- A node and what is below it, at most `depth - 1` levels down; a node without a file counts as
one of the file of the table. -/
def outlineWithin (t : NodeTable) : Nat → NodeId → List (Outline Node)
  | 0, _ => []
  | depth + 1, id =>
    [.node { t.node id with file := t.fileOf id }.content
      ((t.children id).flatMap (t.outlineWithin depth))]

/-- A table whose links are those of a forest, each node coming after its parent and being among
its children. -/
structure Sound (t : NodeTable) : Prop where
  linked : t.Linked t.children
  parent_lt : ∀ q : Nat, t.contains q → Nat.lt (t.parent q) q
  reached : ∀ q : Nat, t.contains q → t.parent q ≠ 0 → q ∈ t.children (t.parent q)

theorem Linked.children (h : t.Linked kids) : t.Linked t.children := by
  rwa [funext h.children_eq]

theorem Sound.grounded (h : t.Sound) : t.forest.Grounded := by
  intro p q hq
  have hc := h.linked.contains p q hq
  exact ⟨h.linked.parent p q hq ▸ h.parent_lt q hc, (contains_iff.mp hc).2⟩

/-! ### Adding a child -/

theorem node_add (n : Node) (q : Nat) :
    (t.add n).2.node q = if q = t.size + 1 then n else t.node q := by
  cases q with
  | zero => simp [node, add]
  | succ i =>
    simp only [node, add, size, Array.getElem?_push, Nat.add_right_cancel_iff]
    split <;> rfl

theorem contains_add (n : Node) (q : Nat) :
    (t.add n).2.contains q = true ↔ q = t.size + 1 ∨ t.contains q = true := by
  rw [contains_iff, contains_iff]
  simp only [add, size, Array.size_push]
  omega

/-- A node that is added stands alone. -/
theorem Linked.add (h : t.Linked kids) {n : Node} (hc : n.child = 0) : (t.add n).2.Linked kids := by
  have hne : ∀ {p q}, q ∈ kids p → q ≠ t.size + 1 := by
    intro p q hq
    have := (contains_iff.mp (h.contains p q hq)).2
    omega
  refine ⟨fun p => ?_, fun p q hq => ?_, fun p q hq => ?_, h.nodup⟩
  · refine Chained.congr (t := t) ?_ fun q hq => ?_
    · have hp := h.chained p
      rw [child, node_add]
      split
      · rename_i hps
        rw [h.kids_eq_nil (by rw [contains_iff]; omega)]
        exact hc
      · exact hp
    · rw [sibling, node_add, if_neg (hne hq)]
      rfl
  · exact (contains_add n q).mpr (.inr (h.contains p q hq))
  · rw [NodeTable.parent, node_add, if_neg (hne hq)]
    exact h.parent p q hq

theorem Sound.add (h : t.Sound) {n : Node} (hp : n.parent = 0) (hc : n.child = 0) :
    (t.add n).2.Sound := by
  have hlinked := h.linked.add hc
  have hparent : ∀ q : Nat, (t.add n).2.parent q = if q = t.size + 1 then 0 else t.parent q := by
    intro q
    rw [parent, node_add]
    split
    · exact hp
    · rfl
  refine ⟨hlinked.children, fun q hq => ?_, fun q hq h0 => ?_⟩
  · rw [hparent]
    rcases (contains_add n q).mp hq with rfl | hq
    · simp
    · have := (contains_iff.mp hq).2
      rw [if_neg (by omega)]
      exact h.parent_lt q hq
  · rw [hparent] at h0 ⊢
    rw [hlinked.children_eq]
    rcases (contains_add n q).mp hq with rfl | hq
    · simp at h0
    · have := (contains_iff.mp hq).2
      rw [if_neg (by omega)] at h0 ⊢
      exact h.reached q hq h0

/-- A chain grows by a node at its end. -/
theorem Chained.concat {c : Nat} (h : t.Chained id ids) (hne : ids ≠ []) (hn : ids.Nodup)
    (hc : c ≠ 0) (hs : ∀ q ∈ ids, u.sibling q = if ids.getLast? = some q then c else t.sibling q)
    (hsc : u.sibling c = 0) : u.Chained id (ids ++ [c]) := by
  induction ids generalizing id with
  | nil => exact absurd rfl hne
  | cons q qs ih =>
    obtain ⟨rfl, hq, h⟩ := h
    refine ⟨rfl, hq, ?_⟩
    cases qs with
    | nil =>
      rw [hs id (by simp)]
      exact ⟨by simp, hc, hsc⟩
    | cons r rs =>
      obtain ⟨hqr, hn⟩ := List.nodup_cons.mp hn
      have hlast : (id :: r :: rs).getLast? = (r :: rs).getLast? := by simp
      have hid : (r :: rs).getLast? ≠ some id := fun hl => hqr (List.mem_of_getLast? hl)
      rw [hs id (by simp), hlast, if_neg hid]
      exact ih h (by simp) hn fun s hmem => by rw [hs s (by simp [hmem]), hlast]

/-- A link from the last of some siblings, or from their parent where there is none. -/
def linkBehind (t : NodeTable) (p c : Nat) (siblings : List Nat) : NodeTable :=
  match siblings.getLast? with
  | some last => t.modify last fun n => { n with sibling := c }
  | none => t.modify p fun n => { n with child := c }

theorem append_eq {c : Nat} (hp : p ≠ 0) (hc : c ≠ 0) :
    t.append p c = (t.linkBehind p c (t.children p)).modify c fun n => { n with parent := p } := by
  rw [NodeTable.append, if_neg (by simp [hp, hc])]
  rfl

theorem linkBehind_spec (h : t.Linked kids) (hp : t.contains p) (c : Nat) :
    t.SameNodes (t.linkBehind p c (kids p)) ∧
      (∀ q : Nat, (t.linkBehind p c (kids p)).child q =
        if kids p = [] ∧ q = p then c else t.child q) ∧
      ∀ q : Nat, (t.linkBehind p c (kids p)).sibling q =
        if (kids p).getLast? = some q then c else t.sibling q := by
  rw [linkBehind]
  cases hl : (kids p).getLast? with
  | none =>
    refine ⟨.modify fun n => rfl, fun q => ?_, fun q => ?_⟩
    · rw [child_modify_child]
      by_cases hq : q = p <;> simp [hq, hp, List.getLast?_eq_none_iff.mp hl]
    · simp [sibling_modify_child]
  | some last =>
    have hne : kids p ≠ [] := by rintro he; simp [he] at hl
    have hlast := h.contains p last (List.mem_of_getLast? hl)
    refine ⟨.modify fun n => rfl, fun q => ?_, fun q => ?_⟩
    · simp [child_modify_sibling, hne]
    · rw [sibling_modify_sibling]
      by_cases hq : q = last
      · simp [hq, hlast]
      · simp [hq, Ne.symm hq]

theorem mem_update {c q r : Nat} (h : r ∈ Function.update kids p (kids p ++ [c]) q) :
    r ∈ kids q ∨ q = p ∧ r = c := by
  by_cases hq : q = p
  · subst hq
    rw [Function.update_self, List.mem_append, List.mem_singleton] at h
    exact h.imp id fun h => ⟨rfl, h⟩
  · rw [Function.update_of_ne hq] at h
    exact .inl h

/-- **A node is put behind the last child of another.** -/
theorem Linked.append {c : Nat} (h : t.Linked kids) (hp : t.contains p) (hc : t.contains c)
    (hfree : ∀ q : Nat, c ∉ kids q) (hsc : t.sibling c = 0) :
    (t.append p c).Linked (Function.update kids p (kids p ++ [c])) ∧
      ∀ q : Nat, ((t.append p c).node q).unlinked =
        if q = c then { t.node c with parent := p }.unlinked else (t.node q).unlinked := by
  have hp0 : p ≠ 0 := Nat.pos_iff_ne_zero.mp (contains_iff.mp hp).1
  have hc0 : c ≠ 0 := Nat.pos_iff_ne_zero.mp (contains_iff.mp hc).1
  obtain ⟨hsame, hchild, hsibling⟩ := linkBehind_spec h hp c
  rw [append_eq hp0 hc0, h.children_eq p]
  generalize t.linkBehind p c (kids p) = w at hsame hchild hsibling
  have hnode : ∀ q : Nat, (w.modify c fun n => { n with parent := p }).node q =
      if q = c then { w.node q with parent := p } else w.node q := by
    intro q
    rw [node_modify, hsame.contains_eq]
    by_cases hq : q = c <;> simp [hq, hc]
  have hchild' : ∀ q : Nat, (w.modify c fun n => { n with parent := p }).child q = w.child q := by
    intro q
    rw [child, hnode]
    split <;> rfl
  have hsibling' : ∀ q : Nat, (w.modify c fun n => { n with parent := p }).sibling q =
    w.sibling q := by
    intro q
    rw [sibling, hnode]
    split <;> rfl
  -- the new child was in no family, so nothing is linked behind it
  have hcp : (kids p).getLast? ≠ some c := fun hl => hfree p (List.mem_of_getLast? hl)
  refine ⟨⟨fun q => ?_, fun q r hr => ?_, fun q r hr => ?_, fun q => ?_⟩, fun q => ?_⟩
  · rw [hchild', hchild]
    by_cases hq : q = p
    · subst hq
      rw [Function.update_self]
      by_cases hk : kids q = []
      · rw [if_pos ⟨hk, rfl⟩, hk]
        exact ⟨rfl, hc0, by rw [hsibling', hsibling, if_neg hcp, hsc]; rfl⟩
      · rw [if_neg fun hn => hk hn.1]
        refine (h.chained q).concat hk (h.nodup q) hc0 (fun r _ => ?_) ?_
        · rw [hsibling', hsibling]
        · rw [hsibling', hsibling, if_neg hcp, hsc]
    · rw [if_neg fun hn => hq hn.2, Function.update_of_ne hq]
      refine (h.chained q).congr fun r hr => ?_
      rw [hsibling', hsibling, if_neg fun hl => hq (h.eq_of_mem hr (List.mem_of_getLast? hl))]
  · rw [contains_modify, hsame.contains_eq]
    rcases mem_update hr with hr | ⟨-, rfl⟩
    · exact h.contains q r hr
    · exact hc
  · rw [NodeTable.parent, hnode]
    rcases mem_update hr with hr | ⟨rfl, rfl⟩
    · rw [if_neg fun he : r = c => hfree q (he ▸ hr)]
      exact (hsame.parent_eq r).trans (h.parent q r hr)
    · rw [if_pos rfl]
  · by_cases hq : q = p
    · subst hq
      rw [Function.update_self]
      exact List.nodup_append_comm.mp (List.nodup_cons.mpr ⟨hfree q, h.nodup q⟩)
    · rw [Function.update_of_ne hq]
      exact h.nodup q
  · rw [hnode]
    have hn := hsame.unlinked q
    split
    · rename_i hq
      subst hq
      exact congrArg (fun n : Node => { n with parent := p }) hn
    · exact hn

/-- **A child that is added** comes behind the other children. -/
theorem Linked.addChild (h : t.Linked kids) (hp : t.contains p) {n : Node} (hc : n.child = 0)
    (hs : n.sibling = 0) :
    (t.addChild p n).2.Linked (Function.update kids p (kids p ++ [t.size + 1])) ∧
      ∀ q : Nat, ((t.addChild p n).2.node q).unlinked =
        if q = t.size + 1 then { n with parent := p }.unlinked else (t.node q).unlinked := by
  have hfree : ∀ q : Nat, t.size + 1 ∉ kids q := by
    intro q hq
    have := (contains_iff.mp (h.contains q _ hq)).2
    omega
  have hsc : (t.add n).2.sibling (t.size + 1) = 0 := by rw [sibling, node_add, if_pos rfl, hs]
  obtain ⟨hl, hn⟩ := (h.add hc).append ((contains_add n p).mpr (.inr hp))
    ((contains_add n _).mpr (.inl rfl)) hfree hsc
  refine ⟨hl, fun q => ?_⟩
  have hq := hn q
  rw [node_add, node_add, if_pos rfl] at hq
  refine hq.trans ?_
  split <;> rfl

theorem sizeFile_append (t : NodeTable) (p c : Nat) :
    (t.append p c).size = t.size ∧ (t.append p c).file = t.file := by
  rw [append]
  split
  · exact ⟨rfl, rfl⟩
  · cases (t.children p).getLast? <;> simp

theorem sizeFile_addChild (t : NodeTable) (p : Nat) (n : Node) :
    (t.addChild p n).2.size = t.size + 1 ∧ (t.addChild p n).2.file = t.file := by
  obtain ⟨hs, hf⟩ := sizeFile_append (t.add n).2 p (t.add n).1
  exact ⟨hs.trans (by simp [add, size]), hf⟩

/-! ### Copies -/

/-- **What it means to put copies below a node**: trees stand there, behind what was there before,
and the table is as it was otherwise. -/
structure Grafted (t u : NodeTable) (p : Nat) (os : List (Outline Node)) : Prop where
  sound : u.Sound
  file : u.file = t.file
  gains : t.forest.Gains u.forest p os
  kept : ∀ q : Nat, t.contains q → (u.node q).unlinked = (t.node q).unlinked
  parent : ∀ q : Nat, t.size < q → q ≤ u.size → u.parent q = p ∨ Nat.lt t.size (u.parent q)

namespace Grafted

variable {os os' : List (Outline Node)}

theorem refl (h : t.Sound) (p : Nat) : t.Grafted t p [] :=
  ⟨h, rfl, .of_keeps (.refl _) p, fun _ _ => rfl,
    fun q hlo hhi => by omega⟩

theorem trans (h : t.Grafted u p os) (h' : u.Grafted v p os') (hp : t.contains p) :
    t.Grafted v p (os ++ os') := by
  have hsize : t.size ≤ u.size := h.gains.size_le
  have hcon : ∀ q : Nat, t.contains q → u.contains q := by
    intro q hq
    rw [contains_iff] at hq ⊢
    omega
  refine ⟨h'.sound, h'.file.trans h.file,
    h.gains.trans h'.gains (contains_iff.mp hp).2 h.sound.grounded, fun q hq => ?_,
    fun q hlo hhi => ?_⟩
  · rw [h'.kept q (hcon q hq), h.kept q hq]
  · by_cases hq : q ≤ u.size
    · have hk := h'.kept q (contains_iff.mpr ⟨by omega, hq⟩)
      rw [show v.parent q = u.parent q from congrArg (·.parent) hk]
      exact h.parent q hlo hq
    · rcases h'.parent q (by omega) hhi with hq | hq
      · exact .inl hq
      · exact .inr (Nat.lt_of_le_of_lt hsize hq)

/-- **A node with trees below it**: first the node is put below another, then the trees below the
node. -/
theorem node (ht : t.Sound) (hp : t.contains p) {n : Node} (hc : n.child = 0)
    (hs : n.sibling = 0) (h : (t.addChild p n).2.Grafted v (t.size + 1) os) :
    t.Grafted v p [.node n.content os] := by
  obtain ⟨hsize, hfile⟩ := sizeFile_addChild t p n
  obtain ⟨hl, hn⟩ := ht.linked.addChild hp hc hs
  generalize (t.addChild p n).2 = u at h hsize hfile hl hn
  have hold : ∀ q : Nat, t.contains q → (u.node q).unlinked = (t.node q).unlinked := by
    intro q hq
    have := (contains_iff.mp hq).2
    rw [hn, if_neg (by omega)]
  have hps := (contains_iff.mp hp).2
  refine ⟨h.sound, h.file.trans hfile, ?_, fun q hq => ?_, fun q hlo hhi => ?_⟩
  · refine @Forest.Gains.node _ t.forest u.forest _ _ _ _ _ hsize rfl ?_ ?_ ?_ ?_ ?_ hps h.gains
    · intro q hq0 hq
      exact Node.content_eq (hold q (contains_iff.mpr ⟨hq0, hq⟩))
    · have hnew := hn (t.size + 1)
      rw [if_pos rfl] at hnew
      have hp' : ({ n with parent := p } : Node).content = n.content := rfl
      exact hp' ▸ Node.content_eq hnew
    · intro q hq
      exact (hl.children_eq q).trans (Function.update_of_ne hq _ _)
    · exact (hl.children_eq p).trans (Function.update_self _ _ _)
    · exact ht.linked.kids_eq_nil fun hc => by
        have := (contains_iff.mp hc).2
        simp only [forest] at this
        omega
  · rw [h.kept q (by rw [contains_iff] at hq ⊢; omega), hold q hq]
  · by_cases hq : q = t.size + 1
    · subst hq
      have hk := h.kept (t.size + 1) (contains_iff.mpr ⟨by omega, by omega⟩)
      rw [show v.parent _ = u.parent _ from congrArg (·.parent) hk]
      have hnew := hn (t.size + 1)
      rw [if_pos rfl] at hnew
      exact .inl (congrArg (·.parent) hnew)
    · refine .inr ?_
      rcases h.parent q (by omega) hhi with hq | hq
      · rw [hq]
        exact Nat.lt_succ_self _
      · rw [hsize] at hq
        exact Nat.lt_of_succ_lt hq

/-- The table with a child added is sound. -/
theorem sound_addChild (ht : t.Sound) (hp : t.contains p) {n : Node} (hc : n.child = 0)
    (hs : n.sibling = 0) : (t.addChild p n).2.Sound := by
  obtain ⟨hsize, -⟩ := sizeFile_addChild t p n
  obtain ⟨hl, hn⟩ := ht.linked.addChild hp hc hs
  have hpar : ∀ q : Nat, (t.addChild p n).2.parent q = if q = t.size + 1 then p else t.parent
    q := by
    intro q
    refine (show _ = _ from congrArg (·.parent) (hn q)).trans ?_
    split <;> rfl
  have hold : ∀ q : Nat, (t.addChild p n).2.contains q → q ≠ t.size + 1 → t.contains q := by
    intro q hq hne
    obtain ⟨h0, hle⟩ := contains_iff.mp hq
    exact contains_iff.mpr ⟨h0, by omega⟩
  refine ⟨hl.children, fun q hq => ?_, fun q hq h0 => ?_⟩
  · rw [hpar]
    split
    · rename_i he
      exact he ▸ Nat.lt_succ_of_le (contains_iff.mp hp).2
    · exact ht.parent_lt q (hold q hq ‹_›)
  · rw [hpar] at h0 ⊢
    rw [hl.children_eq]
    split
    · rename_i he
      rw [Function.update_self, he]
      exact List.mem_append_right _ (List.mem_singleton_self _)
    · rename_i hne
      rw [if_neg hne] at h0
      have hmem := ht.reached q (hold q hq hne) h0
      by_cases hqp : t.parent q = p
      · rw [hqp] at hmem ⊢
        rw [Function.update_self]
        exact List.mem_append_left _ hmem
      · rwa [Function.update_of_ne hqp]

end Grafted

/-- **A copy shows what the descent shows**, and is put below the node it is made for. -/
theorem grafted_graftWithin (source : NodeTable) (depth : Nat) :
    ∀ (id p : Nat) {t : NodeTable}, t.Sound → t.contains p →
      t.Grafted (source.graftWithin depth id p t) p (source.outlineWithin depth id) := by
  induction depth with
  | zero => exact fun id p t ht _ => .refl ht p
  | succ depth ih =>
    -- The copies of some siblings are made one after the other.
    have many : ∀ (ids : List Nat) (p : Nat) {t : NodeTable}, t.Sound → t.contains p →
        t.Grafted (ids.foldl (fun t child => source.graftWithin depth child p t) t) p
          (ids.flatMap (source.outlineWithin depth)) := by
      intro ids p
      induction ids with
      | nil => exact fun ht _ => .refl ht p
      | cons id ids ihs =>
        intro t ht hp
        have h := ih id p ht hp
        have hsize : t.size ≤ _ := h.gains.size_le
        have hp' := contains_iff.mp hp
        exact h.trans (ihs h.sound (contains_iff.mpr ⟨hp'.1, hp'.2.trans hsize⟩)) hp
    intro id p t ht hp
    let copy : Node := { source.node id with
      file := source.fileOf id, parent := 0, child := 0, sibling := 0 }
    have hsound := Grafted.sound_addChild ht hp (n := copy) rfl rfl
    refine Grafted.node (n := copy) ht hp rfl rfl (many (source.children id) _ hsound ?_)
    exact contains_iff.mpr ⟨Nat.succ_pos _, (sizeFile_addChild t p _).1.ge⟩

theorem grafted_graft (source : NodeTable) (id : Nat) (ht : t.Sound) (hp : t.contains p) :
    t.Grafted (t.graft source id p) p (source.outlineWithin (source.size + 1) id) :=
  grafted_graftWithin source _ id p ht hp

end NodeTable

/-! ### Adding to a table

Preprocessing only adds nodes to its table, and links them and leads them to definitions later. A
node that is there keeps its name, its kind and its range (`NodeTable.Extends`), so what was read
off it before holds at the end.
-/

/-- A node without its links to others and to what defines it. -/
def Node.bare (n : Node) : Node := { n with parent := 0, definition := 0, child := 0, sibling := 0 }

namespace NodeTable

variable {t u v : NodeTable}

/-- **What it means to add to a table**: its nodes stay what they are, though they may be linked and
led to definitions. -/
structure Extends (t u : NodeTable) : Prop where
  size : t.size ≤ u.size
  node : ∀ q : Nat, t.contains q → (u.node q).bare = (t.node q).bare

namespace Extends

theorem refl (t : NodeTable) : t.Extends t := ⟨Nat.le_refl _, fun _ _ => rfl⟩

theorem contains (h : t.Extends u) {q : Nat} (hq : t.contains q) : u.contains q := by
  obtain ⟨hpos, hle⟩ := contains_iff.mp hq
  exact contains_iff.mpr ⟨hpos, Nat.le_trans hle h.size⟩

theorem trans (h : t.Extends u) (h' : u.Extends v) : t.Extends v :=
  ⟨Nat.le_trans h.size h'.size, fun q hq => (h'.node q (h.contains hq)).trans (h.node q hq)⟩

theorem kind (h : t.Extends u) {q : Nat} (hq : t.contains q) :
    (u.node q).kind = (t.node q).kind := by
  have := congrArg Node.kind (h.node q hq)
  exact this

theorem endColumn (h : t.Extends u) {q : Nat} (hq : t.contains q) :
    (u.node q).endColumn = (t.node q).endColumn := by
  have := congrArg Node.endColumn (h.node q hq)
  exact this

theorem modify (t : NodeTable) (id : Nat) {f : Node → Node} (hf : ∀ n, (f n).bare = n.bare) :
    t.Extends (t.modify id f) := by
  refine ⟨Nat.le_of_eq (size_modify f).symm, fun q _ => ?_⟩
  rw [node_modify]
  split
  · exact hf _
  · rfl

theorem add (t : NodeTable) (n : Node) : t.Extends (t.add n).2 := by
  refine ⟨by simp [NodeTable.add, NodeTable.size], fun q hq => ?_⟩
  rw [node_add, if_neg]
  have := (contains_iff.mp hq).2
  omega

theorem append (t : NodeTable) (p c : Nat) : t.Extends (t.append p c) := by
  rw [NodeTable.append]
  split
  · exact .refl t
  · refine trans ?_ (modify _ c fun _ => rfl)
    cases (t.children p).getLast? with
    | some last => exact modify t last fun _ => rfl
    | none => exact modify t p fun _ => rfl

theorem addChild (t : NodeTable) (p : Nat) (n : Node) : t.Extends (t.addChild p n).2 :=
  (add t n).trans (append _ _ _)

end Extends

/-- A child that is added is the last node, and is what it was meant to be. -/
theorem bare_addChild (t : NodeTable) (p : Nat) (n : Node) :
    (t.addChild p n).1 = t.size + 1 ∧
      ((t.addChild p n).2.node (t.size + 1)).bare = n.bare := by
  refine ⟨rfl, ?_⟩
  have hadd : (t.add n).2.contains (t.size + 1) = true := (contains_add n _).mpr (.inl rfl)
  have hnode := (Extends.append (t.add n).2 p (t.add n).1).node _ hadd
  rw [node_add, if_pos rfl] at hnode
  exact hnode

/-! ### Design elements -/

theorem elements_modify (t : NodeTable) (id : NodeId) (f : Node → Node) :
    (t.modify id f).elements = t.elements := by
  cases id <;> rfl

theorem elements_append (t : NodeTable) (parent child : NodeId) :
    (t.append parent child).elements = t.elements := by
  rw [append]
  split
  · rfl
  · rw [elements_modify]
    split <;> rw [elements_modify]

theorem elements_addChild (t : NodeTable) (parent : NodeId) (n : Node) :
    (t.addChild parent n).2.elements = t.elements := elements_append _ parent _

end NodeTable

end Verilog
