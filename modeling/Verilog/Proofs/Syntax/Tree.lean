import Verilog.Node.Query
import Verilog.Proofs.Syntax.Linking
import Verilog.Syntax.File

/-!
# The syntax tree of a marked text

The nodes that have been made are linked, led back to the sources and given copies of directives.
None of this changes the shape: a stable sort leaves nodes in the order of their numbers that stand
in it already, leading back changes places only, and copies go below marks, which are no part of
the shape. So the syntax tree is, without comments, blanks and marks, the outline of the parse tree,
and its own comments, blanks and marks are those of the text (`syntaxTree_faithful`).
-/

namespace Verilog

open NodeTable

namespace NodeTable

variable {t u v : NodeTable}

/-- A table as a forest of the nodes that give it its shape, by kind and name. -/
def skeleton (t : NodeTable) : Forest (NodeKind × Option String) :=
  ⟨t.size, fun id => (t.kind id, t.name id), t.shape⟩

/-- The comments, blanks and marks of the tree itself, not of a directive copied into it, in the
order of their numbers. -/
def ownTrivia (t : NodeTable) : List Nat :=
  t.ids.filter fun id => (t.kind id).isTrivia && t.ancestorOf id [.slPreprocBegin] == 0

/-! ### Linking -/

/-- **Sorting siblings by place keeps the order of those that stand in it.** -/
theorem shape_sortedFamily (p : Nat)
    (hs : ∀ q r : Nat, t.contains q → t.contains r → q ≤ r → (t.kind q).isTrivia = false →
      (t.kind r).isTrivia = false → NoLater (t.begins q) (t.begins r)) :
    (t.sortedFamily p).filter (fun id => !(t.kind id).isTrivia) = t.shapeForest.below p := by
  have hbelow : t.shapeForest.below p =
      (t.ids.filter fun id => t.parent id = p).filter fun id => !(t.kind id).isTrivia := by
    rw [List.filter_filter]
    refine List.filter_congr fun q _ => ?_
    rw [Bool.and_comm]
  have hsorted : t.Ascending (t.shapeForest.below p) := by
    refine List.Pairwise.imp_of_mem ?_ (t.pairwise_ids.sublist List.filter_sublist)
    intro a b ha hb hab
    obtain ⟨ha, hka⟩ := List.mem_filter.mp ha
    obtain ⟨hb, hkb⟩ := List.mem_filter.mp hb
    refine hs a b (mem_ids.mp ha) (mem_ids.mp hb) (Nat.le_of_lt hab) ?_ ?_
    · simpa using (Bool.and_eq_true_iff.mp hka).2
    · simpa using (Bool.and_eq_true_iff.mp hkb).2
  have hsub : (t.shapeForest.below p).Sublist (t.sortedFamily p) := by
    refine hsorted.sublist_mergeSort ?_
    rw [hbelow]
    exact List.filter_sublist
  have hfilter := hsub.filter fun id => !(t.kind id).isTrivia
  have hself : (t.shapeForest.below p).filter (fun id => !(t.kind id).isTrivia) =
      t.shapeForest.below p := by
    rw [hbelow, List.filter_filter]
    simp only [Bool.and_self]
  rw [hself] at hfilter
  refine (hfilter.eq_of_length ?_).symm
  rw [hbelow]
  exact ((List.mergeSort_perm _ _).filter _).length_eq.symm

/-! ### Leading back to the sources -/

theorem node_mapPlaces (m : LocationMapper) {q : Nat} (hq : t.contains q) :
    (t.mapPlaces m).node q = m.mapNode (t.node q) := by
  obtain ⟨h0, hs⟩ := contains_iff.mp hq
  obtain ⟨i, rfl⟩ : ∃ i, q = i + 1 := ⟨q - 1, by omega⟩
  have hi : i < t.nodes.size := hs
  simp [node, mapPlaces, hi]

theorem size_mapPlaces (t : NodeTable) (m : LocationMapper) : (t.mapPlaces m).size = t.size := by
  simp [size, mapPlaces]

theorem contains_mapPlaces (t : NodeTable) (m : LocationMapper) (q : Nat) :
    (t.mapPlaces m).contains q = t.contains q := by
  simp [contains, size_mapPlaces]

/-- Leading back changes files and places alone. -/
theorem fields_mapPlaces (t : NodeTable) (m : LocationMapper) (q : Nat) :
    (t.mapPlaces m).kind q = t.kind q ∧ (t.mapPlaces m).name q = t.name q ∧
      (t.mapPlaces m).parent q = t.parent q ∧ (t.mapPlaces m).child q = t.child q ∧
      (t.mapPlaces m).sibling q = t.sibling q ∧
      ((t.mapPlaces m).node q).definition = (t.node q).definition := by
  simp only [kind, name, parent, child, sibling]
  by_cases hq : t.contains q
  · rw [node_mapPlaces m hq]
    exact ⟨rfl, rfl, rfl, rfl, rfl, rfl⟩
  · rw [node_of_not_contains hq, node_of_not_contains (by rwa [contains_mapPlaces])]
    exact ⟨rfl, rfl, rfl, rfl, rfl, rfl⟩

theorem linked_mapPlaces {kids : Nat → List Nat} (h : t.Linked kids) (m : LocationMapper) :
    (t.mapPlaces m).Linked kids :=
  h.congr (size_mapPlaces t m) (fun q => (fields_mapPlaces t m q).2.2.2.1)
    (fun q => (fields_mapPlaces t m q).2.2.2.2.1) fun q => (fields_mapPlaces t m q).2.2.1

/-! ### Copies of directives -/

/-- **Copies below several nodes**: below each stands its own, and the table is as it was
otherwise. -/
theorem graft_foldl (source : NodeTable) (f : Nat → Nat) (bs : List Nat) :
    ∀ {t : NodeTable}, t.Sound → (∀ b ∈ bs, t.contains b) → bs.Nodup →
      let v := bs.foldl (fun u b => u.graft source (f b) b) t
      v.Sound ∧ t.size ≤ v.size ∧
      (∀ q : Nat, t.contains q → (v.node q).unlinked = (t.node q).unlinked) ∧
      (∀ q : Nat, t.contains q → q ∉ bs → v.children q = t.children q) ∧
      (∀ b ∈ bs, ∃ tops, v.children b = t.children b ++ tops ∧
        Outline.AllAt v.forest (source.outlineWithin (source.size + 1) (f b)) tops) ∧
      ∀ q : Nat, t.size < q → q ≤ v.size → v.parent q ∈ bs ∨ Nat.lt t.size (v.parent q) := by
  induction bs with
  | nil =>
    exact fun ht _ _ => ⟨ht, Nat.le_refl _, fun _ _ => rfl, fun _ _ _ => rfl, by simp,
      fun q hlo hhi => absurd hhi (Nat.not_le_of_lt hlo)⟩
  | cons b bs ih =>
    intro t ht hbs hn
    obtain ⟨hb, hn⟩ := List.nodup_cons.mp hn
    have hcb := hbs b (by simp)
    have h := grafted_graft source (f b) ht hcb
    generalize hu : t.graft source (f b) b = u at h
    have hsize : t.size ≤ u.size := h.gains.size_le
    have hcon : ∀ q : Nat, t.contains q → u.contains q := fun q hq =>
      contains_iff.mpr ⟨(contains_iff.mp hq).1, Nat.le_trans (contains_iff.mp hq).2 hsize⟩
    obtain ⟨hv, hsize', hkept, hsame, hcopies, hparent⟩ :=
      ih h.sound (fun c hc => hcon c (hbs c (by simp [hc]))) hn
    rw [List.foldl_cons, hu]
    generalize bs.foldl (fun u b => u.graft source (f b) b) u = v at *
    refine ⟨hv, Nat.le_trans hsize hsize', ?_, ?_, ?_, ?_⟩
    · exact fun q hq => (hkept q (hcon q hq)).trans (h.kept q hq)
    · intro q hq hqb
      rw [List.mem_cons, not_or] at hqb
      exact (hsame q (hcon q hq) hqb.2).trans
        (h.gains.below_eq q (contains_iff.mp hq).2 hqb.1)
    · intro c hc
      rcases List.mem_cons.mp hc with rfl | hc
      · obtain ⟨tops, he, hnew, hat⟩ := h.gains.tops
        refine ⟨tops, (hsame c (hcon c hcb) hb).trans he, ?_⟩
        -- The later copies go below nodes of `t`, so none goes below a node of this one.
        refine Outline.AllAt.congr (S := fun q => t.size < q ∧ q ≤ u.size) ?_ ?_ ?_ ?_ hat
        · exact fun q ⟨hlo, hhi⟩ => Node.content_eq (hkept q (contains_iff.mpr ⟨by omega, hhi⟩))
        · refine fun q ⟨hlo, hhi⟩ => hsame q (contains_iff.mpr ⟨by omega, hhi⟩) fun hmem => ?_
          have := (contains_iff.mp (hbs q (by simp [hmem]))).2
          omega
        · exact fun q ⟨hlo, _⟩ r hr =>
            ⟨hlo.trans (h.sound.grounded q r hr).1, (h.sound.grounded q r hr).2⟩
        · exact fun q hq => ⟨hnew q hq, (h.sound.grounded c q (he ▸ List.mem_append_right _ hq)).2⟩
      · obtain ⟨tops, he, hat⟩ := hcopies c hc
        have hcb' := hbs c (by simp [hc])
        refine ⟨tops, he.trans (congrArg (· ++ tops) ?_), hat⟩
        exact h.gains.below_eq c (contains_iff.mp hcb').2 fun hcb => hb (hcb ▸ hc)
    · intro q hlo hhi
      by_cases hq : q ≤ u.size
      · have hpar := congrArg (·.parent) (hkept q (contains_iff.mpr ⟨by omega, hq⟩))
        rw [show v.parent q = u.parent q from hpar]
        exact (h.parent q hlo hq).imp (fun he => by simp [he]) id
      · refine (hparent q (by omega) hhi).imp (fun hm => by simp [hm]) fun hl => ?_
        exact Nat.lt_of_le_of_lt hsize hl

/-- **The copies of directives**: each opening mark has its own below it. -/
theorem graftDirectives_spec (directives : NodeTable) (ht : t.Sound) :
    let v := t.graftDirectives directives
    v.Sound ∧ t.size ≤ v.size ∧
      (∀ q : Nat, t.contains q → (v.node q).unlinked = (t.node q).unlinked) ∧
      (∀ q : Nat, t.contains q → t.kind q ≠ .slPreprocBegin → v.children q = t.children q) ∧
      (∀ q : Nat, t.contains q → t.kind q = .slPreprocBegin → ∃ tops,
        v.children q = t.children q ++ tops ∧ Outline.AllAt v.forest
          (directives.outlineWithin (directives.size + 1) (t.node q).definition) tops) ∧
      ∀ q : Nat, t.size < q → q ≤ v.size →
        t.contains (v.parent q) ∧ t.kind (v.parent q) = .slPreprocBegin ∨
          Nat.lt t.size (v.parent q) := by
  have hmem : ∀ q : Nat, q ∈ t.ids.filter (fun id => t.kind id == .slPreprocBegin) ↔
      t.contains q ∧ t.kind q = .slPreprocBegin := by
    intro q
    rw [List.mem_filter, mem_ids, beq_iff_eq]
  obtain ⟨hv, hsize, hkept, hsame, hcopies, hparent⟩ :=
    graft_foldl directives (fun id => (t.node id).definition)
      (t.ids.filter fun id => t.kind id == .slPreprocBegin) ht (fun b hb => ((hmem b).mp hb).1)
      (List.Nodup.filter _ (t.pairwise_ids.imp Nat.ne_of_lt))
  refine ⟨hv, hsize, hkept, fun q hq hk => hsame q hq fun hm => hk ((hmem q).mp hm).2,
    fun q hq hk => hcopies q ((hmem q).mpr ⟨hq, hk⟩), fun q hlo hhi => ?_⟩
  exact (hparent q hlo hhi).imp (fun hm => (hmem _).mp hm) id

end NodeTable

/-! ### The syntax tree -/

/-- **What it means that a table is the syntax tree** of a marked text with a parse tree. -/
structure IsSyntaxTree (s : GrowthSource) (m : LocationMapper) (tree : ParseTree)
    (t : NodeTable) : Prop where
  /-- Every node but the root is among the children of its parent and comes after it. -/
  connected : ∀ id : Nat, t.contains id → id ≠ t.root →
    id ∈ t.children (t.parent id) ∧ Nat.lt (t.parent id) id
  /-- Without comments, blanks and marks, the table is the outline of the parse tree. -/
  shape : ∀ production, Outline.AllAt t.skeleton
    (ParseTree.outline s.marked.tokens production tree) [t.root]
  /-- The comments, blanks and marks outside of copies are those of the text: one for each token
  that is to be kept, in the order of the tokens. -/
  hidden : List.Forall₂ (fun i id => ∃ token kind, s.marked.tokens[i]? = some token ∧
      triviaKind? s.keepBlanks token.kind = some kind ∧
      (t.node id).unlinked = (m.mapNode (s.hiddenNode i token kind (t.parent id))).unlinked)
    (s.keptBefore s.marked.tokens.size) t.ownTrivia
  /-- The node of a closing mark stands below the parent of that of its opening mark. -/
  closing : ∀ j b, (j, b) ∈ (s.keptBefore s.marked.tokens.size).zip t.ownTrivia →
    ∀ token, s.marked.tokens[j]? = some token → token.kind = .preprocEnd →
    ∃ i more node a, s.marked.opened j = i :: more ∧
      readEndMark? token.text.toList = some node ∧ s.marked.mark? i = some node ∧
      (i, a) ∈ (s.keptBefore s.marked.tokens.size).zip t.ownTrivia ∧ t.parent a = t.parent b
  /-- Below the node of an opening mark stands one copy of the directive it belongs to. -/
  copies : ∀ i a, (i, a) ∈ (s.keptBefore s.marked.tokens.size).zip t.ownTrivia →
    ∀ token, s.marked.tokens[i]? = some token → token.kind = .preprocBegin →
    ∃ node copy o, s.marked.mark? i = some node ∧ t.children a = [copy] ∧
      s.marked.text.nodes.outlineWithin (s.marked.text.nodes.size + 1) node = [o] ∧
      o.At t.forest copy

namespace NodeTable

/-- The table `t` has the nodes of another, linked in the order in which they start, and each led
back to its place. -/
structure Places (m : LocationMapper) (grown t : NodeTable) : Prop where
  sound : t.Sound
  size : t.size = grown.size
  children : ∀ p : Nat, p ≠ 0 → t.children p = grown.sortedFamily p
  node : ∀ q : Nat, grown.contains q →
    (t.node q).unlinked = (m.mapNode (grown.node q)).unlinked

/-- **Linking and leading back** makes a sound table, in which a node is what it was but for its
links and its place. -/
theorem places_linked {s : GrowthSource} {g : Growth} {rows : List (Nat × Nat)}
    (h : g.Going s rows) (ha : g.Arranged s) (m : LocationMapper) :
    Places m (g.table s) ((g.linked s).mapPlaces m) := by
  obtain ⟨hsame, hlinked⟩ := ha
  have hl := linked_mapPlaces hlinked m
  have hpar : ∀ q : Nat, ((g.linked s).mapPlaces m).parent q = (g.table s).parent q :=
    fun q => (fields_mapPlaces _ m q).2.2.1.trans (hsame.parent_eq q)
  have hcon : ∀ q : Nat, ((g.linked s).mapPlaces m).contains q = (g.table s).contains q :=
    fun q => (contains_mapPlaces _ m q).trans (hsame.contains_eq q)
  refine ⟨⟨hl.children, fun q hq => ?_, fun q hq h0 => ?_⟩, ?_, fun p hp => ?_, fun q hq => ?_⟩
  · rw [hpar]
    exact h.parent_lt q (hcon q ▸ hq)
  · rw [hl.children_eq, hpar, if_neg (hpar q ▸ h0)]
    exact mem_sortedFamily.mpr ⟨hcon q ▸ hq, rfl⟩
  · exact (size_mapPlaces _ m).trans hsame.size
  · rw [hl.children_eq, if_neg hp]
  · rw [node_mapPlaces m (by rwa [hsame.contains_eq])]
    have hmap : ∀ n, (m.mapNode n).unlinked = (m.mapNode n.unlinked).unlinked := fun n => rfl
    rw [hmap, hsame.unlinked q, ← hmap]

/-- **What is known of a finished table**: the nodes that were made for the text keep their
numbers, opening marks have copies below them, and what has a greater number is part of a copy. -/
structure Finished (m : LocationMapper) (directives grown v : NodeTable) : Prop where
  sound : v.Sound
  size_le : grown.size ≤ v.size
  node : ∀ q : Nat, grown.contains q → (v.node q).unlinked = (m.mapNode (grown.node q)).unlinked
  children : ∀ q : Nat, grown.contains q → grown.kind q ≠ .slPreprocBegin →
    v.children q = grown.sortedFamily q
  copies : ∀ q : Nat, grown.contains q → grown.kind q = .slPreprocBegin → ∃ tops,
    v.children q = grown.sortedFamily q ++ tops ∧ Outline.AllAt v.forest
      (directives.outlineWithin (directives.size + 1) (grown.node q).definition) tops
  parent : ∀ q : Nat, grown.size < q → q ≤ v.size →
    grown.contains (v.parent q) ∧ grown.kind (v.parent q) = .slPreprocBegin ∨
      Nat.lt grown.size (v.parent q)

theorem Places.finished {m : LocationMapper} {grown : NodeTable} (h : Places m grown t)
    (directives : NodeTable) : Finished m directives grown (t.graftDirectives directives) := by
  obtain ⟨hv, hsize, hkept, hsame, hcopies, hparent⟩ := graftDirectives_spec directives h.sound
  have hcon : ∀ q, t.contains q = grown.contains q := fun q => by simp [contains, h.size]
  have hkind : ∀ q : Nat, grown.contains q → t.kind q = grown.kind q :=
    fun q hq => congrArg (·.kind) (h.node q hq)
  have hne : ∀ q : Nat, grown.contains q → q ≠ 0 :=
    fun q hq => Nat.pos_iff_ne_zero.mp (contains_iff.mp hq).1
  refine ⟨hv, h.size ▸ hsize, fun q hq => ?_, fun q hq hk => ?_, fun q hq hk => ?_,
    fun q hlo hhi => ?_⟩
  · exact (hkept q (hcon q ▸ hq)).trans (h.node q hq)
  · exact (hsame q (hcon q ▸ hq) (hkind q hq ▸ hk)).trans (h.children q (hne q hq))
  · obtain ⟨tops, he, hat⟩ := hcopies q (hcon q ▸ hq) (hkind q hq ▸ hk)
    have hdef : (t.node q).definition = (grown.node q).definition :=
      congrArg (·.definition) (h.node q hq)
    exact ⟨tops, h.children q (hne q hq) ▸ he, hdef ▸ hat⟩
  · rcases hparent q (h.size ▸ hlo) hhi with ⟨hc, hk⟩ | hl
    · rw [hcon] at hc
      exact .inl ⟨hc, hkind _ hc ▸ hk⟩
    · exact .inr (h.size ▸ hl)

namespace Finished

variable {s : GrowthSource} {g : Growth} {rows : List (Nat × Nat)} {m : LocationMapper}
  {directives : NodeTable} (h : Finished m directives (g.table s) v) (hg : g.Going s rows)

include h

theorem fields {q : Nat} (hq : (g.table s).contains q) :
    v.kind q = (g.table s).kind q ∧ v.name q = (g.table s).name q ∧
      v.parent q = (g.table s).parent q :=
  ⟨congrArg (·.kind) (h.node q hq), congrArg (·.name) (h.node q hq),
    congrArg (·.parent) (h.node q hq)⟩

theorem contains {q : Nat} (hq : (g.table s).contains q) : v.contains q :=
  contains_iff.mpr ⟨(contains_iff.mp hq).1, (contains_iff.mp hq).2.trans h.size_le⟩

include hg

theorem connected {q : Nat} (hq : v.contains q) (h1 : q ≠ 1) :
    q ∈ v.children (v.parent q) ∧ Nat.lt (v.parent q) q := by
  refine ⟨h.sound.reached q hq ?_, h.sound.parent_lt q hq⟩
  by_cases hgq : (g.table s).contains q
  · rw [(h.fields hgq).2.2]
    exact hg.parent_pos q hgq h1
  · have hlo : (g.table s).size < q := by
      rw [contains_iff] at hq hgq
      omega
    rcases h.parent q hlo (contains_iff.mp hq).2 with ⟨hc, -⟩ | hl
    · exact Nat.pos_iff_ne_zero.mp (contains_iff.mp hc).1
    · exact Nat.pos_iff_ne_zero.mp (Nat.zero_lt_of_lt hl)

theorem root_eq : v.root = Growth.rootId := by
  have hsize := (contains_iff.mp (h.contains hg.root.1)).2
  rw [root, if_neg]
  · rfl
  · intro hempty
    rw [size, Array.isEmpty_iff.mp hempty] at hsize
    contradiction

/-- Where nothing but comments, blanks and marks is left out, the shape is that of the nodes that
were made. -/
theorem shape_eq {q : Nat} (hq : (g.table s).contains q)
    (hk : ((g.table s).kind q).isTrivia = false) :
    v.shape q = (g.table s).shapeForest.below q := by
  have hne : (g.table s).kind q ≠ .slPreprocBegin := by
    rintro he
    rw [he] at hk
    contradiction
  rw [shape, h.children q hq hne, ← shape_sortedFamily q hg.sorted]
  refine List.filter_congr fun r hr => ?_
  rw [(h.fields (mem_sortedFamily.mp hr).1).1]

theorem outline_at {os : List (Outline (NodeKind × Option String))} {ids : List Nat}
    (hids : ∀ q ∈ ids, (g.table s).contains q ∧ ((g.table s).kind q).isTrivia = false)
    (hat : Outline.AllAt (g.table s).shapeForest os ids) : Outline.AllAt v.skeleton os ids := by
  refine Outline.AllAt.congr
    (S := fun q => (g.table s).contains q ∧ ((g.table s).kind q).isTrivia = false)
    ?_ ?_ ?_ hids hat
  · intro q hq
    obtain ⟨hk, hn, -⟩ := h.fields hq.1
    exact Prod.ext hk hn
  · exact fun q hq => h.shape_eq hg hq.1 hq.2
  · intro q _ r hr
    obtain ⟨hr, hk⟩ := List.mem_filter.mp hr
    exact ⟨mem_ids.mp hr, by simpa using (Bool.and_eq_true_iff.mp hk).2⟩

/-! ### What is part of a copy -/

/-- Only nodes that give the shape are above the nodes that were made for the text. -/
theorem ancestorOf_eq_zero {q : Nat} (hq : (g.table s).contains q) :
    v.ancestorOf q [.slPreprocBegin] = 0 := by
  have hup : ∀ (fuel q : Nat), (g.table s).contains q → ∀ up ∈ v.ancestorsWithin fuel q,
      (v.kind up).isTrivia = false := by
    intro fuel
    induction fuel with
    | zero => simp [ancestorsWithin]
    | succ fuel ih =>
      intro q hq up hup
      rw [ancestorsWithin] at hup
      split at hup
      · simp at hup
      · rename_i h0
        rw [(h.fields hq).2.2] at hup h0
        have hc : (g.table s).contains ((g.table s).parent q) :=
          contains_iff.mpr ⟨Nat.pos_of_ne_zero h0,
            Nat.le_of_lt (Nat.lt_of_lt_of_le (hg.parent_lt q hq) (contains_iff.mp hq).2)⟩
        rcases List.mem_cons.mp hup with rfl | hup
        · rw [(h.fields hc).1]
          exact hg.parent_shape q hq
        · exact ih _ hc up hup
  rw [ancestorOf, List.find?_eq_none.mpr fun up hmem => ?_]
  · rfl
  · have := hup _ q hq up hmem
    intro hk
    rw [List.contains_iff_mem, List.mem_singleton] at hk
    rw [hk] at this
    contradiction

omit hg in
/-- A node that was not made for the text is below an opening mark. -/
theorem ancestorOf_ne_zero {q : Nat} (hlo : (g.table s).size < q) (hq : q ≤ v.size) :
    v.ancestorOf q [.slPreprocBegin] ≠ 0 := by
  -- parents come before their children, so going up from a copy leaves the copies in the end
  have hup : ∀ (fuel q : Nat), (g.table s).size < q → q ≤ v.size → q ≤ fuel →
      ∃ up ∈ v.ancestorsWithin fuel q, v.kind up = .slPreprocBegin := by
    intro fuel
    induction fuel with
    | zero => intro q hlo _ hf; omega
    | succ fuel ih =>
      intro q hlo hq hf
      have hlt := h.sound.parent_lt q (contains_iff.mpr ⟨by omega, hq⟩)
      rw [ancestorsWithin]
      rcases h.parent q hlo hq with ⟨hc, hk⟩ | hl
      · rw [if_neg (Nat.pos_iff_ne_zero.mp (contains_iff.mp hc).1)]
        exact ⟨v.parent q, by simp, (h.fields hc).1.trans hk⟩
      · rw [if_neg (Nat.pos_iff_ne_zero.mp (Nat.zero_lt_of_lt hl))]
        obtain ⟨up, hup, hk⟩ := ih (v.parent q) hl (Nat.le_trans (Nat.le_of_lt hlt) hq)
          (Nat.le_of_lt_succ (Nat.lt_of_lt_of_le hlt hf))
        exact ⟨up, by simp [hup], hk⟩
  have hzero : ∀ (fuel q : Nat), ∀ up ∈ v.ancestorsWithin fuel q, up ≠ 0 := by
    intro fuel
    induction fuel with
    | zero => simp [ancestorsWithin]
    | succ fuel ih =>
      intro q up hup
      rw [ancestorsWithin] at hup
      split at hup
      · simp at hup
      · rename_i h0
        rcases List.mem_cons.mp hup with rfl | hup
        · exact h0
        · exact ih _ up hup
  obtain ⟨up, hmem, hk⟩ := hup (v.size + 1) q hlo hq (by omega)
  rw [ancestorOf]
  cases hf : (v.ancestorsWithin (v.size + 1) q).find? fun up =>
      [NodeKind.slPreprocBegin].contains (v.kind up) with
  | none =>
    have := List.find?_eq_none.mp hf up hmem
    simp [hk] at this
  | some x => exact hzero _ _ x (List.mem_of_find?_eq_some hf)

/-- **The comments, blanks and marks of the tree itself** are those that were made for the text. -/
theorem ownTrivia_eq : v.ownTrivia = (g.table s).triviaIds := by
  obtain ⟨k, hk⟩ := Nat.exists_eq_add_of_le h.size_le
  have hids : v.ids = (g.table s).ids ++ (List.range k).map ((g.table s).size + · + 1) := by
    simp [ids, hk, List.range_add, Function.comp_def]
  rw [ownTrivia, hids, List.filter_append, triviaIds]
  have hnone : ((List.range k).map ((g.table s).size + · + 1)).filter (fun id =>
      (v.kind id).isTrivia && v.ancestorOf id [.slPreprocBegin] == 0) = [] := by
    refine List.filter_eq_nil_iff.mpr fun q hq => ?_
    obtain ⟨j, hj, rfl⟩ := List.mem_map.mp hq
    have hj := List.mem_range.mp hj
    have hne := h.ancestorOf_ne_zero (q := (g.table s).size + j + 1) (by omega) (by omega)
    simp [hne]
  rw [hnone, List.append_nil]
  refine List.filter_congr fun q hq => ?_
  have hc := mem_ids.mp hq
  rw [h.ancestorOf_eq_zero hg hc, (h.fields hc).1]
  simp

omit h in
/-- An opening mark has nothing but copies below it. -/
theorem sortedFamily_begin {q : Nat} (hk : ((g.table s).kind q).isTrivia = true) :
    (g.table s).sortedFamily q = [] := by
  refine List.eq_nil_iff_forall_not_mem.mpr fun r hr => ?_
  obtain ⟨hc, rfl⟩ := mem_sortedFamily.mp hr
  rw [hg.parent_shape r hc] at hk
  contradiction

variable {text : PreprocessedText} (hm : MarkedText.ofText text = .ok s.marked)
  (hnext : g.next = s.marked.tokens.size)

include hnext

/-- The rows of the invariant are the tokens to be kept and the nodes that show them. -/
theorem rows_eq : rows = (s.keptBefore s.marked.tokens.size).zip v.ownTrivia :=
  List.zip_of_prod (hnext ▸ hg.kept) (hg.trivia.trans (h.ownTrivia_eq hg).symm)

theorem hidden :
    List.Forall₂ (fun i id => ∃ token kind, s.marked.tokens[i]? = some token ∧
      triviaKind? s.keepBlanks token.kind = some kind ∧
      (v.node id).unlinked = (m.mapNode (s.hiddenNode i token kind (v.parent id))).unlinked)
    (s.keptBefore s.marked.tokens.size) v.ownTrivia := by
  rw [h.ownTrivia_eq hg, ← hnext, ← hg.kept, ← hg.trivia, List.forall₂_map_left_iff,
    List.forall₂_map_right_iff, List.forall₂_same]
  intro row hr
  obtain ⟨token, kind, ht, hk, hn⟩ := hg.shows row hr
  have hc := hg.contains_row hr
  refine ⟨token, kind, ht, hk, ?_⟩
  rw [h.node _ hc, hn, (h.fields hc).2.2]

include hm

theorem closing {j b : Nat}
    (hr : (j, b) ∈ (s.keptBefore s.marked.tokens.size).zip v.ownTrivia) {token : SourceToken}
    (ht : s.marked.tokens[j]? = some token) (hk : token.kind = .preprocEnd) :
    ∃ i more node a, s.marked.opened j = i :: more ∧
      readEndMark? token.text.toList = some node ∧ s.marked.mark? i = some node ∧
      (i, a) ∈ (s.keptBefore s.marked.tokens.size).zip v.ownTrivia ∧ v.parent a = v.parent b := by
  rw [← h.rows_eq hg hnext] at hr ⊢
  obtain ⟨i, more, a, ho, ha, hpar⟩ := hg.ends _ hr token ht hk
  obtain ⟨i', more', node, ho', hread, hmark, -⟩ := MarkedText.opened_of_end hm ht hk
  obtain ⟨rfl, rfl⟩ := List.cons.inj (ho'.symm.trans ho)
  refine ⟨i', more', node, a, ho, hread, hmark, ha, ?_⟩
  rw [(h.fields (hg.contains_row ha)).2.2, (h.fields (hg.contains_row hr)).2.2]
  exact hpar

theorem copy {i a : Nat} (hr : (i, a) ∈ (s.keptBefore s.marked.tokens.size).zip v.ownTrivia)
    {token : SourceToken} (ht : s.marked.tokens[i]? = some token)
    (hk : token.kind = .preprocBegin) :
    ∃ node copy o, s.marked.mark? i = some node ∧ v.children a = [copy] ∧
      directives.outlineWithin (directives.size + 1) node = [o] ∧ o.At v.forest copy := by
  rw [← h.rows_eq hg hnext] at hr
  obtain ⟨node, hmark⟩ := MarkedText.mark?_of_begin hm ht hk
  obtain ⟨token', kind, ht', hkind, hn⟩ := hg.shows _ hr
  obtain rfl : token = token' := Option.some.inj (ht.symm.trans ht')
  obtain rfl : NodeKind.slPreprocBegin = kind := by simpa [hk, triviaKind?] using hkind
  have hnode : ((g.table s).node a).kind = .slPreprocBegin ∧
      ((g.table s).node a).definition = node := by
    rw [hn]
    simp [GrowthSource.hiddenNode, hk, SourceKind.isMark, hmark, Growth.tokenNode]
  obtain ⟨tops, he, hat⟩ := h.copies a (hg.contains_row hr) hnode.1
  rw [sortedFamily_begin hg (by rw [NodeTable.kind, hnode.1]; rfl), List.nil_append] at he
  rw [hnode.2, outlineWithin] at hat
  cases tops with
  | nil => exact hat.elim
  | cons copy tops =>
    obtain rfl := Outline.allAt_nil_iff.mp hat.2
    exact ⟨node, copy, _, hmark, he, rfl, hat.1⟩

end Finished

end NodeTable

/-- The parse tree of a marked text is one of its grammar, and its nodes are grown without a
fault. -/
theorem Growth.ofTree_of_parse {text : PreprocessedText} {s : GrowthSource} {tree : ParseTree}
    (hm : MarkedText.ofText text = .ok s.marked)
    (ht : (SourceGrammar.parse s.marked.tokens.toList).1 = some tree) :
    ∃ ts g rows, tree = .node .paTopLevelRule ts ∧ ofTree s tree = .ok g ∧ Going s g rows ∧
      Arranged s g ∧ g.next = s.marked.tokens.size ∧ ∀ production,
        Outline.AllAt (g.table s).shapeForest
          (ParseTree.outline s.marked.tokens production tree) [rootId] := by
  obtain ⟨hkind, hsorted, hseen, hkinds⟩ := SourceGrammar.tree_of_parse ht
  cases tree with
  | leaf i => simp [ParseTree.kind?] at hkind
  | node kind ts =>
  obtain rfl : kind = .paTopLevelRule := by simpa [ParseTree.kind?] using hkind
  have hfit : Growth.Fits s 0 (ParseTree.node .paTopLevelRule ts).leaves :=
    ⟨hsorted, fun i hi => by simpa using hseen i hi, fun i _ => Nat.zero_le i⟩
  obtain ⟨g, rows, he, hg, hnext, hshape⟩ := Growth.ofTree_spec hm (by decide) hfit hkinds (.leaf 0)
  exact ⟨ts, g, rows, rfl, he, hg, arranged_ofTree hkinds he hg, hnext, fun _ => hshape⟩

/-- The outline of a parse tree stands at the root of the syntax tree. -/
theorem allAt_syntaxTree {text : PreprocessedText} {s : GrowthSource} {tree : ParseTree}
    {m : LocationMapper} {t : NodeTable} (hm : MarkedText.ofText text = .ok s.marked)
    (ht : (SourceGrammar.parse s.marked.tokens.toList).1 = some tree)
    (h : syntaxTree s m tree = .ok t) (production : ParseTree) :
    Outline.AllAt t.skeleton (ParseTree.outline s.marked.tokens production tree) [t.root] := by
  obtain ⟨ts, g, rows, rfl, he, hg, ha, -, hshape⟩ := Growth.ofTree_of_parse hm ht
  have hf := (places_linked hg ha m).finished s.marked.text.nodes
  rw [syntaxTree, he] at h
  obtain rfl := Except.ok.inj h
  have hroot := hf.root_eq hg
  refine hf.outline_at hg ?_ ?_
  · exact List.forall_mem_singleton.mpr (hroot ▸ hg.root)
  · exact hroot ▸ hshape production

/-- **The syntax tree of a marked text is faithful**: it is made without a fault, and it is what its
parse tree, its hidden tokens and its directives say. -/
theorem syntaxTree_faithful (text : PreprocessedText) (marked : MarkedText) (tree : ParseTree)
    (library : String) (keepBlanks : Bool) (m : LocationMapper)
    (hm : MarkedText.ofText text = .ok marked)
    (ht : (SourceGrammar.parse marked.tokens.toList).1 = some tree) :
    ∃ t, syntaxTree ⟨marked, library, keepBlanks⟩ m tree = .ok t ∧
      IsSyntaxTree ⟨marked, library, keepBlanks⟩ m tree t := by
  generalize hs : (⟨marked, library, keepBlanks⟩ : GrowthSource) = s
  obtain rfl : marked = s.marked := by rw [← hs]
  obtain ⟨ts, g, rows, rfl, he, hg, ha, hnext, hshape⟩ := Growth.ofTree_of_parse hm ht
  have hf := (places_linked hg ha m).finished s.marked.text.nodes
  refine ⟨((g.linked s).mapPlaces m).graftDirectives s.marked.text.nodes, ?_, ?_⟩
  · rw [syntaxTree, he]
    rfl
  generalize graftDirectives _ s.marked.text.nodes = v at hf ⊢
  have hroot : v.root = 1 := hf.root_eq hg
  exact {
    connected := fun id hid h1 => hf.connected hg hid (hroot ▸ h1)
    shape := fun production => by
      rw [hroot]
      exact hf.outline_at hg (by simpa using hg.root) (hshape production)
    hidden := hf.hidden hg hnext
    closing := fun j b hr token ht hk => hf.closing hg hm hnext hr ht hk
    copies := fun i a hr token ht hk => hf.copy hg hm hnext hr ht hk }

/-- A text with a pair of marks around a semicolon, and a comment behind it. -/
def markedSemicolon : PreprocessedText where
  file := some "top.sv"
  text := "\x01PPB\x01;\x01PPE1\x01/**/"
  nodes := { file := some "top.sv", library := "work"
             nodes := #[{ kind := .ppMacroInstanceNoArgs, name := some "M", file := none }] }
  lines := {}
  includes := []
  macros := {}
  states := []

theorem syntaxTree_faithful_markedSemicolon :
    ∃ marked tree, MarkedText.ofText markedSemicolon = .ok marked ∧
      (SourceGrammar.parse marked.tokens.toList).1 = some tree ∧
      ∃ t, syntaxTree ⟨marked, "work", false⟩ ⟨{}, {}, some "top.sv", false⟩ tree = .ok t ∧
        IsSyntaxTree ⟨marked, "work", false⟩ ⟨{}, {}, some "top.sv", false⟩ tree t := by
  have hok : (MarkedText.ofText markedSemicolon).toBool = true := by decide +kernel
  have hsome : (SourceGrammar.parse (SourceToken.ofText markedSemicolon.text)).1.isSome = true := by
    decide +kernel
  cases hm : MarkedText.ofText markedSemicolon with
  | error fault => simp [hm, Except.toBool] at hok
  | ok marked =>
    obtain ⟨-, htokens, -⟩ := MarkedText.ofText_eq hm
    obtain ⟨tree, ht⟩ := Option.isSome_iff_exists.mp hsome
    have ht : (SourceGrammar.parse marked.tokens.toList).1 = some tree := by rw [htokens]; exact ht
    exact ⟨marked, tree, rfl, ht, syntaxTree_faithful markedSemicolon marked tree _ _ _ hm ht⟩

end Verilog
