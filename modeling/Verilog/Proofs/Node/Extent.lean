import Mathlib.Order.Bounds.Basic
import Verilog.Node.Extent
import Verilog.Proofs.Node.Query
import Verilog.Proofs.Node.Sorting

/-!
# The columns of a tree, line by line

The nodes of a tree are gone through in order, and each widens the columns of the line on which it
starts. What the columns of a line are in the end is said of the nodes met so far
(`LineExtent.Measures`), and each node keeps it true.

The first column is the smallest at which a node of the line starts, whatever the order. The last
one is not the like of it: nodes that end on the line where they start count with their ends, but
the node that opens a line counts with its end even if that is on a later line. So the last column
is the largest end of the nodes that start and end on the line exactly if the first node met does
not end past all of them (`NodeTable.measures_lines`), and the order of siblings matters where it
decides which node is met first.
-/

namespace Verilog

namespace LineExtent

variable {ns : List Node} {n : Node} {es : List LineExtent} {e : LineExtent} {line : Nat}

/-- The columns at which nodes start on a line. -/
def starts (ns : List Node) (line : Nat) : Set Nat :=
  {c | ∃ n ∈ ns, n.line = line ∧ n.column = c}

/-- The columns at which nodes end that start and end on a line. -/
def ends (ns : List Node) (line : Nat) : Set Nat :=
  {c | ∃ n ∈ ns, n.line = line ∧ n.endLine = line ∧ n.endColumn = c}

/-- The first of some nodes to start on a line. -/
def opener? (ns : List Node) (line : Nat) : Option Node := ns.find? fun n => n.line = line

/-- **What the columns of a line are** after some nodes: the smallest one at which a node starts,
and the largest one at which a node ends that starts and ends there, where the first node of the
line counts in any case. -/
structure Measures (e : LineExtent) (ns : List Node) : Prop where
  first : IsLeast (starts ns e.line) e.first
  last : ∃ n, opener? ns e.line = some n ∧ IsGreatest ({n.endColumn} ∪ ends ns e.line) e.last

/-! ### One more node -/

theorem starts_concat (ns : List Node) (n : Node) (line : Nat) : starts (ns ++ [n]) line =
    if n.line = line then starts ns line ∪ {n.column} else starts ns line := by
  ext c
  by_cases hn : n.line = line
  · simp [starts, hn, or_and_right, exists_or, or_comm, eq_comm]
  · simp [starts, hn, or_and_right, exists_or]

theorem ends_concat (ns : List Node) (n : Node) (line : Nat) : ends (ns ++ [n]) line =
    if n.line = line ∧ n.endLine = line then ends ns line ∪ {n.endColumn}
    else ends ns line := by
  ext c
  by_cases hn : n.line = line ∧ n.endLine = line
  · simp [ends, hn, or_and_right, exists_or, or_comm, eq_comm]
  · rw [if_neg hn]
    simp only [ends, List.mem_append, List.mem_singleton, Set.mem_ofPred_eq, or_and_right,
      exists_or, exists_eq_left]
    exact or_iff_left fun h => hn ⟨h.1, h.2.1⟩

/-- Columns of another line stay what they are. -/
theorem Measures.concat_of_ne (h : e.Measures ns) (hn : n.line ≠ e.line) :
    e.Measures (ns ++ [n]) := by
  obtain ⟨m, hm, hlast⟩ := h.last
  refine ⟨?_, m, ?_, ?_⟩
  · rw [starts_concat, if_neg hn]
    exact h.first
  · rw [opener?, List.find?_append, ← opener?, hm]
    rfl
  · rw [ends_concat, if_neg fun h => hn h.1]
    exact hlast

/-- **A node on the line** widens its columns. -/
theorem Measures.concat_widen (h : e.Measures ns) (hn : n.line = e.line) :
    (e.widen n).Measures (ns ++ [n]) := by
  obtain ⟨m, hm, hlast⟩ := h.last
  have hline : (e.widen n).line = e.line := rfl
  refine ⟨?_, m, ?_, ?_⟩
  · rw [hline, starts_concat, if_pos hn]
    exact h.first.union isLeast_singleton
  · rw [hline, opener?, List.find?_append, ← opener?, hm]
    rfl
  · rw [hline, ends_concat, widen]
    by_cases hend : n.endLine = n.line
    · rw [if_pos hend, if_pos ⟨hn, hend.trans hn⟩, ← Set.union_assoc]
      exact hlast.union isGreatest_singleton
    · rw [if_neg hend, if_neg fun h => hend (h.2.trans hn.symm)]
      exact hlast

/-- The columns of a line on which nothing has started yet. -/
theorem measures_concat_new (hnew : ∀ m ∈ ns, m.line ≠ n.line) :
    (⟨n.line, n.column, n.endColumn⟩ : LineExtent).Measures (ns ++ [n]) := by
  have hstarts : starts ns n.line = ∅ := by
    refine Set.eq_empty_of_forall_notMem ?_
    rintro c ⟨m, hm, hline, -⟩
    exact hnew m hm hline
  have hends : ends ns n.line = ∅ := by
    refine Set.eq_empty_of_forall_notMem ?_
    rintro c ⟨m, hm, hline, -⟩
    exact hnew m hm hline
  refine ⟨?_, n, ?_, ?_⟩
  · rw [starts_concat, if_pos rfl, hstarts]
    simp
  · have hnone : ns.find? (fun m => m.line = n.line) = none := by
      simpa [List.find?_eq_none] using hnew
    rw [opener?, List.find?_append, hnone]
    simp
  · rw [ends_concat, hends]
    split <;> simp

/-! ### All nodes -/

/-- Is there one entry for a line, and do the entries go by lines? -/
def Increasing (es : List LineExtent) : Prop := es.Pairwise fun a b => a.line < b.line

/-- What is there once a node has been entered. -/
theorem mem_insert (hs : Increasing es) (he : e ∈ insert n es) :
    (e ∈ es ∧ n.line ≠ e.line) ∨ (∃ old ∈ es, n.line = old.line ∧ e = old.widen n) ∨
      ((∀ old ∈ es, old.line ≠ n.line) ∧ e = ⟨n.line, n.column, n.endColumn⟩) := by
  induction es with
  | nil => exact .inr (.inr ⟨by simp, by simpa [insert] using he⟩)
  | cons a es ih =>
    obtain ⟨ha, hs⟩ := List.pairwise_cons.mp hs
    rw [insert] at he
    split at he
    · rename_i hlt
      have hall : ∀ old ∈ a :: es, n.line < old.line :=
        List.forall_mem_cons.mpr ⟨hlt, fun old hold => hlt.trans (ha old hold)⟩
      rcases List.mem_cons.mp he with rfl | he
      · exact .inr (.inr ⟨fun old hold => (hall old hold).ne', rfl⟩)
      · exact .inl ⟨he, (hall e he).ne⟩
    · split at he
      · rename_i heq
        rcases List.mem_cons.mp he with rfl | he
        · exact .inr (.inl ⟨a, by simp, heq, rfl⟩)
        · exact .inl ⟨List.mem_cons_of_mem _ he, heq ▸ (ha e he).ne⟩
      · rename_i hne
        rcases List.mem_cons.mp he with rfl | he
        · exact .inl ⟨by simp, hne⟩
        · rcases ih hs he with ⟨hmem, hline⟩ | ⟨old, hold, hline, rfl⟩ | ⟨hnew, rfl⟩
          · exact .inl ⟨List.mem_cons_of_mem _ hmem, hline⟩
          · exact .inr (.inl ⟨old, List.mem_cons_of_mem _ hold, hline, rfl⟩)
          · exact .inr (.inr ⟨List.forall_mem_cons.mpr ⟨Ne.symm hne, hnew⟩, rfl⟩)

theorem map_line_insert (n : Node) (es : List LineExtent) (line : Nat) :
    (∃ e ∈ insert n es, e.line = line) ↔ n.line = line ∨ ∃ e ∈ es, e.line = line := by
  induction es with
  | nil => simp [insert]
  | cons a es ih =>
    rw [insert]
    split
    · simp
    · split
      · rename_i heq
        simp [widen, heq]
      · simp only [List.exists_mem_cons_iff, ih]
        tauto

theorem increasing_insert (hs : Increasing es) (n : Node) : Increasing (insert n es) := by
  induction es with
  | nil => simp [insert, Increasing]
  | cons a es ih =>
    obtain ⟨ha, htail⟩ := List.pairwise_cons.mp hs
    rw [insert]
    split
    · rename_i hlt
      exact List.pairwise_cons.mpr
        ⟨List.forall_mem_cons.mpr ⟨hlt, fun e he => hlt.trans (ha e he)⟩, hs⟩
    · split
      · exact List.pairwise_cons.mpr ⟨ha, htail⟩
      · refine List.pairwise_cons.mpr ⟨fun e he => ?_, ih htail⟩
        have hline := (map_line_insert n es e.line).mp ⟨e, he, rfl⟩
        rcases hline with hn | ⟨e', he', hline⟩
        · omega
        · exact hline ▸ ha e' he'

/-- **The columns of all lines**, by line: there is an entry exactly for the lines on which a node
starts, and each is what the nodes make it. -/
theorem measures_foldl (ns : List Node) :
    Increasing (ns.foldl (fun es n => insert n es) []) ∧
      (∀ line, (∃ e ∈ ns.foldl (fun es n => insert n es) [], e.line = line) ↔
        ∃ n ∈ ns, n.line = line) ∧
      ∀ e ∈ ns.foldl (fun es n => insert n es) [], e.Measures ns := by
  induction ns using List.reverseRecOn with
  | nil => simp [Increasing]
  | append_singleton ns n ih =>
    obtain ⟨hs, hlines, hmeasures⟩ := ih
    rw [List.foldl_append, List.foldl_cons, List.foldl_nil]
    refine ⟨increasing_insert hs n, fun line => ?_, fun e he => ?_⟩
    · rw [map_line_insert, hlines]
      simp [or_and_right, exists_or, or_comm]
    · rcases mem_insert hs he with ⟨hmem, hline⟩ | ⟨old, hold, hline, rfl⟩ | ⟨hnew, rfl⟩
      · exact (hmeasures e hmem).concat_of_ne hline
      · exact (hmeasures old hold).concat_widen hline
      · refine measures_concat_new fun m hm hline => ?_
        obtain ⟨old, hold, hold'⟩ := (hlines n.line).mpr ⟨m, hm, hline⟩
        exact hnew old hold hold'

/-- Lists of places, one on each line, are the same if they hold the same places. -/
theorem eq_of_increasing {as bs : List (Nat × Nat)} (ha : as.Pairwise fun a b => a.1 < b.1)
    (hb : bs.Pairwise fun a b => a.1 < b.1) (h : ∀ a, a ∈ as ↔ a ∈ bs) : as = bs := by
  have hnodup : ∀ {cs : List (Nat × Nat)}, cs.Pairwise (fun a b => a.1 < b.1) → cs.Nodup :=
    fun hc => hc.imp fun hlt heq => hlt.ne (congrArg Prod.fst heq)
  refine ((List.perm_ext_iff_of_nodup (hnodup ha) (hnodup hb)).mpr h).eq_of_pairwise ?_ ha hb
  exact fun a b _ _ hab hba => absurd (hab.trans hba) (lt_irrefl _)

end LineExtent

namespace NodeTable

variable {t u : NodeTable} {r q line : Nat}

/-! ### The nodes of a tree -/

/-- The columns at which nodes of a tree start on a line. -/
def startColumns (t : NodeTable) (r : NodeId) (line : Nat) : Set Nat :=
  {c | ∃ q : NodeId, (r = q ∨ t.Above r q) ∧ (t.node q).line = line ∧ (t.node q).column = c}

/-- The columns at which nodes of a tree end that start and end on a line. -/
def endColumns (t : NodeTable) (r : NodeId) (line : Nat) : Set Nat :=
  {c | ∃ q : NodeId, (r = q ∨ t.Above r q) ∧ (t.node q).line = line ∧ (t.node q).endLine = line ∧
    (t.node q).endColumn = c}

/-- The node of a tree that is the first to be met of those that start on a line. -/
def opener? (t : NodeTable) (r : NodeId) (line : Nat) : Option NodeId :=
  (t.preorder r).find? fun q => (t.node q).line = line

/-- **Does the first node of a line fit** the others, in that some node that starts and ends there
ends no earlier? -/
def OpenerFits (t : NodeTable) (r : NodeId) (line : Nat) : Prop :=
  ∀ q, t.opener? r line = some q → ∃ c ∈ t.endColumns r line, (t.node q).endColumn ≤ c

/-- **Is a table another one but for the order of siblings**, and a forest as well? -/
structure Reorders (t u : NodeTable) : Prop where
  same : t.SameNodes u
  isForest : u.IsForest
  perm : ∀ p : NodeId, (u.children p).Perm (t.children p)

theorem PutsInOrder.reorders {S : Nat → Prop} (h : t.PutsInOrder u S) (ht : t.IsForest) :
    t.Reorders u := by
  refine ⟨h.same, h.isForest ht, fun p => ?_⟩
  by_cases hp : S p
  · exact (h.sorted p hp).perm
  · rw [h.others p hp]

namespace Reorders

theorem above_eq (h : t.Reorders u) : u.Above = t.Above :=
  above_congr fun p _ => (h.perm p).mem_iff

theorem startColumns_eq (h : t.Reorders u) (r : NodeId) : u.startColumns r = t.startColumns r := by
  have hnode : ∀ q, (u.node q).line = (t.node q).line ∧ (u.node q).column = (t.node q).column :=
    fun q => ⟨congrArg (·.line) (h.same.unlinked q), congrArg (·.column) (h.same.unlinked q)⟩
  funext line
  simp only [startColumns, h.above_eq, hnode]

theorem endColumns_eq (h : t.Reorders u) (r : NodeId) : u.endColumns r = t.endColumns r := by
  have hnode : ∀ q, (u.node q).line = (t.node q).line ∧ (u.node q).endLine = (t.node q).endLine ∧
      (u.node q).endColumn = (t.node q).endColumn := fun q =>
    ⟨congrArg (·.line) (h.same.unlinked q), congrArg (·.endLine) (h.same.unlinked q),
      congrArg (·.endColumn) (h.same.unlinked q)⟩
  funext line
  simp only [endColumns, h.above_eq, hnode]

end Reorders

/-! ### What the columns of a tree are -/

theorem lineExtents_eq_foldl (t : NodeTable) (r : NodeId) : t.lineExtents r =
    ((t.preorder r).map t.node).foldl (fun es n => LineExtent.insert n es) [] := by
  rw [List.foldl_map]
  rfl

theorem increasing_lineExtents (t : NodeTable) (r : NodeId) :
    LineExtent.Increasing (t.lineExtents r) := by
  rw [lineExtents_eq_foldl]
  exact (LineExtent.measures_foldl _).1

namespace Linked

variable (h : t.Linked t.children) (hr0 : r ≠ 0) (hr : ¬t.Above r r)
include h hr0 hr

theorem starts_eq (line : Nat) :
    LineExtent.starts ((t.preorder r).map t.node) line = t.startColumns r line := by
  simp [LineExtent.starts, startColumns, h.mem_preorder hr0 hr]

theorem ends_eq (line : Nat) :
    LineExtent.ends ((t.preorder r).map t.node) line = t.endColumns r line := by
  simp [LineExtent.ends, endColumns, h.mem_preorder hr0 hr]

/-- **There are columns for a line** exactly if a node of the tree starts there. -/
theorem exists_lineExtents_iff (line : Nat) : (∃ e ∈ t.lineExtents r, e.line = line) ↔
    ∃ q : NodeId, (r = q ∨ t.Above r q) ∧ (t.node q).line = line := by
  rw [lineExtents_eq_foldl, (LineExtent.measures_foldl _).2.1]
  simp [h.mem_preorder hr0 hr]

/-- **What the columns of a line are**, in terms of the tree. -/
theorem lineExtents_spec {e : LineExtent} (he : e ∈ t.lineExtents r) :
    IsLeast (t.startColumns r e.line) e.first ∧ ∃ q : NodeId, t.opener? r e.line = some q ∧
      IsGreatest ({(t.node q).endColumn} ∪ t.endColumns r e.line) e.last := by
  rw [lineExtents_eq_foldl] at he
  obtain ⟨hfirst, n, hn, hlast⟩ := (LineExtent.measures_foldl _).2.2 e he
  rw [h.starts_eq hr0 hr] at hfirst
  rw [h.ends_eq hr0 hr] at hlast
  rw [LineExtent.opener?, List.find?_map, Option.map_eq_some_iff] at hn
  obtain ⟨q, hq, rfl⟩ := hn
  exact ⟨hfirst, q, hq, hlast⟩

/-- **When the last column is the largest end** of the nodes that start and end on the line. -/
theorem isGreatest_last_iff {e : LineExtent} (he : e ∈ t.lineExtents r) :
    IsGreatest (t.endColumns r e.line) e.last ↔ t.OpenerFits r e.line := by
  obtain ⟨-, q, hq, hlast⟩ := h.lineExtents_spec hr0 hr he
  constructor
  · rintro hends q' hq'
    obtain rfl := Option.some.inj (hq.symm.trans hq')
    exact ⟨e.last, hends.1, hlast.2 (.inl rfl)⟩
  · intro hfits
    obtain ⟨c, hc, hle⟩ := hfits q hq
    refine ⟨?_, fun c hc => hlast.2 (.inr hc)⟩
    rcases hlast.1 with heq | hmem
    · have : c = e.last := le_antisymm (hlast.2 (.inr hc)) (heq ▸ hle)
      exact this ▸ hc
    · exact hmem

end Linked

/-! ### Other orders of siblings -/

namespace Reorders

variable (hu : t.Reorders u) (h : t.IsForest) (hr0 : r ≠ 0)
include hu h hr0

theorem exists_lineExtents_iff (line : Nat) :
    (∃ e ∈ u.lineExtents r, e.line = line) ↔ ∃ e ∈ t.lineExtents r, e.line = line := by
  have hstarts : ∀ v : NodeTable, (∃ q : NodeId, (r = q ∨ v.Above r q) ∧ (v.node q).line = line) ↔
      (v.startColumns r line).Nonempty := fun v =>
    ⟨fun ⟨q, hq, hline⟩ => ⟨_, q, hq, hline, rfl⟩, fun ⟨_, q, hq, hline, _⟩ => ⟨q, hq, hline⟩⟩
  rw [hu.isForest.linked.exists_lineExtents_iff hr0 (hu.isForest.acyclic r), hstarts,
    h.linked.exists_lineExtents_iff hr0 (h.acyclic r), hstarts, hu.startColumns_eq]

/-- **First columns** are the same in any order of siblings. -/
theorem first_eq {e e' : LineExtent} (he : e ∈ t.lineExtents r) (he' : e' ∈ u.lineExtents r)
    (hline : e.line = e'.line) : e.first = e'.first := by
  have hfirst := (h.linked.lineExtents_spec hr0 (h.acyclic r) he).1
  have hfirst' := (hu.isForest.linked.lineExtents_spec hr0 (hu.isForest.acyclic r) he').1
  rw [hu.startColumns_eq, ← hline] at hfirst'
  exact hfirst.unique hfirst'

theorem lineFirsts_eq : (u.lineExtents r).map (fun e => (e.line, e.first)) =
    (t.lineExtents r).map fun e => (e.line, e.first) := by
  have hincreasing : ∀ v : NodeTable, ((v.lineExtents r).map fun e => (e.line, e.first)).Pairwise
      fun a b => a.1 < b.1 := fun v => List.pairwise_map.mpr (v.increasing_lineExtents r)
  refine LineExtent.eq_of_increasing (hincreasing u) (hincreasing t) fun a => ?_
  rw [List.mem_map, List.mem_map]
  constructor
  · rintro ⟨e', he', rfl⟩
    obtain ⟨e, he, hline⟩ := (hu.exists_lineExtents_iff h hr0 e'.line).mp ⟨e', he', rfl⟩
    exact ⟨e, he, Prod.ext hline (hu.first_eq h hr0 he he' hline)⟩
  · rintro ⟨e, he, rfl⟩
    obtain ⟨e', he', hline⟩ := (hu.exists_lineExtents_iff h hr0 e.line).mpr ⟨e, he, rfl⟩
    exact ⟨e', he', Prod.ext hline (hu.first_eq h hr0 he he' hline.symm).symm⟩

/-- **Last columns** are the same where the node that is met first fits in both orders. -/
theorem last_eq_iff {e e' : LineExtent} (he : e ∈ t.lineExtents r) (he' : e' ∈ u.lineExtents r)
    (hline : e.line = e'.line) (hfits : t.OpenerFits r e.line) :
    e.last = e'.last ↔ u.OpenerFits r e.line := by
  have hlast := (h.linked.isGreatest_last_iff hr0 (h.acyclic r) he).mpr hfits
  rw [hline, ← hu.isForest.linked.isGreatest_last_iff hr0 (hu.isForest.acyclic r) he',
    hu.endColumns_eq]
  rw [hline] at hlast
  exact ⟨fun heq => heq ▸ hlast, hlast.unique⟩

end Reorders

/-- **The columns of a tree.** In a forest there is one entry for each line on which a node of the
tree starts, by line. Its first column is the smallest at which one starts; its last one is the
largest of the end of the node that is met first there and of the ends of those that start and end
there, and so is the largest end of those exactly if the first node fits. Another order of siblings
gives the same lines and first columns; where the first node fits, it gives the same last column
exactly if the node that is then met first fits as well. -/
theorem measures_lines (h : t.IsForest) (hr0 : r ≠ 0) :
    LineExtent.Increasing (t.lineExtents r) ∧
    (∀ line, (∃ e ∈ t.lineExtents r, e.line = line) ↔
      ∃ q : NodeId, (r = q ∨ t.Above r q) ∧ (t.node q).line = line) ∧
    (∀ e ∈ t.lineExtents r, IsLeast (t.startColumns r e.line) e.first ∧
      (∃ q : NodeId, t.opener? r e.line = some q ∧
        IsGreatest ({(t.node q).endColumn} ∪ t.endColumns r e.line) e.last) ∧
      (IsGreatest (t.endColumns r e.line) e.last ↔ t.OpenerFits r e.line)) ∧
    (∀ u, t.Reorders u →
      (u.lineExtents r).map (fun e => (e.line, e.first)) =
        (t.lineExtents r).map (fun e => (e.line, e.first)) ∧
      ∀ e ∈ t.lineExtents r, ∀ e' ∈ u.lineExtents r, e.line = e'.line → t.OpenerFits r e.line →
        (e.last = e'.last ↔ u.OpenerFits r e.line)) := by
  have hr := h.acyclic r
  refine ⟨t.increasing_lineExtents r, h.linked.exists_lineExtents_iff hr0 hr, fun e he => ?_,
    fun u hu => ⟨hu.lineFirsts_eq h hr0, fun e he e' he' => hu.last_eq_iff h hr0 he he'⟩⟩
  obtain ⟨hfirst, hlast⟩ := h.linked.lineExtents_spec hr0 hr he
  exact ⟨hfirst, hlast, h.linked.isGreatest_last_iff hr0 hr he⟩

theorem measures_lines_lateOperand : lateOperand.IsForest ∧
    lateOperand.lineExtents 1 = [⟨1, 1, 7⟩] ∧ IsLeast (lateOperand.startColumns 1 1) 1 ∧
    IsGreatest (lateOperand.endColumns 1 1) 7 ∧
    ((lateOperand.sortChildren 1).lineExtents 1).map (fun e => (e.line, e.first)) = [(1, 1)] := by
  have hforest := sound_lateOperand.isForest
  have hextents : lateOperand.lineExtents 1 = [⟨1, 1, 7⟩] := by decide
  obtain ⟨-, -, hcolumns, horder⟩ := measures_lines hforest (r := 1) (by decide)
  obtain ⟨hfirst, ⟨q, hq, hlast⟩, hfits⟩ := hcolumns ⟨1, 1, 7⟩ (by rw [hextents]; simp)
  obtain rfl : q = 1 := Option.some.inj (hq.symm.trans (by decide))
  have hreorders := (hforest.linked.sortChildren 1).reorders hforest
  have hends : IsGreatest (lateOperand.endColumns 1 1) 7 := by
    refine ⟨?_, fun c hc => hlast.2 (.inr hc)⟩
    rcases hlast.1 with h7 | hmem
    · exact absurd h7 (by decide)
    · exact hmem
  refine ⟨hforest, hextents, hfirst, hends, ?_⟩
  rw [(horder _ hreorders).1, hextents]
  rfl

/-- A table with three siblings on one line, of which the first two end on the next one. -/
def openEnded : NodeTable :=
  let node (line column endLine endColumn : Nat) : Node :=
    { kind := .paExpression, file := none, line, column, endLine, endColumn }
  let t := (({ file := none, library := "work" } : NodeTable).add (node 1 1 3 50)).2
  let t := (t.addChild 1 (node 2 5 3 20)).2
  let t := (t.addChild 1 (node 2 7 3 50)).2
  (t.addChild 1 (node 2 1 2 10)).2

theorem sound_openEnded : openEnded.Sound :=
  Grafted.sound_addChild
    (Grafted.sound_addChild
      (Grafted.sound_addChild ((rooted_of_empty rfl).sound.add rfl rfl) (by decide) rfl rfl)
      (by decide) rfl rfl)
    (by decide) rfl rfl

/-- **A node that ends on a later line** counts with its end if it is the first of its line, and so
the order of siblings shows. -/
theorem lineExtents_openEnded : openEnded.IsForest ∧
    openEnded.lineExtents 1 = [⟨1, 1, 50⟩, ⟨2, 1, 20⟩] ∧
    IsGreatest (openEnded.endColumns 1 2) 10 ∧
    openEnded.Reorders (openEnded.sortChildren 1) ∧
    (openEnded.sortChildren 1).lineExtents 1 = [⟨1, 1, 50⟩, ⟨2, 1, 10⟩] := by
  have hforest := sound_openEnded.isForest
  refine ⟨hforest, by decide, ?_, (hforest.linked.sortChildren 1).reorders hforest, ?_⟩
  · have hpreorder : openEnded.preorder 1 = [1, 2, 3, 4] := by decide
    rw [← hforest.linked.ends_eq (by decide) (hforest.acyclic 1), hpreorder]
    constructor
    · exact ⟨openEnded.node 4, by simp, by decide⟩
    · rintro c ⟨n, hn, hline, hend, rfl⟩
      revert n
      decide
  · rw [sortChildren_eq [4, 2, 3] (by decide) (by decide) (by decide) (by decide)]
    decide

end NodeTable

end Verilog
