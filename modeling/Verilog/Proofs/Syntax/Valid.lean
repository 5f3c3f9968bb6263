import Verilog.Proofs.Preprocess.Nodes
import Verilog.Proofs.Syntax.Elements
import Verilog.Proofs.Syntax.Nested
import Verilog.Proofs.Syntax.Steps

/-!
# Both tables of a file are valid

The table of a syntax tree is a tree since each node that is made names a node before it as its
parent, and the copies of directives are trees below the nodes of marks. Its nodes end no earlier
than they start: leading a node back to the sources sees to that, and copies have the ranges of the
nodes of directives, which end no earlier than they start either. A design element takes its place
from its node when the places are led back, and copies change no node that is there.
-/

namespace Verilog

open NodeTable Step Session

/-- A node that has been led back to the sources ends no earlier than it starts. -/
theorem LocationMapper.spans_mapNode (m : LocationMapper) (n : Node) : (m.mapNode n).Spans := by
  unfold mapNode
  dsimp only
  split
  · rename_i h
    simpa [Node.Spans, NoLater] using h
  · exact .refl _

namespace NodeTable

variable {t directives : NodeTable} {spared : NodeKind → Prop}

theorem spans_mapPlaces (t : NodeTable) (m : LocationMapper) (q : Nat) :
    ((t.mapPlaces m).node q).Spans := by
  by_cases hq : t.contains q
  · rw [node_mapPlaces m hq]
    exact m.spans_mapNode _
  · rw [node_of_not_contains (by rwa [contains_mapPlaces])]
    exact .refl _

theorem Spanning.graftDirectives (h : t.Spanning spared) (hd : directives.Spanning spared) :
    (t.graftDirectives directives).Spanning spared := by
  rw [NodeTable.graftDirectives]
  have hall : ∀ (ids : List Nat) {u : NodeTable}, u.Spanning spared →
      (ids.foldl (fun u id => u.graft directives (t.node id).definition id) u).Spanning
        spared := by
    intro ids
    induction ids with
    | nil => exact fun hu => hu
    | cons id ids ih => exact fun hu => ih (hd.graftWithin _ _ _ hu)
  exact hall _ h

/-- Design elements stand where their nodes stand as soon as they have been led back. -/
theorem standsAt_mapPlaces (m : LocationMapper) :
    ∀ e ∈ (t.mapPlaces m).elements, e.StandsAt ((t.mapPlaces m).node e.node) := by
  intro e he
  obtain ⟨e', -, rfl⟩ := Array.mem_map.mp he
  exact ⟨rfl, rfl, rfl, rfl, rfl⟩

/-- **The syntax tree of a marked text is valid**, if the nodes of its directives end no earlier
than they start; kinds of nodes that are spared there are spared in the tree. -/
theorem valid_syntaxTree {text : PreprocessedText} {s : GrowthSource} {tree : ParseTree}
    {m : LocationMapper} (hm : MarkedText.ofText text = .ok s.marked)
    (ht : (SourceGrammar.parse s.marked.tokens.toList).1 = some tree)
    (hd : text.nodes.Spanning spared) (h : syntaxTree s m tree = .ok t) : t.Valid spared := by
  obtain ⟨ts, g, rows, rfl, he, hg, ha, -, -⟩ := Growth.ofTree_of_parse hm ht
  rw [syntaxTree, he] at h
  obtain rfl := Except.ok.inj h
  have hplaces := places_linked hg ha m
  have hf := hplaces.finished s.marked.text.nodes
  have hspanning : (((g.linked s).mapPlaces m).graftDirectives
      s.marked.text.nodes).Spanning spared := by
    rw [(MarkedText.ofText_eq hm).1]
    exact Spanning.graftDirectives (fun q => .inl (spans_mapPlaces _ m q)) hd
  have hrooted := Rooted.of_mem hf.sound fun q hq h1 => (hf.connected hg hq h1).1
  refine hrooted.valid_of_bare hspanning (u := (g.linked s).mapPlaces m)
    (spans_mapPlaces _ m) fun e hmem => ?_
  rw [elements_graftDirectives] at hmem
  refine ⟨standsAt_mapPlaces m e hmem, ?_⟩
  obtain ⟨e', hmem', -, -, hnode⟩ :=
    (KeepsElements.of_eq (t := g.table s) (elements_linked s g)).trans
      (keepsElements_mapPlaces _ m) e hmem
  obtain ⟨-, i, n, hi, hn, -⟩ := Growth.recorded_ofTree he e' hmem'
  -- the node of the element was made for the text, so it is no part of a copy
  have hc : (g.table s).contains e.node := by
    rw [hnode, hi]
    exact contains_iff.mpr ⟨Nat.succ_pos i, (Array.getElem?_eq_some_iff.mp hn).1⟩
  have hkept := (hf.node _ hc).trans (hplaces.node _ hc).symm
  have hbare := congrArg Node.bare hkept
  exact hbare

end NodeTable

/-! ### Files -/

namespace SourceFile

/-- **The table of a file** that has been read is valid, and the text it was read from is kept. -/
theorem valid_ofPreprocessed {p : PreprocessedText} {spared : NodeKind → Prop}
    (hp : p.nodes.Spanning spared) :
    Reporting.Gives (fun f => f.text = p ∧ f.nodes.Valid spared) (ofPreprocessed p) := by
  have hempty (file : Option String) (library : String) :
      ({ file, library } : NodeTable).Valid spared :=
    (rooted_of_empty rfl).valid (spanning_of_empty rfl) (by simp) (by simp)
  unfold ofPreprocessed
  refine .bind fun session => ?_
  split
  · exact .throw _
  · rename_i marked hm
    refine .bind fun _ => ?_
    split
    · exact .pure ⟨rfl, hempty _ _⟩
    · rename_i tree ht
      dsimp only
      split
      · rename_i nodes hnodes
        exact .pure ⟨rfl, valid_syntaxTree (s := ⟨marked, _, _⟩) hm ht hp hnodes⟩
      · exact .throw _

end SourceFile

/-- That a text is not preprocessed has one cause: the run is to stop at the first error. -/
theorem failFast_of_preprocessText {path text : String} {s s' : Session} {e : Failure}
    (h : preprocessText path text s = .error e s') :
    s.config.failFast = true ∧ ∃ d, e = .firstError d := by
  have hreports := reports_preprocessText (X := fun _ => False) path text
  exact (hreports.failure UpToStopping.refl h).resolve_right id

/-- **Both tables of a text are valid**, whatever the text, its configuration and the files there
are: that of its directives and that of its syntax tree. The one exception is the range of the node
of the whole text, and of copies of it: it ends before it starts exactly if the text is one line and
the column behind it, reckoned in sixteen bits, is none. That there is no table has two causes: a
run is to stop at the first error, or the marks of the preprocessed text cannot be paired. -/
theorem valid_tables (path text : String) (s : Session) :
    (match preprocessText path text s with
      | .ok p _ => p.nodes.Valid (SparesTop text.toList) ∧
          ((p.nodes.node 1).Spans ↔ ¬FillsColumns text.toList)
      | .error e _ => s.config.failFast = true ∧ ∃ d, e = .firstError d) ∧
    match SourceFile.ofText path text s with
      | .ok f _ => f.text.nodes.Valid (SparesTop text.toList) ∧
          f.nodes.Valid (SparesTop text.toList)
      | .error e _ => (s.config.failFast = true ∧ ∃ d, e = .firstError d) ∨
          ∃ file fault, e = .unbalancedMarks file fault := by
  constructor
  · cases hrun : preprocessText path text s with
    | ok p s' => exact ⟨(ofDirectives_of_preprocessText hrun).valid, spans_node_one_iff hrun⟩
    | error e s' => exact failFast_of_preprocessText hrun
  · cases hrun : SourceFile.ofText path text s with
    | error e s' => exact (reports_ofText path text).failure UpToStopping.refl hrun
    | ok f s' =>
      rw [SourceFile.ofText, bind_eq] at hrun
      cases hp : preprocessText path text s with
      | error e mid =>
        rw [hp] at hrun
        cases hrun
      | ok p mid =>
        rw [hp] at hrun
        have hdirectives := ofDirectives_of_preprocessText hp
        obtain ⟨rfl, hvalid⟩ :=
          SourceFile.valid_ofPreprocessed hdirectives.spanning mid f s' hrun
        exact ⟨hdirectives.valid, hvalid⟩

/-- A text that fills the columns there are has a table all the same, whose first node ends before
it starts. -/
theorem exists_ends_before_start {text : String} (h : FillsColumns text.toList) : ∃ p s',
    preprocessText "test.sv" text (.start {} .empty) = .ok p s' ∧ p.nodes.contains 1 ∧
      ¬(p.nodes.node 1).Spans := by
  cases hrun : preprocessText "test.sv" text (.start {} .empty) with
  | error e s' => exact absurd (failFast_of_preprocessText hrun).1 (by decide)
  | ok p s' =>
    have hcontains := (extendsWide_of_preprocessText hrun).contains (q := 1) (by rfl)
    exact ⟨p, s', rfl, hcontains, fun hspans => (spans_node_one_iff hrun).mp hspans h⟩

/-- **The node of a whole text that ends before it starts**: that of a line of 65535 blanks. -/
theorem ends_before_start_blankLine : ∃ p s',
    preprocessText "test.sv" (String.ofList (List.replicate 65535 ' ')) (.start {} .empty) =
        .ok p s' ∧
      p.nodes.contains 1 ∧ ¬(p.nodes.node 1).Spans :=
  exists_ends_before_start (by
    rw [String.toList_ofList]
    exact fillsColumns_blanks (by decide))

/-!
## Siblings are in order, and ranges nest

Where the nodes of a file keep their places in the preprocessed text, the children of a node stand
in the order in which they start, and each lies within its parent (`nests_ranges`). This says
nothing of the copies of directives, which have the places of the text before preprocessing, and of
closing marks, which are put beside their opening ones wherever they close.
-/

open Step Session

namespace NodeTable

variable {t v : NodeTable} {id : NodeId}

/-- Where a node ends. -/
def ends (t : NodeTable) (id : Nat) : Nat × Nat := ((t.node id).endLine, (t.node id).endColumn)

/-- Is a node no part of a directive that was copied into a tree? -/
def IsOwn (t : NodeTable) (id : NodeId) : Prop := t.ancestorOf id [.slPreprocBegin] = 0

instance : DecidablePred t.IsOwn := fun _ => inferInstanceAs (Decidable (_ = _))

/-- The children of a node that are no copies. -/
def ownChildren (t : NodeTable) (id : NodeId) : List NodeId := (t.children id).filter t.IsOwn

/-- **Is what stands below a node in order?** The children that are no copies start one behind the
other, and but for closing marks each ranges over a part of what the node ranges over. -/
structure InOrder (t : NodeTable) (id : NodeId) : Prop where
  sorted : (t.ownChildren id).Pairwise fun a b => NoLater (t.begins a) (t.begins b)
  within : ∀ c ∈ t.ownChildren id, t.kind c ≠ .slPreprocEnd →
    NoLater (t.begins id) (t.begins c) ∧ NoLater (t.begins c) (t.ends c) ∧
      NoLater (t.ends c) (t.ends id)

theorem inOrder_of_nil (h : t.ownChildren id = []) : t.InOrder id :=
  ⟨by rw [h]; exact .nil, by simp [h]⟩

theorem inOrder_of_not_contains (h : t.Sound) (hid : ¬t.contains id) : t.InOrder id :=
  inOrder_of_nil (by rw [ownChildren, h.linked.kids_eq_nil hid, List.filter_nil])

/-- Siblings are linked in the order in which they start. -/
theorem pairwise_sortedFamily (t : NodeTable) (p : Nat) :
    (t.sortedFamily p).Pairwise fun a b => NoLater (t.begins a) (t.begins b) :=
  t.ascending_mergeSort _

/-- A node that ends no earlier than it starts keeps its range, where places are left as they
are. -/
theorem range_mapNode {m : LocationMapper} (hm : m.asPreprocessed = true) {n : Node}
    (hn : n.Spans) : ((m.mapNode n).line, (m.mapNode n).column) = (n.line, n.column) ∧
      ((m.mapNode n).endLine, (m.mapNode n).endColumn) = (n.endLine, n.endColumn) := by
  have hmap (line column : Nat) : m.map line column = (m.file, line, column) := by
    rw [LocationMapper.map, if_pos hm]
  have hends : (n.line < n.endLine || (n.line == n.endLine && n.column ≤ n.endColumn)) = true := by
    simpa [Node.Spans, NoLater] using hn
  simp [LocationMapper.mapNode, hmap, hends]

/-- The nodes of a table are those of its array. -/
theorem exists_node {q : Nat} (hq : t.contains q) :
    ∃ n ∈ t.nodes, t.node q = n := by
  obtain ⟨h0, hle⟩ := contains_iff.mp hq
  obtain ⟨i, rfl⟩ := Nat.exists_eq_succ_of_ne_zero (Nat.pos_iff_ne_zero.mp h0)
  exact ⟨_, Array.getElem_mem hle, node_succ hle⟩

namespace Finished

variable {s : GrowthSource} {g : Growth} {rows : List (Nat × Nat)} {m : LocationMapper}
  {directives : NodeTable} (h : Finished m directives (g.table s) v) (hg : g.Going s rows)

include h

/-- The nodes that are no copies are those that were made for the text. -/
theorem contains_of_isOwn {q : Nat} (hq : v.contains q) (hown : v.IsOwn q) :
    (g.table s).contains q := by
  by_contra hc
  rw [contains_iff] at hq hc
  exact h.ancestorOf_ne_zero (by omega) hq.2 hown

/-- Where places are left as they are, a node that was made for the text has the range that it was
made with. -/
theorem range_eq (hm : m.asPreprocessed = true) (hn : g.Nested) {q : Nat}
    (hq : (g.table s).contains q) : v.begins q = (g.table s).begins q ∧
      v.ends q = (g.table s).ends q ∧ ((g.table s).node q).Spans := by
  have hspans : ((g.table s).node q).Spans := by
    obtain ⟨n, hmem, hnode⟩ := exists_node hq
    exact hnode ▸ hn.spans n hmem
  obtain ⟨hbegins, hends⟩ := range_mapNode hm hspans
  have hnode := h.node q hq
  have hbegins' := congrArg (fun n : Node => (n.line, n.column)) hnode
  have hends' := congrArg (fun n : Node => (n.endLine, n.endColumn)) hnode
  exact ⟨hbegins'.trans hbegins, hends'.trans hends, hspans⟩

include hg

/-- **What stands below a node that is no copy is in order.** -/
theorem inOrder (hm : m.asPreprocessed = true) (hn : g.Nested) (hown : v.IsOwn id) :
    v.InOrder id := by
  by_cases hid : v.contains id
  case neg => exact inOrder_of_not_contains h.sound hid
  have hcontains := h.contains_of_isOwn hid hown
  have hchild {c : Nat} (hc : c ∈ v.ownChildren id) :
      (g.table s).contains c ∧ (g.table s).parent c = id := by
    obtain ⟨hmem, hc⟩ := List.mem_filter.mp hc
    have hgc := h.contains_of_isOwn (h.sound.linked.contains id c hmem) (of_decide_eq_true hc)
    exact ⟨hgc, (h.fields hgc).2.2.symm.trans (h.sound.linked.parent id c hmem)⟩
  by_cases hk : (g.table s).kind id = .slPreprocBegin
  · -- below an opening mark there are only copies
    refine inOrder_of_nil (List.eq_nil_iff_forall_not_mem.mpr fun c hc => ?_)
    obtain ⟨hgc, hpar⟩ := hchild hc
    have hshape := hg.parent_shape c hgc
    rw [hpar, hk] at hshape
    contradiction
  · refine ⟨?_, fun c hc hend => ?_⟩
    · have hsub : (v.ownChildren id).Sublist ((g.table s).sortedFamily id) := by
        rw [← h.children id hcontains hk]
        exact List.filter_sublist
      refine ((pairwise_sortedFamily _ id).sublist hsub).imp_of_mem fun {a b} ha hb hab => ?_
      rwa [(h.range_eq hm hn (hchild ha).1).1, (h.range_eq hm hn (hchild hb).1).1]
    · obtain ⟨hgc, hpar⟩ := hchild hc
      obtain ⟨hbegins, hends, hspans⟩ := h.range_eq hm hn hgc
      obtain ⟨n, hmem, hnode⟩ := exists_node hgc
      have hnpar : n.parent = id := hnode ▸ hpar
      have hnkind : n.kind ≠ .slPreprocEnd := by
        rw [← hnode]
        exact fun he => hend ((h.fields hgc).1.trans he)
      have hpos := Nat.pos_iff_ne_zero.mp (contains_iff.mp hcontains).1
      obtain ⟨q, hq, hin⟩ := hn.within n hmem (hnpar ▸ hpos) hnkind
      have hqnode : (g.table s).node id = q := by
        obtain ⟨i, rfl⟩ := Nat.exists_eq_succ_of_ne_zero hpos
        rw [hnpar, Nat.succ_sub_one] at hq
        obtain ⟨hlt, hget⟩ := Array.getElem?_eq_some_iff.mp hq
        exact (node_succ hlt).trans hget
      obtain ⟨hbegins', hends', -⟩ := h.range_eq hm hn hcontains
      rw [hbegins, hends, hbegins', hends', NodeTable.begins, NodeTable.ends, NodeTable.begins,
        NodeTable.ends, hqnode, hnode]
      exact ⟨hin.begins, hnode ▸ hspans, hin.ends⟩

end Finished

/-- What stands below the nodes of a syntax tree is in order, where they keep their places. -/
theorem inOrder_syntaxTree {text : PreprocessedText} {s : GrowthSource} {tree : ParseTree}
    {m : LocationMapper} (hm : MarkedText.ofText text = .ok s.marked)
    (ht : (SourceGrammar.parse s.marked.tokens.toList).1 = some tree)
    (h : syntaxTree s m tree = .ok t) (hplaces : m.asPreprocessed = true) (hown : t.IsOwn id) :
    t.InOrder id := by
  obtain ⟨-, hsorted, hseen, -⟩ := SourceGrammar.tree_of_parse ht
  have hsettled := SourceGrammar.settled_of_parse ht
  obtain ⟨ts, g, rows, rfl, he, hg, ha, -, -⟩ := Growth.ofTree_of_parse hm ht
  have hfit : Growth.Fits s 0 (ParseTree.node .paTopLevelRule ts).leaves :=
    ⟨hsorted, fun i hi => by simpa using hseen i hi, fun i _ => Nat.zero_le i⟩
  have hnested := Growth.nested_ofTree hm hfit hsettled he
  rw [syntaxTree, he] at h
  obtain rfl := Except.ok.inj h
  exact ((places_linked hg ha m).finished s.marked.text.nodes).inOrder hg hplaces hnested hown

end NodeTable

/-! ### Files -/

namespace SourceFile

variable {f : SourceFile} {s s' : Session}

theorem inOrder_ofPreprocessed {p : PreprocessedText} (hs : s.config.preprocessedPlaces = true)
    (h : ofPreprocessed p s = .ok f s') {id : NodeId} (hown : f.nodes.IsOwn id) :
    f.nodes.InOrder id := by
  unfold ofPreprocessed at h
  obtain ⟨session, mid, hget, h⟩ := Step.exists_of_bind h
  obtain ⟨rfl, rfl⟩ := EStateM.Result.ok.inj hget
  cases hm : MarkedText.ofText p with
  | error fault =>
    rw [hm] at h
    cases h
  | ok marked =>
    rw [hm] at h
    dsimp only at h
    obtain ⟨⟨tree, faults⟩, hparse⟩ : ∃ r, SourceGrammar.parse marked.tokens.toList = r := ⟨_, rfl⟩
    rw [hparse] at h
    obtain ⟨-, mid, -, h⟩ := Step.exists_of_bind h
    cases tree with
    | none =>
      cases h
      exact NodeTable.inOrder_of_not_contains (NodeTable.rooted_of_empty rfl).sound
        (by simp [NodeTable.contains, NodeTable.size])
    | some tree =>
      dsimp only at h
      cases ht : syntaxTree ⟨marked, s.config.library, s.config.keepBlanks⟩
          ⟨marked.offsets, p.lines, p.file, s.config.preprocessedPlaces⟩ tree with
      | error e =>
        rw [ht] at h
        cases h
      | ok nodes =>
        rw [ht] at h
        cases h
        exact NodeTable.inOrder_syntaxTree (s := ⟨marked, s.config.library, s.config.keepBlanks⟩)
          hm (by rw [hparse]) ht hs hown

theorem inOrder_ofText {path text : String} (hs : s.config.preprocessedPlaces = true)
    (h : ofText path text s = .ok f s') {id : NodeId} (hown : f.nodes.IsOwn id) :
    f.nodes.InOrder id := by
  obtain ⟨p, mid, hpre, hfile⟩ := Step.exists_of_bind h
  obtain ⟨ds, hmid⟩ := (reports_preprocessText (X := fun _ => False) path text).exists_addAll
    UpToStopping.refl hpre
  obtain rfl : mid = s.addAll ds := hmid
  exact inOrder_ofPreprocessed (by rwa [config_addAll]) hfile hown

end SourceFile

/-- **Siblings are in order, and ranges nest.** Of every text or file that is read with the places
of the preprocessed text, whatever the configuration is otherwise and whatever files there are: the
children of a node that is no copy, copies excepted, start one behind the other, and each of them
that is no closing mark lies within the node. -/
theorem nests_ranges (s : Session) (hs : s.config.preprocessedPlaces = true) :
    (∀ path text f s', SourceFile.ofText path text s = .ok f s' →
      ∀ id, f.nodes.IsOwn id → f.nodes.InOrder id) ∧
    ∀ path f s', SourceFile.ofFile path s = .ok f s' →
      ∀ id, f.nodes.IsOwn id → f.nodes.InOrder id := by
  refine ⟨fun path text f s' h id => SourceFile.inOrder_ofText hs h, fun path f s' h id => ?_⟩
  obtain ⟨p, mid, hpre, hfile⟩ := Step.exists_of_bind h
  rw [preprocessFile] at hpre
  obtain ⟨session, mid', hget, hpre⟩ := Step.exists_of_bind hpre
  obtain ⟨rfl, rfl⟩ := EStateM.Result.ok.inj hget
  cases ht : s.files.text? path with
  | none =>
    rw [ht] at hpre
    cases hpre
  | some text =>
    rw [ht] at hpre
    have hread : SourceFile.ofText path text s = .ok f s' := (bind_of_ok hpre).trans hfile
    exact SourceFile.inOrder_ofText hs hread

/-- A session in which places are left as they are in the preprocessed text. -/
def preprocessedSession : Session := .start { preprocessedPlaces := true } .empty

/-- A call with a comment before its argument. -/
def callingText : String := "initial $f(/**/a);\n"

/-- Are the parts of the call its name, the comment and the arguments? -/
def showsCall (f : SourceFile) : Bool :=
  f.nodes.IsOwn 5 && f.nodes.ownChildren 5 == [6, 8, 9] &&
    f.nodes.begins 8 == (1, 12) && f.nodes.begins 9 == (1, 16) && f.nodes.ends 5 == (1, 18)

theorem nests_ranges_callingText : preprocessedSession.config.preprocessedPlaces = true ∧
    ∃ f s', SourceFile.ofText "m.sv" callingText preprocessedSession = .ok f s' ∧
      showsCall f = true ∧ ∀ id, f.nodes.IsOwn id → f.nodes.InOrder id := by
  have h : (SourceFile.ofText "m.sv" callingText).endsIn (fun f _ => showsCall f)
      preprocessedSession = true := by
    rw [Step.endsIn, SourceFile.ofText_of_plain ⟨by decide +kernel, by decide +kernel⟩]
    decide +kernel
  obtain ⟨f, s', hf, hcall⟩ := Step.exists_of_endsIn h
  exact ⟨rfl, f, s', hf, hcall, (nests_ranges preprocessedSession rfl).1 _ _ f s' hf⟩

end Verilog
