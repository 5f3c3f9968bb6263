import Verilog.Proofs.Directive.Pieces
import Verilog.Proofs.Lexing.Exact
import Verilog.Proofs.Node.Valid
import Verilog.Proofs.Preprocess.Steps

/-!
# The nodes of directives

The table of a text that is being preprocessed is a tree whose nodes end no earlier than they start,
from the one node of the whole text on (`NodeTable.OfDirectives`). Nodes are recorded below the node
that a text's nodes hang under, and it has to be there. For the text of a file it is the node of the
whole text, and for a text that is included it is the node of the directive, recorded just before.

So what is kept is asked of each node by itself (`Preprocessing.KeepsTree`): if it is there, then
the table stays a tree, and loses no node. Behind the recording of a directive this is known of the
node of the directive, and so it holds of the directive as a whole with respect to the node above.
-/

namespace Verilog

open Preprocessing Session Step

namespace NodeTable

variable {t : NodeTable} {p : Nat} {n : Node} {spared : NodeKind → Prop}

/-- A tree of directives: its nodes end no earlier than they start, those of some kinds spared, and
there are no design elements. -/
structure OfDirectives (spared : NodeKind → Prop) (t : NodeTable) : Prop where
  rooted : t.Rooted
  spanning : t.Spanning spared
  elements : t.elements = #[]

theorem OfDirectives.valid (h : t.OfDirectives spared) : t.Valid spared :=
  h.rooted.valid h.spanning (by simp [h.elements]) (by simp [h.elements])

theorem OfDirectives.addChild (h : t.OfDirectives spared) (hp : t.contains p) (hc : n.child = 0)
    (hs : n.sibling = 0) (hn : n.Spans) : (t.addChild p n).2.OfDirectives spared :=
  ⟨h.rooted.addChild hp hc hs, h.spanning.addChild p (.inl hn),
    (elements_addChild t p n).trans h.elements⟩

/-- Where a node is led to leaves the tree as it is. -/
theorem OfDirectives.lead (h : t.OfDirectives spared) (id definition : Nat) :
    (t.modify id fun n => { n with definition }).OfDirectives spared := by
  refine ⟨h.rooted.congr (size_modify _) ?_ ?_ ?_, h.spanning.modify id fun _ => rfl,
    (elements_modify t id _).trans h.elements⟩
  · intro q
    rw [child, node_modify]
    split <;> rfl
  · intro q
    rw [sibling, node_modify]
    split <;> rfl
  · intro q
    rw [NodeTable.parent, node_modify]
    split <;> rfl

/-- A table of one node. -/
theorem OfDirectives.one (file : Option String) (library : String) (hp : n.parent = 0)
    (hc : n.child = 0) (hn : n.Spans ∨ spared n.kind) :
    (({ file, library } : NodeTable).add n).2.OfDirectives spared := by
  let t : NodeTable := { file, library }
  have hcontains : ∀ q : Nat, (t.add n).2.contains q → q = 1 := by
    intro q hq
    obtain ⟨hpos, hle⟩ := contains_iff.mp hq
    exact Nat.le_antisymm hle hpos
  have hsound : (t.add n).2.Sound := (rooted_of_empty rfl).sound.add hp hc
  refine ⟨⟨hsound, fun q hq h1 => absurd (hcontains q hq) h1⟩, fun q => ?_, rfl⟩
  by_cases hq : (t.add n).2.contains q
  · obtain rfl := hcontains q hq
    exact hn
  · rw [node_of_not_contains hq]
    exact .inl (.refl _)

end NodeTable

open NodeTable

/-! ### Ranges -/

namespace DirectiveText

variable {d : DirectiveText} {t : ParseTree} {s : String} {spared : NodeKind → Prop}

/-- The range of a tree whose leaves stand in the order of the tokens reaches from one token to
another that is not in front of it, if it has tokens. -/
theorem rangeOf_cases (hd : d.tokens.toList = DirectiveToken.ofText s)
    (ht : t.leaves.Pairwise (· < ·)) : d.rangeOf t = {} ∨
      ∃ (i j : Nat) (first last : DirectiveToken), i ≤ j ∧
      (DirectiveToken.ofText s)[i]? = some first ∧ (DirectiveToken.ofText s)[j]? = some last ∧
      d.rangeOf t = ⟨first.line, first.column, last.endLine, last.endColumn⟩ := by
  have hget (i : Nat) : d.tokens[i]? = (DirectiveToken.ofText s)[i]? := by
    rw [← hd, Array.getElem?_toList]
  rw [rangeOf, ParseTree.first?_eq, ParseTree.last?_eq]
  split
  · rename_i first last hfirst hlast
    obtain ⟨i, hi, hfirst⟩ := Option.bind_eq_some_iff.mp hfirst
    obtain ⟨j, hj, hlast⟩ := Option.bind_eq_some_iff.mp hlast
    have hij : i ≤ j := by
      obtain ⟨rest, hrest⟩ := List.head?_eq_some_iff.mp hi
      rw [hrest] at ht hj
      rcases List.mem_cons.mp (List.mem_of_getLast? hj) with rfl | hmem
      · exact Nat.le_refl _
      · exact Nat.le_of_lt ((List.pairwise_cons.mp ht).1 j hmem)
    exact .inr ⟨i, j, first, last, hij, hget i ▸ hfirst, hget j ▸ hlast, rfl⟩
  · exact .inl rfl

/-- **The range of a tree** whose leaves stand in the order of the tokens ends no earlier than it
starts. -/
theorem noLater_rangeOf (hd : d.tokens.toList = DirectiveToken.ofText s)
    (ht : t.leaves.Pairwise (· < ·)) :
    NoLater ((d.rangeOf t).line, (d.rangeOf t).column)
      ((d.rangeOf t).endLine, (d.rangeOf t).endColumn) := by
  rcases rangeOf_cases hd ht with heq | ⟨i, j, first, last, hij, hfirst, hlast, heq⟩
  · rw [heq]
    exact .refl _
  · rw [heq]
    exact Lexicon.noLater_tokens hij hfirst hlast

/-! ### Recording -/

mutual

theorem ofDirectives_record (hd : d.tokens.toList = DirectiveToken.ofText s) {table : NodeTable}
    {p : NodeId} (h : table.OfDirectives spared) (hp : table.contains p) :
    (t : ParseTree) → t.leaves.Pairwise (· < ·) → (d.record table p t).2.OfDirectives spared
  | .leaf _, _ => h
  | .node kind ts, ht => by
    rw [record]
    have hspans := noLater_rangeOf (t := .node kind ts) hd ht
    refine ofDirectives_recordAll hd (h.addChild hp rfl rfl (by exact hspans)) ?_ ts ht
    exact contains_iff.mpr ⟨Nat.succ_pos _, (sizeFile_addChild table p _).1.ge⟩

/-- **Recording trees below a node that is there** leaves the table a tree. -/
theorem ofDirectives_recordAll (hd : d.tokens.toList = DirectiveToken.ofText s)
    {table : NodeTable} {p : NodeId} (h : table.OfDirectives spared) (hp : table.contains p) :
    (ts : List ParseTree) → (ParseTree.leavesAll ts).Pairwise (· < ·) →
      (d.recordAll table p ts).OfDirectives spared
  | [], _ => h
  | t :: ts, hts => by
    obtain ⟨ht, hts, -⟩ := List.pairwise_append.mp hts
    rw [recordAll]
    exact ofDirectives_recordAll hd (ofDirectives_record hd h hp t ht)
      ((extends_record d table p t).contains hp) ts hts

end

end DirectiveText

/-! ### What steps keep -/

namespace Preprocessing

variable {spared : NodeKind → Prop}

/-- Is the table a tree of directives afterwards, with no less nodes, if it was one before and the
node was there? -/
def KeepsTree (spared : NodeKind → Prop) (p : NodeId) (before after : PreprocessState) : Prop :=
  before.nodes.OfDirectives spared → before.nodes.contains p →
    after.nodes.OfDirectives spared ∧ before.nodes.size ≤ after.nodes.size

theorem KeepsTree.of_eq {p : NodeId} {before after : PreprocessState}
    (h : after.nodes = before.nodes) : KeepsTree spared p before after :=
  fun hbefore _ => ⟨h ▸ hbefore, h ▸ Nat.le_refl _⟩

theorem allows_keepsTree : Allows (KeepsTree spared) where
  frame p := {
    refl := fun _ => .of_eq rfl
    trans := fun {before mid after} h h' hbefore hp => by
      obtain ⟨hmid, hle⟩ := h hbefore hp
      have hp' : mid.nodes.contains p :=
        contains_iff.mpr ⟨(contains_iff.mp hp).1, (contains_iff.mp hp).2.trans hle⟩
      obtain ⟨hafter, hle'⟩ := h' hmid hp'
      exact ⟨hafter, hle.trans hle'⟩
    session := fun _ _ => .of_eq rfl }
  quiet h := .of_eq h.nodes
  write _ _ _ := .of_eq rfl
  inside _ _ _ _ h := h

/-- **What a piece of a text hangs below a node that is there.** -/
theorem hangs_keepsTree {d : DirectiveText} {s : String}
    (hd : d.tokens.toList = DirectiveToken.ofText s) {t : ParseTree}
    (ht : t ∈ (DirectiveGrammar.parse d.tokens.toList).children) :
    Hangs (KeepsTree spared) d t where
  record hnode st after h hst hp := by
    have hsorted := (DirectiveGrammar.tiles_parse d.tokens.toList).sorted t ht
    have htable := DirectiveText.ofDirectives_record hd hst hp t hsorted
    have hextends := d.extends_record st.nodes d.parent t
    cases t with
    | leaf i => cases hnode
    | node kind ts =>
      obtain ⟨hid, hcontains, -⟩ := d.record_node st.nodes d.parent kind ts
      obtain ⟨hafter, hle⟩ := h htable (hid ▸ hcontains)
      exact ⟨hafter, hextends.size.trans hle⟩
  lead p st definition hst _ := ⟨hst.lead p definition, (size_modify _).ge⟩

end Preprocessing

/-! ### Whole texts -/

/-- **Scanning a file** keeps what hanging the nodes of a piece keeps, whatever the text and the
files that it includes. -/
theorem composed_scanFile {Q : NodeId → PreprocessState → PreprocessState → Prop} (hQ : Allows Q)
    (hhangs : ∀ {d : DirectiveText} {s : String}, d.tokens.toList = DirectiveToken.ofText s →
      ∀ {t : ParseTree}, t ∈ (DirectiveGrammar.parse d.tokens.toList).children → Hangs Q d t)
    (path text : String) (s : Session) :
    Composed UpToStopping (Q 1) (scanFile path text s) := by
  have hof (text : String) (file : Option String) (parent : NodeId) : ∀ t ∈
      (DirectiveGrammar.parse (DirectiveToken.ofText text)).children,
      Hangs Q (.ofText text file parent true) t := by
    intro t ht
    exact hhangs (s := text) (by simp [DirectiveText.ofText])
      (by simpa [DirectiveText.ofText] using ht)
  have hincludes : Including UpToStopping Q
      (includeWithin s.config.includeDirs (s.files.entries.length + 1)) :=
    DirectiveText.including_includeWithin hQ hof (by rintro _ _ ⟨_, rfl⟩; rfl) _ _
  exact DirectiveText.composed_scan (d := .ofText text (some path) 1 true) hQ
    (fun _ t ht => hof text _ _ t (by simpa [DirectiveText.ofText] using ht))
    (DirectiveText.expanding_expandWithin maxExpansionDepth) hincludes

/-- **Does a text fill the columns there are?** It is one line, and the column behind it, reckoned
in sixteen bits, is none. -/
def FillsColumns (text : List Char) : Prop :=
  (textLines text).length ≤ 1 ∧ ((textLines text).getLast?.getD []).length % 65536 = 65535

/-- A text without line feeds is one line. -/
theorem textLines_of_line {s : List Char} (hs : s ≠ []) (h : '\n' ∉ s) : textLines s = [s] := by
  have hsplit : splitAtChar '\n' s = [s] := by
    clear hs
    induction s with
    | nil => rfl
    | cons c s ih =>
      rw [List.mem_cons, not_or] at h
      rw [splitAtChar, if_neg (Ne.symm h.1), ih h.2]
  rw [textLines, hsplit]
  simp [hs]

/-- Blanks on one line fill the columns there are if they run over. -/
theorem fillsColumns_blanks {n : Nat} (h : n % 65536 = 65535) :
    FillsColumns (List.replicate n ' ') := by
  have hne : List.replicate n ' ' ≠ [] := by
    rw [Ne, List.replicate_eq_nil_iff]
    omega
  have hline : '\n' ∉ List.replicate n ' ' :=
    fun hmem => absurd (List.eq_of_mem_replicate hmem) (by decide)
  rw [FillsColumns, textLines_of_line hne hline]
  simpa using h

/-- **The node of a whole text** ends no earlier than it starts, unless the text fills the columns
there are. -/
theorem spans_topNode_iff (text : List Char) (file : Option String) :
    (topNode text file).Spans ↔ ¬FillsColumns text := by
  simp only [Node.Spans, NoLater, topNode, FillsColumns]
  omega

/-- Is a node that of a whole text which fills the columns there are? -/
def SparesTop (text : List Char) (kind : NodeKind) : Prop :=
  kind = .ppTopLevelRule ∧ FillsColumns text

/-- **The table of a preprocessed text** is a tree of directives, whatever the text and the files
that it includes. -/
theorem ofDirectives_of_preprocessText {path text : String} {s s' : Session} {p : PreprocessedText}
    (h : preprocessText path text s = .ok p s') : p.nodes.OfDirectives (SparesTop text.toList) := by
  obtain ⟨after, hscan, -, rfl⟩ := scanFile_of_preprocessText h
  have hcomposed : Composed UpToStopping (KeepsTree (SparesTop text.toList) 1)
      (scanFile path text s) := composed_scanFile allows_keepsTree hangs_keepsTree path text s
  have hkeeps := hcomposed.keeps (allows_keepsTree.frame 1) (.start path text s)
  rw [hscan] at hkeeps
  have htop : (topNode text.toList (some path)).Spans ∨
      SparesTop text.toList (topNode text.toList (some path)).kind := by
    rw [spans_topNode_iff]
    exact (em (FillsColumns text.toList)).symm.imp_right fun hfills => ⟨rfl, hfills⟩
  have hstart : (PreprocessState.start path text s).nodes.OfDirectives (SparesTop text.toList) :=
    .one _ _ rfl rfl htop
  exact (hkeeps hstart (by rfl)).1

/-! ### The columns that a directive takes

A token takes a column at least. So it begins before the ones behind it begin, and before they end,
as long as columns are shown as they are (`Lexicon.earlier_begins`, `Lexicon.earlier_ends`), and the
node of a directive or macro use that starts and ends on one line takes a column as well
(`Node.Wide`).

Of a preprocessed text this is so of all nodes but that of the whole text
(`wide_of_preprocessText`). That one ends a column behind its last line, but that column is reckoned
in sixteen bits: where they run over, it ends where it starts, or before
(`spans_node_one_iff`).
-/

/-! ### Tokens take columns -/

/-- Is a place, by line and column, before another? -/
def Earlier (a b : Nat × Nat) : Prop := a.1 < b.1 ∨ a.1 = b.1 ∧ a.2 < b.2

theorem NoLater.earlier {a b c : Nat × Nat} (h : NoLater a b) (h' : Earlier b c) : Earlier a c := by
  unfold NoLater Earlier at *
  omega

/-- A text of some characters ends behind where it begins, unless columns are not shown any more. -/
theorem Position.earlier_advanceBy (p : Position) {s : List Char} (hs : s ≠ [])
    (hc : (p.advanceBy s).shown.2 < maxColumn) : Earlier p.shown (p.advanceBy s).shown := by
  cases s with
  | nil => exact absurd rfl hs
  | cons c s =>
    rw [advanceBy_cons] at hc ⊢
    have hrest := noLater_advanceBy (p.advance c) s
    generalize ((p.advance c).advanceBy s).shown = q at hrest hc ⊢
    rw [advance] at hrest
    split at hrest
    · -- behind a line feed
      exact .inl (by simp only [NoLater, shown] at hrest ⊢; omega)
    · simp only [NoLater, Earlier, shown, clampColumn, maxColumn] at hrest hc ⊢
      omega

namespace Lexicon

variable {κ : Type} {lexicon : Lexicon κ} {s : String} {i j : Nat} {t u : Token κ}

theorem earlier_token (hl : lexicon.Consuming) (ht : t ∈ lexicon.tokens s)
    (hc : t.endColumn < maxColumn) : Earlier t.begins t.ends := by
  have hne : t.text.toList ≠ [] := by
    have := (exact_of_consuming hl s).nonempty t ht
    rwa [Ne, String.toList_eq_nil_iff]
  obtain ⟨before, after, hsplit⟩ := List.append_of_mem ht
  have hplaced := eq_placed hsplit
  generalize Position.start.advanceBy (Token.textOf before) = p at hplaced
  rw [hplaced] at hc ⊢
  exact p.earlier_advanceBy hne hc

/-- **A token begins before another ends** that is not in front of it. -/
theorem earlier_ends (hl : lexicon.Consuming) (hij : i ≤ j) (ht : (lexicon.tokens s)[i]? = some t)
    (hu : (lexicon.tokens s)[j]? = some u) (hc : u.endColumn < maxColumn) :
    Earlier t.begins u.ends := by
  have hbegins : NoLater t.begins u.begins := by
    rcases Nat.eq_or_lt_of_le hij with rfl | hlt
    · obtain rfl : t = u := Option.some.inj (ht.symm.trans hu)
      exact .refl _
    · obtain ⟨hi, rfl⟩ := List.getElem?_eq_some_iff.mp ht
      obtain ⟨hj, rfl⟩ := List.getElem?_eq_some_iff.mp hu
      exact List.pairwise_iff_getElem.mp (lexicon.pairwise_tokens s) i j hi hj hlt
  exact hbegins.earlier (earlier_token hl (List.mem_of_getElem? hu) hc)

/-- **A token begins before another begins** that is behind it. -/
theorem earlier_begins (hl : lexicon.Consuming) (hij : i < j)
    (ht : (lexicon.tokens s)[i]? = some t) (hu : (lexicon.tokens s)[j]? = some u)
    (hc : u.column < maxColumn) : Earlier t.begins u.begins := by
  have hmeets : NoLater t.ends u.begins := by
    obtain ⟨hi, rfl⟩ := List.getElem?_eq_some_iff.mp ht
    obtain ⟨hj, rfl⟩ := List.getElem?_eq_some_iff.mp hu
    exact List.pairwise_iff_getElem.mp (Token.pairwise_ends_placeAll .start _) i j hi hj hij
  have hspan : NoLater t.begins t.ends := noLater_tokens (Nat.le_refl i) ht ht
  have htake := earlier_token hl (List.mem_of_getElem? ht)
  simp only [NoLater, Earlier, Token.begins, Token.ends] at hmeets hspan htake ⊢
  omega

end Lexicon

/-! ### Nodes that take columns -/

/-- Does a node that starts and ends on one line take a column, if its columns are shown as they
are? -/
def Node.Wide (n : Node) : Prop :=
  n.line = n.endLine → 1 ≤ n.column → n.endColumn < maxColumn → n.column < n.endColumn

/-- That does not hang on links. -/
theorem Node.Wide.congr {m n : Node} (hn : n.Wide) (h : m.bare = n.bare) : m.Wide := by
  have hm : m.bare.Wide := h ▸ hn
  exact hm

namespace NodeTable

variable {t u v : NodeTable} {p : Nat} {n : Node}

/-- **What it means to add nodes that take columns** to a table. -/
structure ExtendsWide (t u : NodeTable) : Prop extends t.Extends u where
  wide : ∀ q : Nat, t.size < q → u.contains q → (u.node q).Wide

namespace ExtendsWide

theorem of_size (h : t.Extends u) (hsize : u.size = t.size) : t.ExtendsWide u := by
  refine ⟨h, fun q hlt hq => ?_⟩
  have := (contains_iff.mp hq).2
  omega

theorem refl (t : NodeTable) : t.ExtendsWide t := .of_size (.refl t) rfl

theorem trans (h : t.ExtendsWide u) (h' : u.ExtendsWide v) : t.ExtendsWide v := by
  refine ⟨h.toExtends.trans h'.toExtends, fun q hlt hq => ?_⟩
  by_cases hle : q ≤ u.size
  · have hu : u.contains q := contains_iff.mpr ⟨Nat.zero_lt_of_lt hlt, hle⟩
    exact (h.wide q hlt hu).congr (h'.node q hu)
  · exact h'.wide q (Nat.lt_of_not_le hle) hq

theorem addChild (t : NodeTable) (p : Nat) (hn : n.Wide) : t.ExtendsWide (t.addChild p n).2 := by
  refine ⟨.addChild t p n, fun q hlt hq => ?_⟩
  have hsize := (sizeFile_addChild t p n).1
  rw [contains_iff] at hq
  obtain rfl : q = t.size + 1 := by omega
  exact hn.congr (bare_addChild t p n).2

end ExtendsWide

end NodeTable

open NodeTable

namespace DirectiveText

variable {d : DirectiveText} {t : ParseTree} {s : String}

/-- **The range of a tree** whose leaves stand in the order of the tokens takes a column. -/
theorem wide_rangeOf (hd : d.tokens.toList = DirectiveToken.ofText s)
    (ht : t.leaves.Pairwise (· < ·)) (hline : (d.rangeOf t).line = (d.rangeOf t).endLine)
    (hlow : 1 ≤ (d.rangeOf t).column) (hhigh : (d.rangeOf t).endColumn < maxColumn) :
    (d.rangeOf t).column < (d.rangeOf t).endColumn := by
  rcases rangeOf_cases hd ht with heq | ⟨i, j, first, last, hij, hfirst, hlast, heq⟩
  · rw [heq] at hlow
    exact absurd hlow (by decide)
  · rw [heq] at hline hhigh ⊢
    have h := Lexicon.earlier_ends DirectiveKind.consuming_lexicon hij hfirst hlast hhigh
    exact (h.resolve_left (by rw [Token.begins, Token.ends]; exact Nat.not_lt_of_ge hline.ge)).2

mutual

theorem extendsWide_record (hd : d.tokens.toList = DirectiveToken.ofText s) (table : NodeTable)
    (p : NodeId) : (t : ParseTree) → t.leaves.Pairwise (· < ·) →
      table.ExtendsWide (d.record table p t).2
  | .leaf _, _ => .refl table
  | .node kind ts, ht => by
    rw [record]
    have hwide := wide_rangeOf (t := .node kind ts) hd ht
    exact (NodeTable.ExtendsWide.addChild table p (by exact hwide)).trans
      (extendsWide_recordAll hd _ _ ts ht)

/-- **Recording trees** adds nodes that take columns. -/
theorem extendsWide_recordAll (hd : d.tokens.toList = DirectiveToken.ofText s) (table : NodeTable)
    (p : NodeId) : (ts : List ParseTree) → (ParseTree.leavesAll ts).Pairwise (· < ·) →
      table.ExtendsWide (d.recordAll table p ts)
  | [], _ => .refl table
  | t :: ts, hts => by
    obtain ⟨ht, hts, -⟩ := List.pairwise_append.mp hts
    rw [recordAll]
    exact (extendsWide_record hd table p t ht).trans (extendsWide_recordAll hd _ p ts hts)

end

end DirectiveText

/-! ### What preprocessing adds -/

namespace Preprocessing

/-- Do all nodes that there are more take columns? -/
def AddsWide (before after : PreprocessState) : Prop := before.nodes.ExtendsWide after.nodes

theorem allows_addsWide : Allows fun _ => AddsWide where
  frame _ := {
    refl := fun st => .refl st.nodes
    trans := .trans
    session := fun st _ => .refl st.nodes }
  quiet h := by
    rw [AddsWide, h.nodes]
    exact .refl _
  write _ _ st := .refl st.nodes
  inside _ _ _ _ h := h

theorem hangs_addsWide {d : DirectiveText} {s : String}
    (hd : d.tokens.toList = DirectiveToken.ofText s) {t : ParseTree}
    (ht : t ∈ (DirectiveGrammar.parse d.tokens.toList).children) :
    Hangs (fun _ => AddsWide) d t where
  record _ st _ h := by
    have hsorted := (DirectiveGrammar.tiles_parse d.tokens.toList).sorted t ht
    exact (DirectiveText.extendsWide_record hd st.nodes d.parent t hsorted).trans h
  lead p st _ := .of_size (.modify st.nodes p fun _ => rfl) (size_modify _)

end Preprocessing

open Preprocessing

/-- **What is added to the table of a text**, beginning with the node of the whole text. -/
theorem extendsWide_of_preprocessText {path text : String} {s s' : Session} {p : PreprocessedText}
    (h : preprocessText path text s = .ok p s') :
    (PreprocessState.start path text s).nodes.ExtendsWide p.nodes := by
  obtain ⟨after, hscan, -, rfl⟩ := scanFile_of_preprocessText h
  have hcomposed := composed_scanFile allows_addsWide hangs_addsWide path text s
  have hadds := hcomposed.keeps (allows_addsWide.frame 1) (.start path text s)
  rwa [hscan] at hadds

/-- **All nodes of a preprocessed text take columns**, but for the node of the whole text, whatever
the text and the files that it includes. -/
theorem wide_of_preprocessText {path text : String} {s s' : Session} {p : PreprocessedText}
    (h : preprocessText path text s = .ok p s') {id : Nat} (hid : id ≠ 1) :
    (p.nodes.node id).Wide := by
  by_cases hcontains : p.nodes.contains id
  · refine (extendsWide_of_preprocessText h).wide id ?_ hcontains
    have hone : (PreprocessState.start path text s).nodes.size = 1 := rfl
    have hpos := (contains_iff.mp hcontains).1
    omega
  · rw [Node.Wide, node_of_not_contains hcontains]
    exact fun _ hlow => absurd hlow (Nat.not_succ_le_zero 0)

/-- **The first node of a preprocessed text** ends no earlier than it starts, unless the text fills
the columns there are. -/
theorem spans_node_one_iff {path text : String} {s s' : Session} {p : PreprocessedText}
    (h : preprocessText path text s = .ok p s') :
    (p.nodes.node 1).Spans ↔ ¬FillsColumns text.toList := by
  have hbare : (p.nodes.node 1).bare = (topNode text.toList (some path)).bare :=
    (extendsWide_of_preprocessText h).node 1 (contains_iff.mpr ⟨Nat.one_pos, Nat.le_refl 1⟩)
  rw [← spans_topNode_iff text.toList (some path)]
  exact ⟨fun hspans => hspans.congr hbare.symm, fun hspans => hspans.congr hbare⟩

end Verilog
