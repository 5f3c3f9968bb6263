import Mathlib.Data.List.Pairwise
import Verilog.Proofs.Preprocess.Inclusion
import Verilog.Proofs.Syntax.Transparent

/-!
# How marks are laid out

Each piece of a text that is visited leaves one stretch: a region if it is a directive, or a macro
use in active text, and text as such if it is neither (`Lays`). The region is that of the node that
was recorded for the piece. Between its marks stands text, or, where a file is included, the
stretches that the pieces of the file leave. So regions stand in regions by inclusion only, and the
preprocessed text is made of what the pieces of the main text leave.

Nodes are numbered in the order in which regions are begun, so the numbers in the marks increase
from one begun region to the next (`Laid`), and none occurs twice.
-/

namespace Verilog

open Preprocessing Step

/-! ### Stretches without their marks -/

namespace Stretch

mutual

/-- The nodes that the marks of a stretch carry, in the order in which regions are begun. -/
def nodes : Stretch → List NodeId
  | text _ => []
  | region node inner => node :: nodesAll inner

/-- The nodes that the marks of stretches carry, in the order in which regions are begun. -/
def nodesAll : List Stretch → List NodeId
  | [] => []
  | w :: ws => w.nodes ++ nodesAll ws

end

mutual

/-- What stands in a stretch besides marks. -/
def bare : Stretch → List Char
  | text s => s
  | region _ inner => bareAll inner

/-- What stands in stretches besides marks. -/
def bareAll : List Stretch → List Char
  | [] => []
  | w :: ws => w.bare ++ bareAll ws

end

variable {marking : Bool} {limit : Nat} {ws vs : List Stretch}

@[simp] theorem nodesAll_append : nodesAll (ws ++ vs) = nodesAll ws ++ nodesAll vs := by
  induction ws with
  | nil => rfl
  | cons w ws ih => simp [nodesAll, ih]

mutual

theorem withoutMarks_written_append (t : List Char) : {w : Stretch} → w.Sound marking limit →
    withoutMarks (w.written ++ t) = w.bare ++ withoutMarks t
  | text _, h => withoutMarks_unmarked_append h t
  | region node inner, ⟨_, _, _, hin⟩ => by
    rw [written, List.append_assoc, List.append_assoc,
      withoutMarks_mark (m := (.preprocBegin, beginMark)) (.inl rfl),
      withoutMarks_writtenAll_append _ hin,
      withoutMarks_mark (m := (.preprocEnd, endMark node)) (.inr ⟨node, rfl⟩), bare]

theorem withoutMarks_writtenAll_append (t : List Char) : {ws : List Stretch} →
    SoundAll marking limit ws → withoutMarks (writtenAll ws ++ t) = bareAll ws ++ withoutMarks t
  | [], _ => rfl
  | w :: ws, ⟨hw, hws⟩ => by
    rw [writtenAll, List.append_assoc, withoutMarks_written_append _ hw,
      withoutMarks_writtenAll_append t hws, bareAll, List.append_assoc]

end

/-- **Without marks, what stands besides marks is left.** -/
theorem withoutMarks_writtenAll (h : SoundAll marking limit ws) :
    withoutMarks (writtenAll ws) = bareAll ws := by
  have hall := withoutMarks_writtenAll_append [] h
  rwa [List.append_nil, show withoutMarks [] = [] from rfl, List.append_nil] at hall

mutual

theorem Sound.bounded : {w : Stretch} → w.Sound marking limit → ∀ n ∈ w.nodes, 0 < n ∧ n ≤ limit
  | text _, _, _, h => nomatch h
  | region node _, ⟨_, hpos, hle, hin⟩, n, h => by
    rcases List.mem_cons.mp h with rfl | h
    · exact ⟨hpos, hle⟩
    · exact hin.bounded n h

theorem SoundAll.bounded : {ws : List Stretch} → SoundAll marking limit ws →
    ∀ n ∈ nodesAll ws, 0 < n ∧ n ≤ limit
  | [], _, _, h => nomatch h
  | _ :: _, ⟨hw, hws⟩, n, h => (List.mem_append.mp h).elim (hw.bounded n) (hws.bounded n)

end

end Stretch

open Stretch

/-! ### What is laid -/

/-- **The stretches between two states**: they are what was written, and their nodes were recorded
in between, in order. -/
structure Laid (before after : PreprocessState) (ws : List Stretch) : Prop where
  text : after.text.toList = before.text.toList ++ writtenAll ws
  sound : SoundAll true after.nodes.size ws
  increasing : (nodesAll ws).Pairwise (· < ·)
  fresh : ∀ n ∈ nodesAll ws, before.nodes.size < n
  nodes : before.nodes.Extends after.nodes
  state : after.Unmarked

namespace Laid

variable {before mid after : PreprocessState} {ws vs : List Stretch} {s t : List Char}

theorem trans (h : Laid before mid ws) (h' : Laid mid after vs) :
    Laid before after (ws ++ vs) := by
  refine ⟨?_, ?_, ?_, ?_, h.nodes.trans h'.nodes, h'.state⟩
  · rw [h'.text, h.text, writtenAll_append, List.append_assoc]
  · exact soundAll_append.mpr ⟨h.sound.mono h'.nodes.size, h'.sound⟩
  · -- what was begun before the middle has a number below those of what was begun after it
    rw [nodesAll_append, List.pairwise_append]
    exact ⟨h.increasing, h'.increasing, fun n hn m hm =>
      Nat.lt_of_le_of_lt (h.sound.bounded n hn).2 (h'.fresh m hm)⟩
  · intro n hn
    rw [nodesAll_append] at hn
    rcases List.mem_append.mp hn with hn | hn
    · exact h.fresh n hn
    · exact Nat.lt_of_le_of_lt h.nodes.size (h'.fresh n hn)

/-- A step that writes no marks. -/
theorem of_text (hs : Unmarked s) (ht : after.text.toList = before.text.toList ++ s)
    (hnodes : before.nodes.Extends after.nodes) (hstate : after.Unmarked) :
    Laid before after [.text s] :=
  ⟨by rw [ht]; simp [writtenAll, Stretch.written], ⟨hs, trivial⟩, .nil, nofun, hnodes, hstate⟩

theorem refl (h : before.Unmarked) : Laid before before [] :=
  ⟨by simp [writtenAll], trivial, .nil, nofun, .refl _, h⟩

/-- Texts next to each other are one text. -/
theorem texts (h : Laid before mid [.text s]) (h' : Laid mid after [.text t]) :
    Laid before after [.text (s ++ t)] := by
  have hall := h.trans h'
  exact ⟨by simpa [writtenAll, Stretch.written] using hall.text,
    ⟨Unmarked.append.mpr ⟨h.sound.1, h'.sound.1⟩, trivial⟩, .nil, nofun, hall.nodes, hall.state⟩

end Laid

/-- A step that changes nothing of what is laid. -/
theorem Laid.of_eq {before after : PreprocessState} (ht : after.text = before.text)
    (hnodes : after.nodes = before.nodes) (hstate : after.Unmarked) : Laid before after [] :=
  ⟨by simp [ht, writtenAll], trivial, .nil, nofun, hnodes ▸ .refl _, hstate⟩

/-- What a program writes that makes no marks is a text. -/
theorem Preprocessing.WritesFrom.laid {α : Type} {x : Preprocessing α} {a : α} {ahead : Nat}
    {Q : α → Prop} {st after : PreprocessState} (hx : WritesFrom ahead false x Q)
    (hst : st.Unmarked) (h : x st = .ok a after) : (∃ s, Laid st after [.text s]) ∧ Q a := by
  have hends := hx st hst
  rw [h] at hends
  obtain ⟨⟨hstate, hnodes, ⟨ws, htext, hsound, -⟩, -, -⟩, ha⟩ := hends
  exact ⟨⟨_, .of_text hsound.unmarked htext hnodes hstate⟩, ha⟩

/-! ### The nodes of pieces -/

/-- The node that is recorded for a tree over a text, before it is linked to others. -/
def DirectiveText.nodeOf (d : DirectiveText) (kind : NodeKind) (ts : List ParseTree) : Node :=
  let t := ParseTree.node kind ts
  let range := d.rangeOf t
  { name := d.nodeName kind t, kind, file := d.file, line := range.line, column := range.column,
    endLine := range.endLine, endColumn := range.endColumn }

/-- Is a node of a table that of a piece of a text, of its name and kind, and in its place? -/
structure NodeTable.IsPiece (nodes : NodeTable) (d : DirectiveText) (node : NodeId)
    (t : ParseTree) : Prop where
  contains : nodes.contains node
  bare : ∃ kind ts, t = .node kind ts ∧ (nodes.node node).bare = d.nodeOf kind ts

theorem NodeTable.IsPiece.mono {nodes more : NodeTable} {d : DirectiveText} {node : NodeId}
    {t : ParseTree} (h : nodes.IsPiece d node t) (hext : nodes.Extends more) :
    more.IsPiece d node t := by
  obtain ⟨kind, ts, ht, hbare⟩ := h.bare
  exact ⟨hext.contains h.contains, kind, ts, ht, (hext.node node h.contains).trans hbare⟩

/-- The first node that is recorded is that of the piece. -/
theorem DirectiveText.isPiece_record (d : DirectiveText) (table : NodeTable) (parent : NodeId)
    (kind : NodeKind) (ts : List ParseTree) :
    (d.record table parent (.node kind ts)).1 = table.size + 1 ∧
      (d.record table parent (.node kind ts)).2.IsPiece d (table.size + 1) (.node kind ts) := by
  rw [record]
  obtain ⟨hid, hbare⟩ := NodeTable.bare_addChild table parent (d.nodeOf kind ts)
  have hin : (table.addChild parent (d.nodeOf kind ts)).2.contains (table.size + 1) := by
    rw [NodeTable.contains_iff, (NodeTable.sizeFile_addChild _ _ _).1]
    exact ⟨Nat.succ_pos _, Nat.le_refl _⟩
  have hext := d.extends_recordAll (table.addChild parent (d.nodeOf kind ts)).2
    (table.addChild parent (d.nodeOf kind ts)).1 ts
  exact ⟨hid, hext.contains hin, kind, ts, rfl, (hext.node _ hin).trans hbare⟩

/-- Is a piece one whose text stands between marks: a directive, or a macro use in active text? -/
def Visit.isWrapped (v : Visit) : Bool :=
  v.piece.kind?.any fun kind => kind.isDirective || kind.isMacroUse && v.scope.conditions.active

/-- Is a stretch what the visit of a piece has left? A piece that is wrapped leaves the region of
its node, with such parts between the marks. -/
def LaysAs (parts : List Stretch → Prop) (nodes : NodeTable) (d : DirectiveText) (v : Visit)
    (w : Stretch) : Prop :=
  v.after.text.toList = v.before.text.toList ++ w.written ∧
    match w with
    | .text _ => v.isWrapped = false
    | .region node inner =>
      v.isWrapped = true ∧ nodes.IsPiece d node v.piece ∧ parts inner

/-- **Is a stretch what the visit of a piece has left**, where inclusions nest so deep? Between the
marks of a directive that included a file stands what the pieces of the file have left, each of
which was visited, with text before and behind it. Between all other marks stands text. -/
def Lays (includeDirs : List String) (nodes : NodeTable) :
    Nat → DirectiveText → Visit → Stretch → Prop
  | 0, d, v => LaysAs (fun inner => ∃ s, inner = [.text s]) nodes d v
  | depth + 1, d, v => LaysAs (match d.inclusion? includeDirs v with
      | none => fun inner => ∃ s, inner = [.text s]
      | some (d', st) => fun inner => ∃ front ws back,
        inner = .text front :: (ws ++ [.text back]) ∧
        st.text.toList = v.before.text.toList ++ beginMark ++ front ∧
        let vs := d'.visits expandText (includeWithin includeDirs depth) d'.pieces {} st
        vs.map (·.piece) = d'.pieces ∧ List.Forall₂ (Lays includeDirs nodes depth d') vs ws)
      nodes d v

/-! ### Pieces -/

namespace DirectiveText

variable {d : DirectiveText} {t : ParseTree} {expand : Expander} {includer : Includer}
  {scope scope' : ScanScope} {st mid after : PreprocessState}

/-- **What is laid between the marks of a piece is its region**, with the line feeds of the piece at
the end. -/
theorem laid_region {kind : NodeKind} {ts : List ParseTree} (ws : List Stretch) {s : List Char}
    (h : Laid (d.begun true (.node kind ts) st) mid (ws ++ [.text s])) :
    let node := (d.record st.nodes d.parent (.node kind ts)).1
    let back := s ++ List.replicate (d.newlinesIn (.node kind ts)) '\n'
    Laid st (d.ended true node (.node kind ts) mid) [.region node (ws ++ [.text back])] ∧
      mid.nodes.IsPiece d node (.node kind ts) := by
  intro node back
  obtain ⟨hid, hfirst⟩ := d.isPiece_record st.nodes d.parent kind ts
  have hnode : node = st.nodes.size + 1 := hid
  have hpiece : mid.nodes.IsPiece d node (.node kind ts) := hnode ▸ hfirst.mono h.nodes
  have hlt : st.nodes.size < node := hnode ▸ Nat.lt_succ_self _
  obtain ⟨hws, hs, -⟩ := soundAll_append.mp h.sound
  have hsound : SoundAll true mid.nodes.size (ws ++ [.text back]) :=
    soundAll_append.mpr ⟨hws, Unmarked.append.mpr ⟨hs, Unmarked.replicate_newline _⟩, trivial⟩
  have hnodes (s : List Char) : nodesAll (ws ++ [.text s]) = nodesAll ws := by
    simp [nodesAll, nodes]
  -- the node of the region is recorded first, and those of the regions in it later
  have hlater : ∀ n ∈ nodesAll ws, node < n := by
    intro n hn
    refine Nat.lt_of_le_of_lt ?_ (h.fresh n (by rwa [hnodes]))
    exact hnode ▸ (NodeTable.contains_iff.mp hfirst.contains).2
  have hincreasing := h.increasing
  rw [hnodes] at hincreasing
  refine ⟨⟨?_, ⟨⟨rfl, Nat.zero_lt_of_lt hlt, ?_, hsound⟩, trivial⟩, ?_, ?_, ?_, ?_⟩, hpiece⟩
  · have htext := h.text
    simp [begun, writtenAll, Stretch.written] at htext
    simp [ended, writtenAll, Stretch.written, htext, back]
  · exact (NodeTable.contains_iff.mp hpiece.contains).2
  · rw [nodesAll, nodes, hnodes, nodesAll, List.append_nil]
    exact List.pairwise_cons.mpr ⟨hlater, hincreasing⟩
  · intro n hn
    rw [nodesAll, nodes, hnodes, nodesAll, List.append_nil] at hn
    rcases List.mem_cons.mp hn with rfl | hn
    · exact hlt
    · exact Nat.lt_trans hlt (hlater n hn)
  · exact (d.extends_record st.nodes d.parent (.node kind ts)).trans h.nodes
  · exact ⟨h.state.session, h.state.macros⟩

/-- **A piece that is not wrapped** leaves text. -/
theorem exists_laid_plain (hd : d.Unmarked) (hr : d.recording = true) (hst : st.Unmarked)
    (hplain : Visit.isWrapped ⟨t, scope, st, after⟩ = false)
    (h : d.scanPiece expand includer scope t st = .ok scope' after) :
    (∃ s, Laid st after [.text s]) ∧ scope' = scope := by
  cases t with
  | leaf i =>
    have hcopy : Writes false (d.scanPiece expand includer scope (.leaf i)) (· = scope) :=
      (writes_copyToken hd i).bind fun _ _ => .pure rfl
    exact hcopy.laid hst h
  | node kind ts =>
    have hplain : (kind.isDirective || kind.isMacroUse && scope.conditions.active) = false := hplain
    rw [Bool.or_eq_false_iff] at hplain
    cases huse : kind.isMacroUse with
    | true =>
      -- a macro use in inactive text leaves its line feeds
      have hactive : scope.conditions.active = false := by simpa [huse] using hplain.2
      rw [scanPiece_use hr huse, hactive] at h
      obtain ⟨rfl, rfl⟩ := EStateM.Result.ok.inj h
      refine ⟨⟨_, .of_text (Unmarked.replicate_newline (d.newlinesIn (.node kind ts))) ?_
        (d.extends_record st.nodes d.parent (.node kind ts)) ⟨hst.session, hst.macros⟩⟩, rfl⟩
      simp [ended, begun]
    | false =>
      have hcopy : Writes false (d.scanPiece expand includer scope (.node kind ts))
        (· = scope) := by
        unfold scanPiece
        simp only [hplain.1, huse, Bool.false_eq_true, if_false]
        exact (WritesFrom.forM fun i _ => writes_copyToken hd i).bind fun _ _ => .pure rfl
      exact hcopy.laid hst h

/-- **A piece that is wrapped**, but includes nothing, leaves a region with text in it. -/
theorem exists_laid_wrapped (hd : d.Unmarked) (hr : d.recording = true) (he : Expands expand)
    (hi : Includes false includer) (hs : scope.Unmarked) (hst : st.Unmarked)
    (hwrapped : Visit.isWrapped ⟨t, scope, st, after⟩ = true)
    (h : d.scanPiece expand includer scope t st = .ok scope' after) :
    ∃ node s, Laid st after [.region node [.text s]] ∧ after.nodes.IsPiece d node t ∧
      scope'.Unmarked := by
  cases t with
  | leaf i => cases hwrapped
  | node kind ts =>
    have hbegun : (d.begun true (.node kind ts) st).Unmarked := ⟨hst.session, hst.macros⟩
    cases hk : kind.isDirective with
    | true =>
      rw [scanPiece_directive hr hk] at h
      dsimp only at h
      split at h
      · rename_i scope' mid hdo
        obtain ⟨rfl, rfl⟩ := EStateM.Result.ok.inj h
        obtain ⟨⟨s, htext⟩, hscope⟩ := (writes_doDirective hd he hi hs kind _).laid hbegun hdo
        obtain ⟨hlaid, hpiece⟩ := laid_region [] htext
        exact ⟨_, _, hlaid, hpiece, hscope⟩
      · cases h
    | false =>
      have huse : (kind.isDirective || kind.isMacroUse && scope.conditions.active) = true :=
        hwrapped
      rw [hk, Bool.false_or, Bool.and_eq_true] at huse
      rw [scanPiece_use hr huse.1, huse.2] at h
      dsimp only at h
      split at h
      · rename_i mid hdo
        obtain ⟨rfl, rfl⟩ := EStateM.Result.ok.inj h
        obtain ⟨⟨s, htext⟩, -⟩ := (writes_doUse hd he true _).laid hbegun hdo
        obtain ⟨hlaid, hpiece⟩ := laid_region [] htext
        exact ⟨_, _, hlaid, hpiece, hs⟩
      · cases h

end DirectiveText

/-! ### All pieces -/

section

variable {includeDirs : List String} {nodes more : NodeTable} {d : DirectiveText} {v : Visit}
  {w : Stretch}

theorem LaysAs.mono {P Q : List Stretch → Prop} (h : LaysAs P nodes d v w)
    (hext : nodes.Extends more) (hPQ : ∀ inner, P inner → Q inner) : LaysAs Q more d v w := by
  obtain ⟨htext, h⟩ := h
  refine ⟨htext, ?_⟩
  cases w with
  | text s => exact h
  | region node inner => exact ⟨h.1, h.2.1.mono hext, hPQ inner h.2.2⟩

/-- What is laid stays so when nodes are added. -/
theorem Lays.mono (hext : nodes.Extends more) {depth : Nat}
    (h : Lays includeDirs nodes depth d v w) : Lays includeDirs more depth d v w := by
  induction depth generalizing d v w with
  | zero => exact LaysAs.mono h hext fun _ => id
  | succ depth ih =>
    refine LaysAs.mono h hext fun inner hinner => ?_
    cases hinc : d.inclusion? includeDirs v with
    | none =>
      rw [hinc] at hinner
      exact hinner
    | some x =>
      rw [hinc] at hinner
      obtain ⟨front, ws, back, rfl, htext, hpieces, hall⟩ := hinner
      exact ⟨front, ws, back, rfl, htext, hpieces, hall.imp fun _ _ => ih⟩

end

/-- Does each piece of a text that is scanned leave what it should, where inclusions nest so
deep? -/
def LaysAll (includeDirs : List String) (depth : Nat) : Prop :=
  ∀ (d : DirectiveText) ts scope st scope' after, d.Unmarked → d.recording = true →
    scope.Unmarked → st.Unmarked →
    ts.foldlM (d.scanPiece expandText (includeWithin includeDirs depth)) scope st =
      .ok scope' after →
    let vs := d.visits expandText (includeWithin includeDirs depth) ts scope st
    vs.map (·.piece) = ts ∧
      ∃ ws, Laid st after ws ∧ List.Forall₂ (Lays includeDirs after.nodes depth d) vs ws

section

variable {includeDirs : List String} {depth : Nat} {d : DirectiveText} {t : ParseTree}
  {scope scope' : ScanScope} {st after : PreprocessState}

/-- Reporting open chains writes nothing. -/
theorem DirectiveText.laid_reportOpenChains (hd : d.Unmarked) (hst : st.Unmarked)
    {cs : Conditionals} (h : d.reportOpenChains cs st = .ok () after) : Laid st after [] := by
  have hquiet := (composed_reportOpenChains (d := d) (F := Session.UpToStopping) cs).keeps
    frame_quiet st
  obtain ⟨⟨s, hlaid⟩, -⟩ := (writes_reportOpenChains hd cs).laid hst h
  rw [h] at hquiet
  exact .of_eq hquiet.text hquiet.nodes hlaid.state

/-- **What is laid where a text is included**: text, the stretches of the included text, and text,
in the region of the directive. -/
theorem exists_laid_inclusion (hdirs : ∀ dir ∈ includeDirs, Unmarked dir.toList)
    (hall : LaysAll includeDirs depth) (hd : d.Unmarked) (hr : d.recording = true)
    (hst : st.Unmarked) {d' : DirectiveText} {inner : PreprocessState}
    (hinc : d.inclusion? includeDirs ⟨t, scope, st, after⟩ = some (d', inner))
    (h : d.scanPiece expandText (includeWithin includeDirs (depth + 1)) scope t st =
      .ok scope' after) :
    scope' = scope ∧ ∃ node front ws back,
      Laid st after [.region node (.text front :: (ws ++ [.text back]))] ∧
      after.nodes.IsPiece d node t ∧
      inner.text.toList = st.text.toList ++ beginMark ++ front ∧
      let vs := d'.visits expandText (includeWithin includeDirs depth) d'.pieces {} inner
      vs.map (·.piece) = d'.pieces ∧
        List.Forall₂ (Lays includeDirs after.nodes depth d') vs ws := by
  obtain ⟨ts, name, mid, rfl, hactive, hname, hout, hrun⟩ :=
    DirectiveText.scanPiece_of_inclusion hr hinc
  rw [hrun] at h
  split at h
  · rename_i back hscan
    obtain ⟨rfl, rfl⟩ := EStateM.Result.ok.inj h
    have hbegun : (d.begun true (.node .ppIncludeDirective ts) st).Unmarked :=
      ⟨hst.session, hst.macros⟩
    -- the name is found, and a line begun for the inclusion
    obtain ⟨⟨s, hfront⟩, hunmarked⟩ :=
      (DirectiveText.writes_includedName hd (expands_expandWithin _)).laid hbegun hname
    have hasking : Laid mid (d.asking (.node .ppIncludeDirective ts)
        (d.record st.nodes d.parent (.node .ppIncludeDirective ts)).1 name mid)
        [.text ['\n']] :=
      .of_text (by decide) (by simp [DirectiveText.asking]) (.refl _)
        ⟨hfront.state.session, hfront.state.macros⟩
    have houtcome := IncludeRequest.unmarked_outcome hdirs
      (r := d.requestFor (.node .ppIncludeDirective ts)
        (d.record st.nodes d.parent (.node .ppIncludeDirective ts)).1 name)
      ⟨hd.file, hunmarked name rfl⟩ hasking.state
    rw [hout] at houtcome
    obtain ⟨hd', hr', hinner, htext, hnodes⟩ := houtcome
    have hinside := Laid.of_eq htext hnodes hinner
    -- the included text is scanned
    obtain ⟨last, behind, hfold, hopen⟩ := DirectiveText.scan_eq_ok hscan
    obtain ⟨hpieces, ws, hws, hlays⟩ := hall d' d'.pieces {} inner last behind hd' hr'
      ScanScope.unmarked_empty hinner hfold
    have hchains := DirectiveText.laid_reportOpenChains hd' hws.state hopen
    -- the lines of the text go on
    let restored : PreprocessState := { back with including := mid.including }
    have hresumed : Laid back (d.resumed scope (.node .ppIncludeDirective ts) mid.includes.size
        d'.file restored) [.text (DirectiveText.missingFeed back.text).toList] := by
      refine .of_text ?_ (by simp [DirectiveText.resumed, restored]) (.refl _)
        ⟨hchains.state.session, hchains.state.macros⟩
      rw [DirectiveText.missingFeed]
      split <;> decide
    obtain ⟨hregion, hpiece⟩ := DirectiveText.laid_region _
      (((hfront.texts hasking).trans (hinside.trans (hws.trans hchains))).trans hresumed)
    simp only [List.append_nil, List.nil_append, List.cons_append] at hregion
    refine ⟨rfl, _, _, ws, _, hregion, hpiece, ?_, hpieces, ?_⟩
    · rw [htext]
      have hbegin := (hfront.texts hasking).text
      simpa [DirectiveText.begun, writtenAll, Stretch.written] using hbegin
    · exact hlays.imp fun _ _ hv => hv.mono ((hchains.trans hresumed).nodes)
  · cases h

/-- **A piece of a text** leaves what it should. -/
theorem exists_lays_piece (hdirs : ∀ dir ∈ includeDirs, Unmarked dir.toList)
    (hall : ∀ less, depth = less + 1 → LaysAll includeDirs less) (hd : d.Unmarked)
    (hr : d.recording = true) (hs : scope.Unmarked) (hst : st.Unmarked)
    (h : d.scanPiece expandText (includeWithin includeDirs depth) scope t st = .ok scope' after) :
    ∃ w, Laid st after [w] ∧ Lays includeDirs after.nodes depth d ⟨t, scope, st, after⟩ w ∧
      scope'.Unmarked := by
  have htext {w : Stretch} (hlaid : Laid st after [w]) :
      after.text.toList = st.text.toList ++ w.written := by
    simpa [writtenAll] using hlaid.text
  cases hwrapped : Visit.isWrapped ⟨t, scope, st, after⟩ with
  | false =>
    obtain ⟨⟨s, hlaid⟩, rfl⟩ := DirectiveText.exists_laid_plain hd hr hst hwrapped h
    refine ⟨.text s, hlaid, ?_, hs⟩
    cases depth <;> exact ⟨htext hlaid, hwrapped⟩
  | true =>
    cases depth with
    | zero =>
      have hnone : Includes false (includeWithin includeDirs 0) := fun _ _ => .pure trivial
      obtain ⟨node, s, hlaid, hpiece, hscope⟩ := DirectiveText.exists_laid_wrapped hd hr
        (expands_expandWithin _) hnone hs hst hwrapped h
      exact ⟨.region node [.text s], hlaid, ⟨htext hlaid, hwrapped, hpiece, s, rfl⟩, hscope⟩
    | succ depth =>
      cases hinc : d.inclusion? includeDirs ⟨t, scope, st, after⟩ with
      | none =>
        rw [DirectiveText.scanPiece_of_no_inclusion hr hinc] at h
        obtain ⟨node, s, hlaid, hpiece, hscope⟩ := DirectiveText.exists_laid_wrapped hd hr
          (expands_expandWithin _) (includes_refusing hdirs) hs hst hwrapped h
        refine ⟨.region node [.text s], hlaid, ⟨htext hlaid, hwrapped, hpiece, ?_⟩, hscope⟩
        rw [hinc]
        exact ⟨s, rfl⟩
      | some x =>
        obtain ⟨d', inner⟩ := x
        obtain ⟨rfl, node, front, ws, back, hlaid, hpiece, hinner, hvisits⟩ :=
          exists_laid_inclusion hdirs (hall depth rfl) hd hr hst hinc h
        refine ⟨_, hlaid, ⟨htext hlaid, hwrapped, hpiece, ?_⟩, hs⟩
        rw [hinc]
        exact ⟨front, ws, back, rfl, hinner, hvisits⟩

end

/-- **All pieces of a text** leave what they should, however deep inclusions nest. -/
theorem laysAll {includeDirs : List String} (hdirs : ∀ dir ∈ includeDirs, Unmarked dir.toList)
    (depth : Nat) : LaysAll includeDirs depth := by
  induction depth using Nat.strong_induction_on with
  | _ depth ih =>
    intro d ts scope st scope' after hd hr hs hst h
    -- the induction is on the pieces, each of which goes on from the state after those before it
    induction ts generalizing scope st with
    | nil =>
      obtain ⟨rfl, rfl⟩ := EStateM.Result.ok.inj h
      exact ⟨rfl, [], .refl hst, .nil⟩
    | cons t ts ihts =>
      rw [List.foldlM_cons] at h
      obtain ⟨next, mid, hpiece, hrest⟩ := exists_of_bind h
      obtain ⟨w, hw, hlays, hnext⟩ := exists_lays_piece hdirs
        (fun less hless => ih less (by omega)) hd hr hs hst hpiece
      obtain ⟨hmap, ws, hws, hall⟩ := ihts next mid hnext hw.state hrest
      have hvisits : d.visits expandText (includeWithin includeDirs depth) (t :: ts) scope st =
          ⟨t, scope, st, mid⟩ ::
            d.visits expandText (includeWithin includeDirs depth) ts next mid := by
        rw [DirectiveText.visits, hpiece]
      rw [hvisits]
      exact ⟨by simp [hmap], w :: ws, hw.trans hws, .cons (hlays.mono hws.nodes) hall⟩

/-! ### The main text -/

/-- The visits of the pieces of a text that is preprocessed. -/
def mainVisits (path text : String) (s : Session) : List Visit :=
  let d := DirectiveText.ofText text (some path) 1 true
  d.visits expandText (includeWithin s.config.includeDirs (s.files.entries.length + 1)) d.pieces {}
    (.start path text s)

/-- **How the marks of a preprocessed text are laid out**, where the delimiter of marks stands in no
text, path, initial definition or waiting message. The text is made of what the pieces of the main
text leave, each of which is visited: a directive leaves a region, and so does a macro use if it is
active, and only then; in a region there are regions only of what a directive includes. The
delimiter stands in the marks of the regions and nowhere else. Each of them carries the number of
the node of its directive or use, no two of them the same; numbers of nodes have no more bits than
are read back from a mark, so each is read back, and the marks nest. Without its marks the text is
what stands besides marks, in order. -/
theorem marks_disciplined (path text : String) (s : Session) (hs : s.Unmarked)
    (hp : Unmarked path.toList) (ht : Unmarked text.toList) {p : PreprocessedText} {s' : Session}
    (h : preprocessText path text s = .ok p s') :
    let d := DirectiveText.ofText text (some path) 1 true
    let vs := mainVisits path text s
    vs.map (·.piece) = d.pieces ∧
      ∃ ws, List.Forall₂
          (Lays s.config.includeDirs p.nodes (s.files.entries.length + 1) d) vs ws ∧
        p.text.toList = writtenAll ws ∧ SoundAll true p.nodes.size ws ∧
        MarkedBy p.text.toList (marksAll ws) ∧ (nodesAll ws).Nodup ∧
        (∀ node ∈ nodesAll ws, p.nodes.contains node) ∧
        (p.nodes.size < wordCount markLimitBits → Nested (marksAll ws) 0 ∧
          ∀ node ∈ nodesAll ws, readEndMark? (endMark node) = some node) ∧
        p.stripped = String.ofList (bareAll ws) := by
  intro d vs
  obtain ⟨after, hscan, -, rfl⟩ := scanFile_of_preprocessText h
  obtain ⟨scope, mid, hfold, hopen⟩ := DirectiveText.scan_eq_ok hscan
  have hd : d.Unmarked := DirectiveText.unmarked_ofText 1 true ht (Unmarked.InSome.some hp).nameText
  have hmacros : MacroTable.Unmarked {} := by simp [MacroTable.Unmarked]
  have hstart : (PreprocessState.start path text s).Unmarked := ⟨hs, hmacros.defineAll hs.defines⟩
  obtain ⟨hpieces, ws, hws, hlays⟩ := laysAll hs.includeDirs _ d d.pieces {} _ scope mid hd rfl
    ScanScope.unmarked_empty hstart hfold
  have hchains := DirectiveText.laid_reportOpenChains hd hws.state hopen
  have hlaid : Laid (.start path text s) after ws := by simpa using hws.trans hchains
  have htext : after.text.toList = writtenAll ws := by
    simpa [PreprocessState.start] using hlaid.text
  have hnil : Nested [] 0 := rfl
  refine ⟨hpieces, ws, hlays.imp fun _ _ hv => hv.mono hchains.nodes, htext, hlaid.sound, ?_, ?_,
    ?_, fun hlimit => ⟨?_, ?_⟩, ?_⟩
  · rw [htext]
    exact markedBy_writtenAll hlaid.sound
  · exact hlaid.increasing.imp Nat.ne_of_lt
  · intro node hnode
    exact NodeTable.contains_iff.mpr (hlaid.sound.bounded node hnode)
  · simpa using nested_marksAll hlimit hlaid.sound hnil
  · intro node hnode
    exact readEndMark?_endMark (Nat.lt_of_le_of_lt (hlaid.sound.bounded node hnode).2 hlimit)
  · rw [PreprocessedText.stripped]
    exact congrArg String.ofList (htext ▸ withoutMarks_writtenAll hlaid.sound)

/-- A text with directives, an active and an inactive use. -/
def usedTwice : String := "`define W 4\n`ifdef B\n`W\n`endif\n`W\n"

theorem marks_disciplined_usedTwice :
    bareSession.Unmarked ∧ Unmarked "test.sv".toList ∧ Unmarked usedTwice.toList ∧
      ∃ p s' ws, preprocessText "test.sv" usedTwice bareSession = .ok p s' ∧
        List.Forall₂ (Lays [] p.nodes (bareSession.files.entries.length + 1)
          (.ofText usedTwice (some "test.sv") 1 true)) (mainVisits "test.sv" usedTwice bareSession)
          ws ∧
        p.text.toList = writtenAll ws ∧ Nested (marksAll ws) 0 ∧
        p.stripped = "\n\n\n\n4\n" ∧ p.stripped = String.ofList (bareAll ws) := by
  have hp : Unmarked "test.sv".toList := by decide
  have ht : Unmarked usedTwice.toList := by decide
  obtain ⟨p, s', hpre, htest⟩ := exists_of_preprocesses usedTwice
    (fun p => decide (p.nodes.size < wordCount markLimitBits ∧ p.stripped = "\n\n\n\n4\n"))
    (by decide +kernel)
  obtain ⟨hlimit, hstripped⟩ := of_decide_eq_true htest
  obtain ⟨-, ws, hlays, htext, -, -, -, -, hmarks, hbare⟩ :=
    marks_disciplined "test.sv" usedTwice bareSession unmarked_bareSession hp ht hpre
  exact ⟨unmarked_bareSession, hp, ht, p, s', ws, hpre, hlays, htext, (hmarks hlimit).1, hstripped,
    hbare⟩

/-- Does what a text is preprocessed to in a session pass a test? -/
def preprocessesIn (s : Session) (text : String) (test : PreprocessedText → Bool) : Bool :=
  match preprocessText "test.sv" text s with
  | .ok p _ => test p
  | .error _ _ => false

theorem exists_of_preprocessesIn (s : Session) (text : String) (test : PreprocessedText → Bool)
    (h : preprocessesIn s text test = true) :
    ∃ p s', preprocessText "test.sv" text s = .ok p s' ∧ test p = true := by
  unfold preprocessesIn at h
  split at h
  · exact ⟨_, _, ‹_›, h⟩
  · cases h

/-- A session in which a macro stands for the delimiter of marks. -/
def delimiterDefined : Session := .ofDefines ⟨[("A", "\u0001")]⟩

/-- A text in which a macro gives the name of a file, which is not there. -/
def includedByUse : String := "`define F \"a.sv\"\n`include `F\n"

/-- **Where marks are not laid out so.** A macro that is defined to begin with may stand for a
delimiter: then delimiters are left that make no mark, and the text without marks is not what stands
besides them. And the macro use that gives the name of a file is active, but stands in the region of
its directive and has none of its own. -/
theorem delimiterDefined_marks :
    (delimiterDefined.files.Unmarked ∧ Unmarked "test.sv".toList ∧ Unmarked "`A\n".toList ∧
      ∃ p s', preprocessText "test.sv" "`A\n" delimiterDefined = .ok p s' ∧
        (∀ ms, ¬MarkedBy p.text.toList ms) ∧ p.stripped = "PPE2\n") ∧
    bareSession.Unmarked ∧ Unmarked includedByUse.toList ∧
      ∃ p s', preprocessText "test.sv" includedByUse bareSession = .ok p s' ∧
      (p.nodes.node 6).kind = .ppMacroInstanceNoArgs ∧
      p.text.toList = writtenAll [.region 2 [], .text ['\n'], .region 5 [.text ['\n']],
        .text ['\n']] := by
  refine ⟨⟨by simp [delimiterDefined, Session.ofDefines, FileStore.Unmarked, FileStore.empty],
    by decide, by decide, ?_⟩, unmarked_bareSession, by decide, ?_⟩
  · obtain ⟨p, s', hpre, htest⟩ := exists_of_preprocessesIn delimiterDefined "`A\n"
      (fun p => decide (p.text.toList.count markDelimiter = 5 ∧ p.stripped = "PPE2\n"))
      (by decide +kernel)
    obtain ⟨hcount, hstripped⟩ := of_decide_eq_true htest
    refine ⟨p, s', hpre, fun ms hms => ?_, hstripped⟩
    -- marks have two delimiters each
    have htwo := hms.count_eq
    omega
  · obtain ⟨p, s', hpre, htest⟩ := exists_of_preprocesses includedByUse (fun p => decide
        ((p.nodes.node 6).kind = .ppMacroInstanceNoArgs ∧
          p.text.toList = writtenAll [.region 2 [], .text ['\n'], .region 5 [.text ['\n']],
            .text ['\n']])) (by decide +kernel)
    obtain ⟨hkind, htext⟩ := of_decide_eq_true htest
    exact ⟨p, s', hpre, hkind, htext⟩

end Verilog
