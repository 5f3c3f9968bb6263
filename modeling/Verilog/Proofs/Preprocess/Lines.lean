import Mathlib.Algebra.GroupWithZero.Nat
import Verilog.Proofs.Directive.Pieces
import Verilog.Proofs.Preprocess.Branch
import Verilog.Proofs.Preprocess.Plain
import Verilog.Proofs.Source.Mark
import Verilog.Proofs.Syntax.Marks

/-!
# One line for each line

Where no file is included, what comes out of preprocessing has the lines of what went in: in front
of every piece of a text there are as many line feeds in the text that came out as in the text
before the piece. A piece that is copied brings its own line feeds. A directive or use writes
nothing but text on one line between its marks, and then makes up for the lines that it takes
(`Preprocessing.Feeds`).

That the line is counted in step with the text (`Preprocessing.StaysInStep`) holds of every single
step, for whatever text: only an expansion has a text of its own, and it is put back as a whole.
-/

namespace Verilog

open Preprocessing Session Step

/-! ### Counting the lines -/

/-- Is the line the one behind the line feeds of the text? -/
def PreprocessState.InStep (st : PreprocessState) : Prop := st.line = 1 + newlines st.text.toList

/-- Does a state come out of so much text, line by line? -/
structure PreprocessState.Behind (st : PreprocessState) (s : List Char) : Prop where
  newlines : newlines st.text.toList = Verilog.newlines s
  inStep : st.InStep

namespace Preprocessing

/-- Is the line in step afterwards if it was before? -/
def StaysInStep (before after : PreprocessState) : Prop := before.InStep → after.InStep

theorem allows_staysInStep : Allows fun _ => StaysInStep where
  frame _ := {
    refl := fun _ => id
    trans := fun h h' hst => h' (h hst)
    session := fun _ _ => id }
  quiet h hst := by rw [PreprocessState.InStep, h.line, h.text]; exact hst
  write _ s st hst := by
    have hst : st.line = 1 + newlines st.text.toList := hst
    simp [PreprocessState.InStep, written, hst, Nat.add_assoc]
  inside _ _ _ _ h := h

theorem hangs_staysInStep (d : DirectiveText) (t : ParseTree) : Hangs (fun _ => StaysInStep) d t :=
  .of_blind (allows_staysInStep.frame 0) (fun _ _ => id) d t

variable {α β : Type} {F : Session → Session → Prop}

/-- Has the text as many line feeds as before? -/
def SameLines (before after : PreprocessState) : Prop :=
  newlines after.text.toList = newlines before.text.toList

theorem frame_sameLines : Frame SameLines where
  refl _ := rfl
  trans h h' := h'.trans h
  session _ _ := rfl

theorem SameLines.of_quiet {before after : PreprocessState} (h : Quiet before after) :
    SameLines before after := congrArg (fun s : String => newlines s.toList) h.text

theorem sameLines_written {s : String} (hs : '\n' ∉ s.toList) (st : PreprocessState) :
    SameLines st (written s st) := by
  simp [SameLines, written, newlines, List.count_eq_zero.mpr hs]

/-- Does a program that ends with a result add so many line feeds to the text? -/
def Feeds (n : Nat) (x : Preprocessing α) : Prop :=
  ∀ st a after, x st = .ok a after →
    newlines after.text.toList = newlines st.text.toList + n

namespace Feeds

variable {m n : Nat} {x : Preprocessing α}

theorem of_composed (hx : Composed F SameLines x) : Feeds 0 x := by
  intro st a after h
  have hkeeps := hx.keeps frame_sameLines st
  rw [h] at hkeeps
  exact hkeeps

theorem of_quiet (hx : Composed F Quiet x) : Feeds 0 x :=
  of_composed (hx.mono fun _ _ => .of_quiet)

theorem pure (a : α) : Feeds 0 (pure a : Preprocessing α) := by
  intro st b after h
  cases h
  rfl

theorem bind {f : α → Preprocessing β} (hx : Feeds m x) (hf : ∀ a, Feeds n (f a)) :
    Feeds (m + n) (x >>= f) := by
  intro st b after h
  obtain ⟨a, mid, hmid, h⟩ := exists_of_bind h
  rw [hf a mid b after h, hx st a mid hmid, Nat.add_assoc]

/-- A program without line feeds in front. -/
theorem bind_zero {f : α → Preprocessing β} (hx : Feeds 0 x) (hf : ∀ a, Feeds n (f a)) :
    Feeds n (x >>= f) := by
  simpa using hx.bind hf

theorem emit (s : String) : Feeds (newlines s.toList) (emit s) := by
  intro st a after h
  cases h
  simp

theorem emitNewlines (n : Nat) : Feeds n (emitNewlines n) := by
  have h := emit (String.ofList (List.replicate n '\n'))
  rwa [String.toList_ofList, newlines, List.count_replicate_self] at h

/-- A result that is not made of line feeds. -/
theorem andReturn (hx : Feeds n x) (f : α → β) : Feeds n (do let a ← x; return f a) := by
  simpa using hx.bind fun a => pure (f a)

end Feeds

end Preprocessing

/-! ### Pieces -/

namespace DirectiveText

variable {d : DirectiveText} {t : ParseTree} {expand : Expander} {includer : Includer}
  {scope : ScanScope} {F : Session → Session → Prop}

/-- A line continuation takes one line feed, as does what is written for it. -/
def Continues (d : DirectiveText) : Prop :=
  ∀ token ∈ d.tokens, token.kind = .lineContinuation → token.newlineCount = 1

theorem continues_ofText (text : String) (file : Option String) (parent : NodeId)
    (recording : Bool) : (ofText text file parent recording).Continues := by
  intro token htoken hk
  rcases DirectiveToken.text_of_continuation (by simpa [ofText] using htoken) hk with h | h <;>
  · rw [Token.newlineCount, h]
    rfl

/-- **A token that is copied** brings its own line feeds, whether text is active or not. -/
theorem feeds_copyToken (hd : d.Continues) (scope : ScanScope) (i : Nat) :
    Feeds (d.newlinesAt [i]) (d.copyToken scope i) := by
  rw [copyToken, newlinesAt, List.filterMap_cons]
  cases htoken : d.tokens[i]? with
  | none => exact .pure _
  | some token =>
    have hone : [token].foldl (fun n (token : DirectiveToken) => n + token.newlineCount) 0 =
        token.newlineCount := Nat.zero_add _
    dsimp only
    rw [List.filterMap_nil, hone]
    split
    · split
      · exact (Feeds.of_quiet (F := UpToStopping) (composed_report _ _)).bind_zero fun _ =>
          .emitNewlines _
      · exact .emitNewlines _
    · split
      · exact .emitNewlines _
      · split
        · rename_i hk
          have := hd token (Array.mem_of_getElem? htoken) hk
          rw [this]
          exact .emit "\n"
        · exact .emit token.text

theorem feeds_copyTokens (hd : d.Continues) (scope : ScanScope) (is : List Nat) :
    Feeds (d.newlinesAt is) (is.forM (d.copyToken scope)) := by
  induction is with
  | nil => exact .pure _
  | cons i is ih =>
    rw [newlinesAt_cons]
    exact (feeds_copyToken hd scope i).bind fun _ => ih

/-- **What a directive or use feeds**: the lines that it takes, if there are none between its
marks. -/
theorem feeds_between {α : Type} {inner : NodeId → Preprocessing α} (marked : Bool)
    (hi : ∀ node, Feeds 0 (inner node)) : Feeds (d.newlinesIn t) (do
      let node ← d.openMarks marked t
      let a ← inner node
      d.closeMarks marked node t
      return a) := by
  have hopen : Feeds 0 (d.openMarks marked t) := by
    intro st a after h
    obtain ⟨node, nodes, hopen⟩ := d.openMarks_spec t marked st
    obtain ⟨-, rfl⟩ := EStateM.Result.ok.inj (h.symm.trans hopen)
    have hfront : newlines (d.frontMark marked) = 0 := by
      rw [frontMark]
      split
      · exact newlines_beginMark
      · rfl
    simp [hfront]
  have hclose (node : NodeId) : Feeds (d.newlinesIn t) (d.closeMarks marked node t) := by
    intro st a after h
    obtain ⟨-, rfl⟩ := EStateM.Result.ok.inj (h.symm.trans (d.closeMarks_spec t marked node st))
    have hfeeds : newlines (List.replicate (d.newlinesIn t) '\n') = d.newlinesIn t := by
      simp [newlines]
    have hback : newlines (d.backMark marked node) = 0 := by
      rw [backMark]
      split
      · exact newlines_endMark node
      · rfl
    simp [hfeeds, hback]
  exact hopen.bind_zero fun node => (hi node).bind_zero fun a => (hclose node).andReturn fun _ => a

/-- Does a scope name files on one line only? -/
def OnOneLine (d : DirectiveText) (scope : ScanScope) : Prop :=
  '\n' ∉ (nameText d.file).toList ∧ ∀ origin ∈ scope.origin, '\n' ∉ (nameText origin.1).toList

instance (d : DirectiveText) (scope : ScanScope) : Decidable (d.OnOneLine scope) :=
  inferInstanceAs (Decidable (_ ∧ _))

theorem OnOneLine.sourcePlace (h : d.OnOneLine scope) (line : Nat) :
    '\n' ∉ (nameText (scope.sourcePlace d.file line).1).toList := by
  rw [ScanScope.sourcePlace]
  split
  · rename_i origin delta horigin
    exact h.2 (origin, delta) horigin
  · exact h.1

/-- A directive that includes nothing writes on one line. -/
theorem feeds_doDirective (hd : d.OnOneLine scope) {kind : NodeKind}
    (hk : scope.conditions.active = true → kind ≠ .ppIncludeDirective) (node : NodeId) :
    Feeds 0 (d.doDirective expand includer scope kind t node) := by
  rw [doDirective]
  split
  · have hquiet := (composed_stepConditions (F := UpToStopping) (d := d) (t := t) kind
      scope.conditions).mono fun _ _ => Still.toQuiet
    exact (Feeds.of_quiet hquiet).andReturn _
  · split
    · rename_i hactive
      have hinclude := hk hactive
      refine .of_composed (F := UpToStopping) (composed_act (fun h => .of_quiet h.toQuiet)
        (fun _ => (composed_renumber scope).mono fun _ _ => .of_quiet) (fun h => absurd h hinclude)
        (sameLines_written ?_) fun n => sameLines_written ?_)
      · simpa using hd.sourcePlace 0
      · intro h
        rw [Nat.toString_eq_repr, Nat.toList_repr] at h
        exact absurd (Nat.isDigit_of_mem_toDigits (by decide) (by decide) h) (by decide)
    · exact .pure _

/-- A macro use writes its text on one line. -/
theorem feeds_doUse (he : Expanding F expand) (active : Bool) (node : NodeId) :
    Feeds 0 (d.doUse expand active t node) := by
  rw [doUse]
  split
  · refine (Feeds.of_quiet (composed_evaluate he)).bind_zero fun text => .bind_zero ?_ fun _ => ?_
    · cases text with
      | none => exact .pure _
      | some text =>
        have hflat : newlines (flatten text.toList) = 0 := by
          refine List.count_eq_zero.mpr fun h => ?_
          obtain ⟨c, -, hc⟩ := List.mem_map.mp h
          split at hc
          · cases hc
          · contradiction
        have h := Feeds.emit (String.ofList (flatten text.toList))
        rwa [String.toList_ofList, hflat] at h
    · intro st a after h
      cases h
      rfl
  · exact .pure _

/-- **What a piece of a text feeds**: the lines that it takes. -/
theorem feeds_scanPiece (hc : d.Continues) (he : Expanding F expand) (hd : d.OnOneLine scope)
    (hk : scope.conditions.active = true → t.kind? ≠ some .ppIncludeDirective) :
    Feeds (d.newlinesIn t) (d.scanPiece expand includer scope t) := by
  unfold scanPiece
  split
  · exact (feeds_copyToken hc scope _).andReturn _
  · rename_i kind ts
    split
    · rw [scanDirective_eq]
      exact feeds_between true fun node => feeds_doDirective hd
        (fun ha h => hk ha (congrArg some h)) node
    · split
      · rw [scanUse_eq]
        exact (feeds_between _ fun node => feeds_doUse he _ node).andReturn _
      · exact (feeds_copyTokens hc scope _).andReturn _

/-- The number of line feeds in the token at a position. -/
def newlinesOf (d : DirectiveText) (i : Nat) : Nat := ((d.tokens[i]?).map (·.newlineCount)).getD 0

theorem newlinesAt_eq_sum (is : List Nat) : d.newlinesAt is = (is.map d.newlinesOf).sum := by
  induction is with
  | nil => rfl
  | cons i is ih =>
    rw [newlinesAt_cons, ih, List.map_cons, List.sum_cons]
    congr 1
    rw [newlinesAt, newlinesOf, List.filterMap_cons]
    cases d.tokens[i]? with
    | none => rfl
    | some token => exact Nat.zero_add _

/-- What is numbered in front of some place are the tokens there. -/
theorem newlinesOf_numbered {before taken rest : List DirectiveToken}
    (htokens : d.tokens.toList = before ++ (taken ++ rest)) :
    ((DirectiveGrammar.numbered before.length taken).map fun v => d.newlinesOf v.1).sum =
      newlines (Token.textOf taken) := by
  induction taken generalizing before with
  | nil => rfl
  | cons token taken ih =>
    have hnext := @ih (before ++ [token]) (by simpa using htokens)
    have hhere : d.newlinesOf before.length = token.newlineCount := by
      rw [newlinesOf, ← Array.getElem?_toList, htokens]
      simp
    rw [List.length_append, List.length_singleton] at hnext
    rw [DirectiveGrammar.numbered_cons, List.map_cons, List.sum_cons, hnext, hhere,
      Token.textOf_cons, newlines_append, Token.newlineCount]

/-- **A piece has the line feeds of the tokens that it takes**, since commas have none. -/
theorem newlinesIn_of_piece {text : String} (hd : d.tokens.toList = DirectiveToken.ofText text)
    {before taken rest : List DirectiveToken}
    (htokens : d.tokens.toList = before ++ (taken ++ rest))
    (hpiece : DirectiveGrammar.Piece before taken t) :
    d.newlinesIn t = newlines (Token.textOf taken) := by
  -- what a piece leaves out are commas, which are on one line
  have hcomma : ∀ v ∈ DirectiveGrammar.numbered before.length taken,
      DirectiveGrammar.isComma v.2 = true → d.newlinesOf v.1 = 0 := by
    intro v hv hk
    obtain ⟨⟨token, i⟩, hmem, rfl⟩ := List.mem_map.mp hv
    have hk : token.kind = .comma := by simpa [DirectiveGrammar.isComma] using hk
    obtain ⟨hle, hget⟩ := List.mem_zipIdx_iff_le_and_getElem?_sub.mp hmem
    have hat : d.tokens[i]? = some token := by
      rw [← Array.getElem?_toList, htokens, List.getElem?_append_right hle,
        List.getElem?_append_left (List.getElem?_eq_some_iff.mp hget).1, hget]
    have htext : token.text.toList = [','] := by
      refine DirectiveToken.text_of_comma (s := text) ?_ hk
      exact hd ▸ Array.mem_toList_iff.mpr (Array.mem_of_getElem? hat)
    rw [newlinesOf, hat, Option.map_some, Option.getD_some, Token.newlineCount, htext]
    rfl
  rw [← newlinesOf_numbered htokens, ← hpiece.leaves.sum_map d.newlinesOf hcomma]
  exact newlinesAt_eq_sum t.leaves

/-! ### Visits -/

/-- Does a visit include no file, with all files named on one line? -/
structure StaysInFile (v : Visit) : Prop where
  noInclude : v.scope.conditions.active = true → v.piece.kind? ≠ some .ppIncludeDirective
  origin : ∀ origin ∈ v.scope.origin, '\n' ∉ (nameText origin.1).toList

instance (v : Visit) : Decidable (StaysInFile v) :=
  decidable_of_iff (_ ∧ _) ⟨fun h => ⟨h.1, h.2⟩, fun h => ⟨h.noInclude, h.origin⟩⟩

/-- **Is the visit of a piece a visit line by line?** Before it the text has the line feeds of the
tokens before the piece, and after it those of the tokens of the piece as well. -/
def LineByLine (d : DirectiveText) (v : Visit) : Prop :=
  ∃ before taken rest, d.tokens.toList = before ++ (taken ++ rest) ∧
    DirectiveGrammar.Piece before taken v.piece ∧ v.before.Behind (Token.textOf before) ∧
    v.after.Behind (Token.textOf (before ++ taken))

/-- What includes files plays no part where none is included. -/
theorem doDirective_congr (includer' : Includer) {kind : NodeKind}
    (hk : scope.conditions.active = true → kind ≠ .ppIncludeDirective) (node : NodeId) :
    d.doDirective expand includer scope kind t node =
      d.doDirective expand includer' scope kind t node := by
  rw [doDirective, doDirective]
  split
  · rfl
  · split
    · rename_i hactive
      have hne := hk hactive
      cases kind <;> first | rfl | exact absurd rfl hne
    · rfl

theorem scanPiece_congr (includer' : Includer)
    (hk : scope.conditions.active = true → t.kind? ≠ some .ppIncludeDirective) :
    d.scanPiece expand includer scope t = d.scanPiece expand includer' scope t := by
  cases t with
  | leaf i => rfl
  | node kind ts =>
    have hdo (node : NodeId) : d.doDirective expand includer scope kind (.node kind ts) node =
        d.doDirective expand includer' scope kind (.node kind ts) node :=
      d.doDirective_congr includer' (fun hactive h => hk hactive (congrArg some h)) node
    unfold scanPiece
    simp only [scanDirective_eq, hdo]

theorem lineByLine_visits {text : String} (hd : d.tokens.toList = DirectiveToken.ofText text)
    (hc : d.Continues) (hfile : '\n' ∉ (nameText d.file).toList) (he : Expanding F expand)
    (hi : Including F (fun _ => StaysInStep) includer) {before rest : List DirectiveToken}
    {ts : List ParseTree} (htiles : DirectiveGrammar.Tiles before ts rest)
    (htokens : d.tokens.toList = before ++ rest) {st : PreprocessState}
    (hst : st.Behind (Token.textOf before))
    (hvs : ∀ v ∈ d.visits expand includer ts scope st, StaysInFile v) :
    (∀ v ∈ d.visits expand includer ts scope st, d.LineByLine v) ∧
    ∀ scope' after, ts.foldlM (d.scanPiece expand includer) scope st = .ok scope' after →
      after.Behind (Token.textOf (before ++ rest)) ∧
      ts.foldlM (d.scanPiece expand fun _ => pure none) scope st = .ok scope' after := by
  -- the induction is on the pieces, each standing where those before it end
  induction htiles generalizing scope st with
  | nil before =>
    refine ⟨by simp [visits], fun scope' after h => ?_⟩
    cases h
    exact ⟨by simpa using hst, rfl⟩
  | @cons before taken rest t ts hpiece _ ih =>
    cases hrun : d.scanPiece expand includer scope t st with
    | error e mid =>
      rw [visits, hrun]
      refine ⟨by simp, fun scope' after h => ?_⟩
      rw [List.foldlM_cons, bind_eq, hrun] at h
      cases h
    | ok scope' mid =>
      have hvisits : d.visits expand includer (t :: ts) scope st =
          ⟨t, scope, st, mid⟩ :: d.visits expand includer ts scope' mid := by
        rw [visits, hrun]
      rw [hvisits, List.forall_mem_cons] at hvs
      obtain ⟨⟨hinclude, horigin⟩, hvs⟩ := hvs
      -- the piece feeds the lines it takes, and so the text is behind the tokens up to its end
      have hfeeds := feeds_scanPiece hc he ⟨hfile, horigin⟩ hinclude st scope' mid hrun
      have hstep : (Ending.state (d.scanPiece expand includer scope t st)).InStep :=
        (composed_scanPiece allows_staysInStep (fun _ => hangs_staysInStep d t) he hi scope).keeps
          (allows_staysInStep.frame d.parent) st hst.inStep
      rw [hrun] at hstep
      have hmid : mid.Behind (Token.textOf (before ++ taken)) := by
        refine ⟨?_, hstep⟩
        rw [hfeeds, hst.newlines, newlinesIn_of_piece hd htokens hpiece, Token.textOf_append,
          newlines_append]
      obtain ⟨hall, hend⟩ := ih (by simpa using htokens) hmid hvs
      rw [hvisits]
      refine ⟨List.forall_mem_cons.mpr ⟨⟨before, taken, rest, htokens, hpiece, hst, hmid⟩, hall⟩,
        fun last after h => ?_⟩
      rw [List.foldlM_cons, bind_of_ok hrun] at h
      obtain ⟨hbehind, hrest⟩ := hend last after h
      refine ⟨by simpa using hbehind, ?_⟩
      -- the same pieces are scanned, with the same results, where inclusions do nothing
      rw [scanPiece_congr (fun _ => pure none) hinclude] at hrun
      rw [List.foldlM_cons, bind_of_ok hrun]
      exact hrest

end DirectiveText

/-- A scan ends with the report of the chains that are open behind the last piece. -/
theorem DirectiveText.scan_eq_ok {d : DirectiveText} {expand : Expander} {includer : Includer}
    {st after : PreprocessState} (h : d.scan expand includer st = .ok () after) :
    ∃ scope mid, d.pieces.foldlM (d.scanPiece expand includer) {} st = .ok scope mid ∧
      d.reportOpenChains scope.conditions mid = .ok () after := by
  rw [scan] at h
  exact exists_of_bind h

/-! ### Texts without marks -/

/-- Marks are on one line, so taking them out leaves all lines. -/
theorem newlines_withoutMarks {s : List Char} {ms : List (SourceKind × List Char)}
    (h : MarkedBy s ms) : newlines (withoutMarks s) = newlines s := by
  induction h with
  | nil => rfl
  | @char c s ms hc _ ih =>
    have hone : Unmarked [c] := by simpa [Unmarked] using Ne.symm hc
    rw [← List.singleton_append, withoutMarks_unmarked_append hone, newlines_append,
      newlines_append, ih]
  | @mark m s ms hm _ ih =>
    have hline : newlines m.2 = 0 := by
      obtain rfl | ⟨node, rfl⟩ := hm
      · exact newlines_beginMark
      · exact newlines_endMark node
    rw [withoutMarks_mark hm, newlines_append, hline, ih, Nat.zero_add]

/-- A session that holds nothing but initial definitions. -/
def Session.ofDefines (defines : OrderedMap String String) : Session :=
  { config := { defines }, log := { capacity := 0 }, files := .empty }

theorem Session.unmarked_ofDefines {defines : OrderedMap String String}
    (h : ∀ m ∈ defines.entries, Verilog.Unmarked m.1.toList ∧ Verilog.Unmarked m.2.toList) :
    (ofDefines defines).Unmarked := by
  refine ⟨fun loc content hmem => ?_, fun m hm => ?_, h, fun dir hdir => ?_⟩
  · simp [ofDefines, FileStore.empty] at hmem
  · simp [ofDefines] at hm
  · simp [ofDefines] at hdir

/-- **What comes out of a text that includes nothing is made of stretches** if the delimiter of
marks is neither in the text nor in its path and the initial definitions. The files there are play
no part: the run is the same in a session without them. -/
theorem markedBy_scan {path text : String} (ht : Unmarked text.toList) (hp : Unmarked path.toList)
    {s : Session} (hdefines : ∀ m ∈ s.config.defines.entries,
      Unmarked m.1.toList ∧ Unmarked m.2.toList) {after : PreprocessState}
    (h : (DirectiveText.ofText text (some path) 1 true).scan expandText (fun _ => pure none)
      (.start path text s) = .ok () after) : ∃ ms, MarkedBy after.text.toList ms := by
  let d := DirectiveText.ofText text (some path) 1 true
  let clean := Session.ofDefines s.config.defines
  have hany : Alike fun _ _ => True := fun _ _ _ _ => trivial
  have hscan : Composed (fun _ _ => True) KeepsOpen (d.scan expandText fun _ => pure none) :=
    DirectiveText.composed_scan allows_keepsOpen (fun _ _ _ => hangs_keepsOpen _ _)
      (DirectiveText.expanding_expandWithin _) fun _ => .pure _
  -- files and messages of the session may have marks in them, those of the clean one cannot
  have hlenient : clean.config.failFast = false := rfl
  obtain ⟨s', hclean⟩ := (hscan.reports hany).gives_lenient h hlenient
  have hmacros : MacroTable.Unmarked {} := by simp [MacroTable.Unmarked]
  have hstart : (putSession clean (PreprocessState.start path text s)).Unmarked :=
    ⟨Session.unmarked_ofDefines hdefines, hmacros.defineAll hdefines⟩
  have hincludes : Includes true fun _ => pure none := fun _ _ => .pure trivial
  have hends := DirectiveText.writes_scan (DirectiveText.unmarked_ofText 1 true ht
    (Unmarked.InSome.some hp).nameText) (expands_expandWithin maxExpansionDepth) hincludes _ hstart
  have hrun : d.scan expandText (fun _ => pure none)
      (putSession clean (PreprocessState.start path text s)) = _ := hclean
  change Ends 1 true _ _ (d.scan expandText _ _) at hends
  rw [hrun] at hends
  obtain ⟨ws, hws, hsound, -⟩ := hends.1.text
  have hwritten : after.text.toList = Stretch.writtenAll ws := hws
  exact ⟨Stretch.marksAll ws, hwritten ▸ markedBy_writtenAll hsound⟩

/-! ### Files -/

/-- **One line for each line.** Where a text includes no file and all files are named on one line,
every piece is visited line by line, and what comes out has as many lines as the text: also without
its marks, if the delimiter of marks is neither in the text nor in its path and the initial
definitions. Every step of the scan, an expansion as a whole, leaves the line in step with the
text, whatever text it is. A run that does not stop at errors visits all pieces. -/
theorem line_for_line (path text : String) (s : Session) (hpath : '\n' ∉ path.toList) :
    let d := DirectiveText.ofText text (some path) 1 true
    let vs := d.visits expandText
      (includeWithin s.config.includeDirs (s.files.entries.length + 1)) d.pieces {}
      (.start path text s)
    (∀ v ∈ vs, DirectiveText.StaysInFile v) →
    (∀ v ∈ vs, d.LineByLine v) ∧
    (∀ p s', preprocessText path text s = .ok p s' →
      newlines p.text.toList = newlines text.toList ∧
      (Unmarked text.toList → Unmarked path.toList →
        (∀ m ∈ s.config.defines.entries, Unmarked m.1.toList ∧ Unmarked m.2.toList) →
        newlines (withoutMarks p.text.toList) = newlines text.toList)) ∧
    Composed UpToStopping StaysInStep (scanFile path text s) ∧
    (s.config.failFast = false → vs.map (·.piece) = d.pieces ∧
      ∃ p s', preprocessText path text s = .ok p s') := by
  intro d vs hvs
  let includer := includeWithin s.config.includeDirs (s.files.entries.length + 1)
  have hincludes {R : NodeId → PreprocessState → PreprocessState → Prop} (hR : Allows R)
      (hh : ∀ d t, Hangs R d t) : Including UpToStopping R includer :=
    DirectiveText.including_includeWithin hR (fun _ _ _ _ _ => hh _ _) (fun _ _ ⟨_, h⟩ => h ▸ rfl)
      _ _
  have hopen := hincludes allows_keepsOpen hangs_keepsOpen
  have hinStep := hincludes allows_staysInStep hangs_staysInStep
  have hexpands : Expanding UpToStopping expandText := DirectiveText.expanding_expandWithin _
  have htokens : d.tokens.toList = DirectiveToken.ofText text := by simp [d, DirectiveText.ofText]
  have htiles := DirectiveGrammar.tiles_parse d.tokens.toList
  have hstart : (PreprocessState.start path text s).Behind
      (Token.textOf ([] : List DirectiveToken)) := ⟨rfl, rfl⟩
  obtain ⟨hlines, hend⟩ := DirectiveText.lineByLine_visits htokens
    (DirectiveText.continues_ofText text _ _ _) hpath hexpands hinStep htiles rfl hstart hvs
  refine ⟨hlines, fun p s' hrun => ?_, DirectiveText.composed_scan allows_staysInStep
    (fun _ _ _ => hangs_staysInStep _ _) hexpands hinStep, fun hl => ⟨?_, ?_⟩⟩
  · obtain ⟨after, hscan, -, rfl⟩ := scanFile_of_preprocessText hrun
    obtain ⟨scope, mid, hfold, hopen⟩ := DirectiveText.scan_eq_ok hscan
    obtain ⟨hbehind, hfold'⟩ := hend scope mid hfold
    have htext := Feeds.of_quiet (F := UpToStopping)
      (DirectiveText.composed_reportOpenChains _) mid () after hopen
    have hall : newlines after.text.toList = newlines text.toList := by
      rw [htext, hbehind.newlines, List.nil_append, htokens, Nat.add_zero]
      exact congrArg newlines (DirectiveKind.lexicon.flatMap_tokens text)
    refine ⟨hall, fun ht hp hdefines => ?_⟩
    have hscan' : d.scan expandText (fun _ => pure none) (.start path text s) = .ok () after :=
      (bind_of_ok hfold').trans hopen
    obtain ⟨ms, hms⟩ := markedBy_scan ht hp hdefines hscan'
    exact (newlines_withoutMarks hms).trans hall
  · have hstart : (PreprocessState.start path text s).Lenient := hl
    exact (DirectiveText.visits_spec hexpands hopen d.pieces hstart d.represents_nil rfl).1
  · have hstart : (sessionOf (PreprocessState.start path text s)).config.failFast = false := hl
    obtain ⟨_, after, hscan, -⟩ := (DirectiveText.composed_scan allows_keepsOpen
      (fun _ _ _ => hangs_keepsOpen _ _) hexpands hopen).succeeds alike_upToStopping
        UpToStopping.refl hstart
    have hscan : scanFile path text s (.start path text s) = .ok () after := hscan
    exact ⟨_, after.session, by rw [preprocessText_eq, hscan]⟩

/-- The visits of the pieces of a text without files around it. -/
def bareVisits (text : String) : List Visit :=
  let d := DirectiveText.ofText text (some "test.sv") 1 true
  d.visits expandText (includeWithin [] (FileStore.empty.entries.length + 1)) d.pieces {}
    (.start "test.sv" text bareSession)

/-- A macro use and a definition on several lines, a file that is not included, and lines that count
as those of another file. -/
def foldedLines : String :=
  "`define ADD(x, y) x \\\n + y\na = `ADD(b,\n c);\n`ifdef B\n`include \"b.sv\"\n`endif\n" ++
    "`line 7 \"c.sv\" 0\n`__FILE__\n"

theorem line_for_line_foldedLines : '\n' ∉ "test.sv".toList ∧
    (∀ v ∈ bareVisits foldedLines, DirectiveText.StaysInFile v) ∧
    ∃ p s', preprocessText "test.sv" foldedLines bareSession = .ok p s' ∧
      newlines p.text.toList = newlines foldedLines.toList ∧
      newlines (withoutMarks p.text.toList) = newlines foldedLines.toList := by
  have hpath : '\n' ∉ "test.sv".toList := by decide
  have hvs : ∀ v ∈ bareVisits foldedLines, DirectiveText.StaysInFile v := by decide +kernel
  obtain ⟨-, hlines, -, hlenient⟩ := line_for_line "test.sv" foldedLines bareSession hpath hvs
  obtain ⟨-, p, s', hrun⟩ := hlenient rfl
  obtain ⟨hall, hstripped⟩ := hlines p s' hrun
  exact ⟨hpath, hvs, p, s', hrun, hall, hstripped (by decide) (by decide)
    (by simp [bareSession, Session.start])⟩

/-- A text with a delimiter of marks on each of its lines. -/
def delimitedLines : String := "\u0001\n\u0001\n"

/-- **Where the delimiter stands in a text, lines get lost with the marks**: what stands between two
of them is taken for a mark. -/
theorem delimitedLines_withoutMarks : '\n' ∉ "test.sv".toList ∧
    (∀ v ∈ bareVisits delimitedLines, DirectiveText.StaysInFile v) ∧
    ∃ p s', preprocessText "test.sv" delimitedLines bareSession = .ok p s' ∧
      newlines (withoutMarks p.text.toList) ≠ newlines delimitedLines.toList := by
  refine ⟨by decide, by decide +kernel, ?_⟩
  have hplain : IsPlain delimitedLines.toList := ⟨by decide, by decide⟩
  obtain ⟨p, hrun, htext⟩ := preprocessText_of_plain hplain "test.sv" bareSession
  exact ⟨p, bareSession, hrun, by rw [htext]; decide⟩

end Verilog
