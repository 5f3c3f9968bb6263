import Verilog.Proofs.Preprocess.Use

/-!
# What a whole text gives

Each directive writes stretches, and so does a scan, whatever stands in the text. The marks of a
directive or use are written by two steps with its own text between them; that they enclose a region
is the one place where stretches are made (`DirectiveText.writes_between`).
-/

namespace Verilog

open Preprocessing Stretch

/-! ### Nodes -/

namespace DirectiveText

variable {d : DirectiveText}

mutual

theorem extends_record (d : DirectiveText) (table : NodeTable) (parent : NodeId) :
    (t : ParseTree) → table.Extends (d.record table parent t).2
  | .leaf _ => .refl table
  | .node kind ts => by
    rw [record]
    exact (NodeTable.Extends.addChild _ _ _).trans (extends_recordAll d _ _ ts)

/-- Recording adds nodes. -/
theorem extends_recordAll (d : DirectiveText) (table : NodeTable) (parent : NodeId) :
    (ts : List ParseTree) → table.Extends (d.recordAll table parent ts)
  | [] => .refl table
  | t :: ts => by
    rw [recordAll]
    exact (extends_record d table parent t).trans (extends_recordAll d _ _ ts)

end

/-- **The node that is recorded** is a new one of the table, and has the kind and the range of the
tree. -/
theorem record_node (table : NodeTable) (parent : NodeId) (kind : NodeKind) (ts : List ParseTree) :
    (d.record table parent (.node kind ts)).1 = table.size + 1 ∧
      (d.record table parent (.node kind ts)).2.contains (table.size + 1) ∧
      ((d.record table parent (.node kind ts)).2.node (table.size + 1)).kind = kind ∧
      ((d.record table parent (.node kind ts)).2.node (table.size + 1)).endColumn =
        (d.rangeOf (.node kind ts)).endColumn := by
  rw [record]
  dsimp only
  generalize hnode : (⟨_, kind, _, _, _, _, _, _, _, _, _⟩ : Node) = node
  obtain ⟨hid, hbare⟩ := NodeTable.bare_addChild table parent node
  have hin : (table.addChild parent node).2.contains (table.size + 1) := by
    rw [NodeTable.contains_iff, (NodeTable.sizeFile_addChild _ _ _).1]
    exact ⟨Nat.succ_pos _, Nat.le_refl _⟩
  have hext := d.extends_recordAll (table.addChild parent node).2 (table.addChild parent node).1 ts
  refine ⟨hid, hext.contains hin, ?_, ?_⟩
  · rw [hext.kind hin]
    have hkind := congrArg Node.kind hbare
    exact hkind.trans (congrArg Node.kind hnode.symm)
  · rw [hext.endColumn hin]
    have hcolumn := congrArg Node.endColumn hbare
    exact hcolumn.trans (congrArg Node.endColumn hnode.symm)

end DirectiveText

/-! ### Directives -/

/-- Is the delimiter not in the name of the file that a line directive gave? -/
def ScanScope.Unmarked (scope : ScanScope) : Prop :=
  ∀ file delta, scope.origin = some (file, delta) → Verilog.Unmarked (nameText file).toList

theorem ScanScope.unmarked_empty : ScanScope.Unmarked {} := by
  intro _ _ h
  simp at h

/-- Is the delimiter not in what a file to be included is asked for by? -/
structure IncludeRequest.Unmarked (r : IncludeRequest) : Prop where
  source : Verilog.Unmarked (nameText r.source).toList
  name : Verilog.Unmarked r.name.toList

/-- What inclusions are asked for: they begin on a line of their own, and may start a section
there. -/
def Preprocessing.Includes (marking : Bool) (includer : Includer) : Prop :=
  ∀ request, request.Unmarked → WritesFrom 0 marking (includer request) fun _ => True

namespace DirectiveText

variable {d : DirectiveText} {t : ParseTree} {marking : Bool} {expand : Expander}
  {includer : Includer} {scope : ScanScope}

theorem writes_stepConditions (hd : d.Unmarked) (kind : NodeKind) (cs : Conditionals) :
    Writes marking (d.stepConditions kind t cs) fun _ => True := by
  rw [stepConditions]
  refine WritesFrom.get.bind fun st _ => ?_
  split
  · exact .pure trivial
  · exact .pure trivial
  iterate 3
    · dsimp only
      split
      · exact .pure trivial
      · exact (writes_report hd _ (by simp [DirectiveFault.quoted])).bind fun _ _ => .pure trivial
  · exact .pure trivial

theorem writes_define (hd : d.Unmarked) (node : NodeId) :
    Writes marking (d.define node t) fun _ => True := by
  rw [define]
  split
  · exact .pure trivial
  · rename_i name hname
    have hn := hd.macroNameOf hname
    split
    · exact writes_report hd _ (by simpa [DirectiveFault.quoted] using hn)
    · have hm := hd.definitionOf (t := t) node hn
      refine WritesFrom.get.bind fun st _ => ?_
      split
      · exact (writes_report hd _ (by simpa [DirectiveFault.quoted] using hn)).bind fun _ _ =>
          writes_modifyMacros fun _ ht => ht.define hm
      · exact writes_modifyMacros fun _ ht => ht.define hm

theorem writes_undefine (hd : d.Unmarked) : Writes marking (d.undefine t) fun _ => True := by
  rw [undefine]
  refine WritesFrom.get.bind fun st _ => ?_
  split
  · exact writes_modifyMacros fun _ ht => ht.undefine _
  · exact writes_report hd _ (by simpa [DirectiveFault.quoted] using hd.macroNameOf_getD)

theorem writes_includedName (hd : d.Unmarked) (he : Expands expand) :
    Writes marking (d.includedName expand t) Unmarked.InSome := by
  have hreturn {x : Preprocessing (Option String)} (hx : Writes marking x Unmarked.InSome) :
      Writes marking (x >>= fun written => pure (written.map fun text => String.ofList
        (stripEnds (fun c => c == '"' || c == '<' || c == '>') (trim text.toList))))
        Unmarked.InSome := by
    refine hx.bind fun r hr => .pure fun s hs => ?_
    obtain ⟨text, htext, rfl⟩ := Option.map_eq_some_iff.mp hs
    rw [String.toList_ofList]
    exact (hr text htext).trim.stripEnds _
  unfold includedName
  dsimp only
  split
  · exact hreturn (.pure (.some hd.textOf))
  · split
    · exact hreturn (writes_evaluate hd he)
    · exact hreturn (.pure .none)

theorem writes_includeFile (hd : d.Unmarked) (he : Expands expand) (hi : Includes marking includer)
    (node : NodeId) :
    Writes marking (d.includeFile expand includer scope node t) fun _ => True := by
  unfold includeFile
  split
  · exact .pure trivial
  · refine (writes_includedName hd he).bind fun r hr => ?_
    cases r with
    | none => exact .pure trivial
    | some name =>
      have hsection : WritesFrom 0 marking (do
          let st ← get
          let place := scope.sourcePlace d.file (d.rangeOf t).endLine
          startSection ⟨st.line, place.1, place.2⟩) fun _ => True :=
        WritesFrom.get_bind fun st hst => ends_startSection hst (Nat.le_refl _)
      refine WritesFrom.get.bind fun st _ => ?_
      refine (writes_modifyIncludes (·.push _)).bind fun _ _ => writes_newline_bind ?_
      refine (hi _ ⟨hd.file, hr name rfl⟩).bind fun resolved _ => ?_
      refine (writes_modifyIncludes (·.modify _ _)).bind fun _ _ =>
        WritesFrom.get.bind fun st' _ => ?_
      dsimp only
      split
      · exact (writes_emit (by decide)).bind fun _ _ => hsection
      · exact hsection

theorem writes_renumber (hd : d.Unmarked) (hs : scope.Unmarked) :
    Writes marking (d.renumber scope t) ScanScope.Unmarked := by
  unfold renumber
  dsimp only
  split
  · rename_i target level _ path _ _
    split
    · exact (writes_report hd _ (by simp [DirectiveFault.quoted])).bind fun _ _ => .pure hs
    · refine WritesFrom.get_bind fun st hst =>
        (ends_startSection hst (Nat.le_refl _)).bind fun _ _ => .pure ?_
      intro file delta h
      obtain ⟨rfl, -⟩ := Prod.mk.inj (Option.some.inj h)
      refine Unmarked.InSome.nameText (.some ?_)
      rw [String.toList_ofList]
      exact hd.textOf.stripEnds _
  · exact (writes_report hd _ (by simp [DirectiveFault.quoted])).bind fun _ _ => .pure hs

theorem writes_changeSettings (f : DirectiveState → DirectiveState) :
    Writes marking (d.changeSettings f) fun _ => True := by
  rw [changeSettings]
  split
  · exact Preprocessing.writes_changeSettings f
  · exact .pure trivial

theorem writes_setTimeScale (hd : d.Unmarked) :
    Writes marking (d.setTimeScale t) fun _ => True := by
  unfold setTimeScale
  dsimp only
  split
  · exact writes_changeSettings _
  · refine writes_report hd _ ?_
    simp only [DirectiveFault.quoted, List.forall_mem_singleton]
    refine Verilog.Unmarked.trimText (Unmarked.join.mpr fun s hs => ?_)
    obtain ⟨i, -, hi⟩ := List.mem_filterMap.mp hs
    obtain ⟨x, hx, rfl⟩ := Option.map_eq_some_iff.mp hi
    exact hd.tokens x (Array.mem_of_getElem? hx)

theorem writes_setNetType (hd : d.Unmarked) : Writes marking (d.setNetType t) fun _ => True := by
  unfold setNetType
  dsimp only
  split
  · exact writes_changeSettings _
  · exact writes_report hd _ (by simpa [DirectiveFault.quoted] using hd.macroNameOf_getD)

/-- The name of the file that a place counts as is unmarked. -/
theorem unmarked_sourcePlace (hd : d.Unmarked) (hs : scope.Unmarked) (line : Nat) :
    Verilog.Unmarked (nameText (scope.sourcePlace d.file line).1).toList := by
  rw [ScanScope.sourcePlace]
  split
  · rename_i origin delta h
    exact hs origin delta h
  · exact hd.file

theorem writes_act (hd : d.Unmarked) (he : Expands expand) (hi : Includes marking includer)
    (hs : scope.Unmarked) (kind : NodeKind) (node : NodeId) :
    Writes marking (d.act expand includer scope kind node t) ScanScope.Unmarked := by
  have hreturn {x : Preprocessing Unit} (hx : Writes marking x fun _ => True) :
      Writes marking (do x; return scope) ScanScope.Unmarked := hx.bind fun _ _ => .pure hs
  unfold act
  split
  · exact hreturn (writes_undefine hd)
  · exact hreturn (writes_modifyMacros fun _ _ _ h => nomatch h)
  · exact hreturn (writes_includeFile hd he hi node)
  · exact writes_renumber hd hs
  · exact hreturn (writes_setTimeScale hd)
  · exact hreturn (writes_setNetType hd)
  · exact hreturn (writes_changeSettings _)
  · refine hreturn (writes_emit ?_)
    have hquote : Verilog.Unmarked "\"".toList := by decide
    simp only [String.toList_append, Verilog.Unmarked.append]
    exact ⟨⟨hquote, unmarked_sourcePlace hd hs 0⟩, hquote⟩
  · exact hreturn (writes_emit (Unmarked.toString_nat _))
  · dsimp only
    split
    · exact hreturn (writes_define hd node)
    · exact .pure hs

/-! ### Scanning -/

theorem writes_copyToken (hd : d.Unmarked) (i : Nat) :
    Writes marking (d.copyToken scope i) fun _ => True := by
  unfold copyToken
  split
  · exact .pure trivial
  · rename_i token htoken
    have htext := hd.tokens token (Array.mem_of_getElem? htoken)
    split
    · dsimp only
      split
      · exact (writes_report hd _ (by simpa [DirectiveFault.quoted] using htext)).bind
          fun _ _ => writes_emitNewlines _
      · exact writes_emitNewlines _
    · split
      · exact writes_emitNewlines _
      · split
        · exact writes_emit (by decide)
        · exact writes_emit htext

/-- What opening marks does: it adds the nodes of a directive or use, the first of which the marks
carry, and writes the mark. -/
theorem openMarks_eq (hr : d.recording = true) (marked : Bool) (st : PreprocessState) :
    d.openMarks marked t st = .ok (d.record st.nodes d.parent t).1
      { st with nodes := (d.record st.nodes d.parent t).2
                text := st.text ++ String.ofList (if marked then beginMark else []) } := by
  rw [openMarks, hr]
  cases marked with
  | false =>
    have : st.text ++ String.ofList [] = st.text := by simp
    simp only [Bool.false_eq_true, if_false, this]
    rfl
  | true => rfl

/-- What closing marks does: it writes line feeds and the mark. -/
theorem closeMarks_eq (hr : d.recording = true) (marked : Bool) (node : NodeId)
    (st : PreprocessState) :
    d.closeMarks marked node t st = .ok ()
      { st with line := st.line + d.newlinesIn t
                text := st.text ++ String.ofList
                  (List.replicate (d.newlinesIn t) '\n' ++ if marked then endMark node else [])
                  } := by
  have hfeeds : newlines (String.ofList (List.replicate (d.newlinesIn t) '\n')).toList =
      d.newlinesIn t := by
    simp [newlines]
  rw [closeMarks, hr]
  cases marked with
  | false =>
    have hempty : (if false = true then endMark node else []) = [] := rfl
    rw [hempty, List.append_nil]
    change EStateM.Result.ok () { st with line := st.line + _, text := st.text ++ _ } = _
    rw [hfeeds]
  | true =>
    rw [if_pos rfl]
    change EStateM.Result.ok () { st with
      line := st.line + _ + newlines (String.ofList (endMark node)).toList
      text := st.text ++ _ ++ _ } = _
    rw [hfeeds, String.toList_ofList, newlines_endMark, String.ofList_append, String.append_assoc,
      Nat.add_zero]

/-- **What is written between the marks of a directive or use is a region.** -/
theorem writes_between {α : Type} {inner : NodeId → Preprocessing α} {Q : α → Prop}
    (marked : Bool) (kind : NodeKind) (ts : List ParseTree)
    (hi : ∀ node, Writes d.recording (inner node) Q) :
    Writes d.recording (do
      let node ← d.openMarks marked (.node kind ts)
      let a ← inner node
      d.closeMarks marked node (.node kind ts)
      return a) Q := by
  cases hr : d.recording with
  | false =>
    have hopen : Writes false (d.openMarks marked (.node kind ts)) fun _ => True := by
      rw [openMarks, hr]
      exact .pure trivial
    have hclose (node : NodeId) :
        Writes false (d.closeMarks marked node (.node kind ts)) fun _ => True := by
      rw [closeMarks, hr, Bool.and_false]
      exact (writes_emitNewlines _).bind fun _ _ => .pure trivial
    exact hopen.bind fun node _ => (hr ▸ hi node).bind fun a ha =>
      (hclose node).bind fun _ _ => .pure ha
  | true =>
    intro st hst
    obtain ⟨hid, hcontains, -, -⟩ := d.record_node st.nodes d.parent kind ts
    have hextends := d.extends_record st.nodes d.parent (.node kind ts)
    have hopen := d.openMarks_eq (t := .node kind ts) hr marked st
    revert hopen
    generalize d.record st.nodes d.parent (.node kind ts) = r at *
    obtain ⟨id, nodes⟩ := r
    obtain rfl : id = st.nodes.size + 1 := hid
    intro hopen
    set mid : PreprocessState :=
      { st with nodes, text := st.text ++ String.ofList (if marked then beginMark else []) }
      with hmid
    have hin := (hr ▸ hi (st.nodes.size + 1) : Writes true (inner (st.nodes.size + 1)) Q) mid
      ⟨hst.session, hst.macros⟩
    rw [Step.bind_of_ok hopen, Step.bind_eq]
    cases heq : inner (st.nodes.size + 1) mid with
    | error e after =>
      rw [heq] at hin
      exact hin
    | ok a after =>
      rw [heq] at hin
      obtain ⟨⟨hafter, hnodes, ⟨ws, ht, hs, hline⟩, hlines, hsorted⟩, ha⟩ := hin
      have hclose := d.closeMarks_eq (t := .node kind ts) hr marked (st.nodes.size + 1) after
      dsimp only
      rw [Step.bind_of_ok hclose]
      refine ⟨⟨⟨hafter.session, hafter.macros⟩, hextends.trans hnodes, ?_, hlines, hsorted⟩, ha⟩
      -- what is written inside, and the line feeds of the piece behind it, make up the region
      have hfeeds := Unmarked.replicate_newline (d.newlinesIn (.node kind ts))
      have hs : SoundAll true after.nodes.size
          (ws ++ [.text (List.replicate (d.newlinesIn (.node kind ts)) '\n')]) :=
        soundAll_append.mpr ⟨hs, hfeeds, trivial⟩
      have hcount : newlines (List.replicate (d.newlinesIn (.node kind ts)) '\n') =
          d.newlinesIn (.node kind ts) := by
        simp [newlines]
      have hle := (NodeTable.contains_iff.mp (hnodes.contains hcontains)).2
      cases marked with
      | false =>
        refine ⟨_, by simp [ht, hmid, writtenAll, written], hs, ?_⟩
        simp [hline, hmid, writtenAll, written, hcount, Nat.add_assoc]
      | true =>
        refine ⟨[.region (st.nodes.size + 1) _], ?_, ⟨⟨rfl, Nat.succ_pos _, hle, hs⟩, trivial⟩, ?_⟩
        · simp [ht, hmid, writtenAll, written]
        · simp [hline, hmid, writtenAll, written, hcount, newlines_beginMark, newlines_endMark,
            Nat.add_assoc]

/-- What a directive does between its marks. -/
def doDirective (expand : Expander) (includer : Includer) (d : DirectiveText) (scope : ScanScope)
    (kind : NodeKind) (t : ParseTree) (node : NodeId) : Preprocessing ScanScope :=
  if isConditional kind then do
    let conditions ← d.stepConditions kind t scope.conditions
    return { scope with conditions }
  else if scope.conditions.active then d.act expand includer scope kind node t
  else return scope

theorem scanDirective_eq (kind : NodeKind) :
    d.scanDirective expand includer scope kind t = (do
      let node ← d.openMarks true t
      let scope ← d.doDirective expand includer scope kind t node
      d.closeMarks true node t
      return scope) := by
  unfold scanDirective doDirective
  split
  · simp
  · split <;> simp

/-- What a macro use does between its marks. -/
def doUse (expand : Expander) (d : DirectiveText) (active : Bool) (t : ParseTree) (node : NodeId) :
    Preprocessing Unit :=
  if active then do
    let text ← d.evaluate expand t
    text.forM fun text => Preprocessing.emit (String.ofList (flatten text.toList))
    modify fun st =>
      let definition := (((d.usedName t).bind st.macros.get?).map (·.node)).getD 0
      { st with nodes := st.nodes.modify node fun n => { n with definition } }
  else return ()

theorem scanUse_eq : d.scanUse expand scope t = (do
    let node ← d.openMarks scope.conditions.active t
    let a ← d.doUse expand scope.conditions.active t node
    d.closeMarks scope.conditions.active node t
    return a) := by
  unfold scanUse doUse
  dsimp only
  congr 1
  funext node
  cases scope.conditions.active with
  | false => simp
  | true =>
    simp only [if_true, bind_assoc]
    congr 1
    funext text
    cases text <;> simp [Option.forM]

theorem writes_doDirective (hd : d.Unmarked) (he : Expands expand) (hi : Includes marking includer)
    (hs : scope.Unmarked) (kind : NodeKind) (node : NodeId) :
    Writes marking (d.doDirective expand includer scope kind t node) ScanScope.Unmarked := by
  rw [doDirective]
  split
  · exact (writes_stepConditions hd kind _).bind fun _ _ => .pure hs
  · split
    · exact writes_act hd he hi hs kind node
    · exact .pure hs

theorem writes_doUse (hd : d.Unmarked) (he : Expands expand) (active : Bool) (node : NodeId) :
    Writes marking (d.doUse expand active t node) fun _ => True := by
  rw [doUse]
  split
  · refine (writes_evaluate hd he).bind fun text htext => WritesFrom.bind (Q := fun _ => True) ?_ ?_
    · cases text with
      | none => exact .pure trivial
      | some text => exact writes_emit (by simpa using (htext text rfl).flatten)
    · exact fun _ _ => .modify fun st hst =>
        .of_text_eq ⟨hst.session, hst.macros⟩ (.modify _ _ fun _ => rfl) rfl rfl rfl
  · exact .pure trivial

theorem writes_scanDirective (hd : d.Unmarked) (he : Expands expand)
    (hi : Includes d.recording includer) (hs : scope.Unmarked) (kind kind' : NodeKind)
    (ts : List ParseTree) :
    Writes d.recording (d.scanDirective expand includer scope kind (.node kind' ts))
      ScanScope.Unmarked := by
  rw [scanDirective_eq]
  exact writes_between true kind' ts fun node => writes_doDirective hd he hi hs kind node

theorem writes_scanUse (hd : d.Unmarked) (he : Expands expand) (kind : NodeKind)
    (ts : List ParseTree) :
    Writes d.recording (d.scanUse expand scope (.node kind ts)) fun _ => True := by
  rw [scanUse_eq]
  exact writes_between _ kind ts fun node => writes_doUse hd he _ node

/-- **A piece of a text** writes stretches. -/
theorem writes_scanPiece (hd : d.Unmarked) (he : Expands expand)
    (hi : Includes d.recording includer) (hs : scope.Unmarked) :
    Writes d.recording (d.scanPiece expand includer scope t) ScanScope.Unmarked := by
  unfold scanPiece
  split
  · exact (writes_copyToken hd _).bind fun _ _ => .pure hs
  · split
    · exact writes_scanDirective hd he hi hs _ _ _
    · split
      · exact (writes_scanUse hd he _ _).bind fun _ _ => .pure hs
      · exact (WritesFrom.forM fun i _ => writes_copyToken hd i).bind fun _ _ => .pure hs

theorem writes_reportOpenChains (hd : d.Unmarked) (cs : Conditionals) :
    Writes marking (d.reportOpenChains cs) fun _ => True := by
  rw [reportOpenChains]
  split
  · exact WritesFrom.forM fun c _ => Preprocessing.writes_report
      (DirectiveFault.unmarked_diagnostic (by simp [DirectiveFault.quoted]) hd.file)
  · exact .pure trivial

/-- **A whole text** writes stretches. -/
theorem writes_scan (hd : d.Unmarked) (he : Expands expand) (hi : Includes d.recording includer) :
    Writes d.recording (d.scan expand includer) fun _ => True := by
  unfold scan
  refine (WritesFrom.foldlM (R := ScanScope.Unmarked) ScanScope.unmarked_empty ?_).bind
    fun scope _ => writes_reportOpenChains hd _
  exact fun t _ scope hs => writes_scanPiece hd he hi hs

end DirectiveText

/-! ### Files -/

/-- **Expansions give unmarked texts**, however deep they may nest. -/
theorem expands_expandWithin (depth : Nat) : Expands (expandWithin depth) := by
  induction depth with
  | zero => exact fun _ _ _ _ _ ht => .pure ht
  | succ depth ih =>
    intro file name text marking hf ht
    rw [expandWithin]
    dsimp only
    split
    · have hd := DirectiveText.unmarked_ofText 0 false ht hf
      exact writes_apart (DirectiveText.writes_scan hd ih fun _ _ => .pure trivial) name
    · exact .pure ht

/-- The path under which a file is found is put together from unmarked pieces. -/
theorem unmarked_resolveInclude {files : FileStore} {includeDirs : List String}
    {source : Option String} {name path : String}
    (hdirs : ∀ dir ∈ includeDirs, Unmarked dir.toList) (hsource : Unmarked (nameText source).toList)
    (hname : Unmarked name.toList)
    (h : resolveInclude files includeDirs source name = some path) : Unmarked path.toList := by
  have hmem := List.mem_of_find?_eq_some h
  rw [includeCandidates] at hmem
  obtain ⟨p, hp, rfl⟩ := List.mem_map.mp hmem
  rw [String.toList_ofList]
  rcases List.mem_append.mp hp with hp | hp
  · obtain ⟨dir, hdir, rfl⟩ := List.mem_map.mp hp
    refine .pathJoin ?_ hname
    rcases List.mem_append.mp hdir with hdir | hdir
    · exact hsource.parent (Option.mem_toList.mp hdir)
    · obtain ⟨included, hincluded, rfl⟩ := List.mem_map.mp hdir
      exact hdirs included hincluded
  · exact List.mem_singleton.mp hp ▸ hname

/-- **Inclusions write stretches**, however deep they may nest. -/
theorem includes_includeWithin {includeDirs : List String}
    (hdirs : ∀ dir ∈ includeDirs, Unmarked dir.toList) (depth : Nat) :
    Includes true (includeWithin includeDirs depth) := by
  induction depth with
  | zero => exact fun _ _ => .pure trivial
  | succ depth ih =>
    intro request hr
    rw [includeWithin]
    refine WritesFrom.get_bind fun st hst => ?_
    have hrefuse (fault : DirectiveFault) (h : ∀ s ∈ fault.quoted, Unmarked s.toList) :
        WritesFrom 0 true (do
          Preprocessing.report
            (fault.diagnostic ⟨nameText request.source, request.line, request.column⟩)
          return (none : Option String)) fun _ => True :=
      (Preprocessing.writes_report (DirectiveFault.unmarked_diagnostic h hr.source)).bind
        fun _ _ => .pure trivial
    dsimp only
    cases hpath : resolveInclude st.session.files includeDirs request.source request.name with
    | none =>
      exact hrefuse (.includeNotFound _) (by simpa [DirectiveFault.quoted] using hr.name) st hst
    | some path =>
      have hp := unmarked_resolveInclude hdirs hr.source hr.name hpath
      dsimp only
      by_cases hcycle : st.including.any (sameFile st.session.files · path) = true
      · rw [if_pos hcycle]
        exact hrefuse (.includeCycle _ path) (by simp [DirectiveFault.quoted, hr.name, hp]) st hst
      · rw [if_neg hcycle]
        cases htext : st.session.files.text? path with
        | none =>
          exact hrefuse (.includeNotText _ path) (by simp [DirectiveFault.quoted, hr.name, hp]) st
            hst
        | some text =>
          have hd := DirectiveText.unmarked_ofText request.node true
            (hst.session.files.text htext) (Unmarked.InSome.some hp).nameText
          refine (ends_startSection hst (Nat.le_refl _)).bind fun _ _ => ?_
          refine (writes_inside ?_ path).bind fun _ _ => .pure trivial
          exact (DirectiveText.writes_scan hd (expands_expandWithin _) ih).nearer (Nat.zero_le 1)

/-- What preprocessing starts from. -/
def PreprocessState.start (path text : String) (s : Session) : PreprocessState :=
  { session := s
    nodes := (({ file := some path, library := s.config.library } : NodeTable).add
      (topNode text.toList (some path))).2
    lines := .ofFile (some path), including := [path]
    macros := MacroTable.defineAll {} s.config.defines.entries }

/-- The program that preprocesses a text, from what it starts from. -/
def scanFile (path text : String) (s : Session) : Preprocessing Unit :=
  (DirectiveText.ofText text (some path) 1 true).scan expandText
    (includeWithin s.config.includeDirs (s.files.entries.length + 1))

theorem preprocessText_eq (path text : String) (s : Session) :
    preprocessText path text s = match scanFile path text s (.start path text s) with
    | .ok _ st => .ok ⟨some path, st.text, st.nodes, st.lines, st.includes.toList, st.macros,
        st.states.toList⟩ st.session
    | .error e st => .error e st.session := by
  change (match scanFile path text s (.start path text s) with
    | .ok _ st => (do
      set st.session
      return (⟨some path, st.text, st.nodes, st.lines, st.includes.toList, st.macros,
        st.states.toList⟩ : PreprocessedText) : Reporting PreprocessedText)
    | .error e st => (do set st.session; throw e)) s = _
  cases scanFile path text s (.start path text s) <;> rfl

/-- A text that is preprocessed has been scanned, and what comes out is what the scan left. -/
theorem scanFile_of_preprocessText {path text : String} {s s' : Session} {p : PreprocessedText}
    (h : preprocessText path text s = .ok p s') : ∃ after,
      scanFile path text s (.start path text s) = .ok () after ∧ s' = after.session ∧
      p = ⟨some path, after.text, after.nodes, after.lines, after.includes.toList, after.macros,
        after.states.toList⟩ := by
  rw [preprocessText_eq] at h
  cases heq : scanFile path text s (.start path text s) with
  | error e after =>
    rw [heq] at h
    cases h
  | ok u after =>
    rw [heq] at h
    obtain ⟨rfl, rfl⟩ := EStateM.Result.ok.inj h
    exact ⟨after, rfl, rfl, rfl⟩

/-- **What preprocessing a text writes**: stretches whose marks carry numbers of nodes. It fails
only where a run is to stop at the first error. -/
theorem preprocessText_spec {path text : String} {s : Session} (hs : s.Unmarked)
    (hp : Unmarked path.toList) (ht : Unmarked text.toList) :
    match preprocessText path text s with
    | .ok p _ => ∃ ws, p.text.toList = writtenAll ws ∧ SoundAll true p.nodes.size ws
    | .error e _ => ∃ d, e = .firstError d := by
  have hd := DirectiveText.unmarked_ofText 1 true ht
    (Unmarked.InSome.some hp).nameText
  have hscan : Writes true (scanFile path text s) fun _ => True :=
    DirectiveText.writes_scan hd (expands_expandWithin _) (includes_includeWithin hs.includeDirs _)
  have hmacros : MacroTable.Unmarked {} := by simp [MacroTable.Unmarked]
  have hstart : (PreprocessState.start path text s).Unmarked := ⟨hs, hmacros.defineAll hs.defines⟩
  have hend := hscan _ hstart
  rw [preprocessText_eq]
  cases heq : scanFile path text s (.start path text s) with
  | error e st =>
    rw [heq] at hend
    exact hend
  | ok _ st =>
    rw [heq] at hend
    obtain ⟨ws, hws, hsound, -⟩ := hend.1.text
    exact ⟨ws, by simpa [PreprocessState.start] using hws, hsound⟩

end Verilog
