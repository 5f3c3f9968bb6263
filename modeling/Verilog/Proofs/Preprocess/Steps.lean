import Verilog.Proofs.Preprocess.Run
import Verilog.Proofs.Step

/-!
# The steps of preprocessing

Of every program that preprocesses a text it is shown here how it is put together: from steps that
report, that change the macros and settings, that write, that hang nodes below one that is there,
and from the two ways of going on elsewhere, an expansion with a text of its own and an inclusion.
All but those that write or hang nodes leave the text, the line, the nodes and what is open as they
are (`Preprocessing.Quiet`), expansions as a whole too, however deep they nest.

What the others keep is left open (`Preprocessing.Allows`, `Preprocessing.Hangs`), so that it can be
asked later of the lines, of the nodes, or of the expansions and inclusions that are open. It may
hang on the node that a text's nodes hang under, since what stands between the marks of a directive
hangs its own nodes under the one that was recorded for it (`DirectiveText.composed_between`).

Only inclusions look at the session, and there only at the files. So whether a run stops at errors
makes no difference to a program but that it stops (`DirectiveText.composed_scan`).
-/

namespace Verilog

instance : HasSession PreprocessState where
  sessionOf st := st.session
  putSession s st := { st with session := s }
  sessionOf_putSession _ _ := rfl
  putSession_sessionOf _ := rfl
  putSession_putSession _ _ _ := rfl

namespace Preprocessing

open Step

/-! ### What steps keep -/

/-- Are the text, the line, the nodes and what is open the same? -/
structure Quiet (before after : PreprocessState) : Prop where
  text : after.text = before.text
  line : after.line = before.line
  nodes : after.nodes = before.nodes
  expanding : after.expanding = before.expanding
  including : after.including = before.including

/-- Are the origins of lines the same as well? -/
structure Still (before after : PreprocessState) : Prop extends Quiet before after where
  lines : after.lines = before.lines

/-- Are the same expansions and inclusions open? -/
structure KeepsOpen (before after : PreprocessState) : Prop where
  expanding : after.expanding = before.expanding
  including : after.including = before.including

/-- Are the nodes and what is open the same? -/
structure KeepsNodes (before after : PreprocessState) : Prop extends KeepsOpen before after where
  nodes : after.nodes = before.nodes

/-- The state with something added to its text. -/
def written (s : String) (st : PreprocessState) : PreprocessState :=
  { st with line := st.line + newlines s.toList, text := st.text ++ s }

/-- The state with other nodes. -/
def withNodes (nodes : NodeTable) (st : PreprocessState) : PreprocessState := { st with nodes }

/-- **Are relations of states kept by what preprocessing does without nodes**, one relation for each
node that others may hang under? -/
structure Allows (Q : NodeId → PreprocessState → PreprocessState → Prop) : Prop where
  frame : ∀ p, Frame (Q p)
  quiet : ∀ {p st after}, Quiet st after → Q p st after
  write : ∀ p s st, Q p st (written s st)
  inside : ∀ p path st after, Q p { st with including := path :: st.including } after →
    Q p st { after with including := st.including }

/-- **Are they kept by what is done with the nodes of a piece of a text?** They are recorded, unless
it is a token, and what is kept with the first of them is kept as a whole; and that one may be led
to a definition. -/
structure Hangs (Q : NodeId → PreprocessState → PreprocessState → Prop) (d : DirectiveText)
    (t : ParseTree) : Prop where
  record : t.kind?.isSome → ∀ st after, Q (d.record st.nodes d.parent t).1
    (withNodes (d.record st.nodes d.parent t).2 st) after → Q d.parent st after
  lead : ∀ p st definition,
    Q p st (withNodes (st.nodes.modify p fun n => { n with definition }) st)

/-- A relation that says nothing of nodes. -/
theorem Hangs.of_blind {Q : PreprocessState → PreprocessState → Prop} (hQ : Frame Q)
    (h : ∀ nodes st, Q st (withNodes nodes st)) (d : DirectiveText) (t : ParseTree) :
    Hangs (fun _ => Q) d t :=
  ⟨fun _ st _ hafter => hQ.trans (h _ st) hafter, fun _ st _ => h _ st⟩

theorem allows_keepsOpen : Allows fun _ => KeepsOpen where
  frame _ := {
    refl := fun _ => ⟨rfl, rfl⟩
    trans := fun h h' => ⟨h'.expanding.trans h.expanding, h'.including.trans h.including⟩
    session := fun _ _ => ⟨rfl, rfl⟩ }
  quiet h := ⟨h.expanding, h.including⟩
  write _ _ _ := ⟨rfl, rfl⟩
  inside _ _ _ _ h := ⟨h.expanding, rfl⟩

theorem hangs_keepsOpen (d : DirectiveText) (t : ParseTree) : Hangs (fun _ => KeepsOpen) d t :=
  .of_blind (allows_keepsOpen.frame 0) (fun _ _ => ⟨rfl, rfl⟩) d t

theorem allows_keepsNodes : Allows fun _ => KeepsNodes where
  frame _ := {
    refl := fun _ => ⟨⟨rfl, rfl⟩, rfl⟩
    trans := fun h h' => ⟨(allows_keepsOpen.frame 0).trans h.1 h'.1, h'.nodes.trans h.nodes⟩
    session := fun _ _ => ⟨⟨rfl, rfl⟩, rfl⟩ }
  quiet h := ⟨⟨h.expanding, h.including⟩, h.nodes⟩
  write _ _ _ := ⟨⟨rfl, rfl⟩, rfl⟩
  inside _ _ _ _ h := ⟨⟨h.expanding, rfl⟩, h.nodes⟩

/-! ### Steps -/

section

variable {F : Session → Session → Prop} {Q : PreprocessState → PreprocessState → Prop}
  {R : NodeId → PreprocessState → PreprocessState → Prop}

theorem composed_emit {s : String} (h : ∀ st, Q st (written s st)) : Composed F Q (emit s) :=
  .modify (fun _ _ => rfl) h

theorem composed_report (d : Diagnostic) : Composed F Q (report d) := .report d

theorem composed_startSection (s : LineSection) : Composed F Quiet (startSection s) :=
  .modify (fun _ _ => rfl) fun _ => ⟨rfl, rfl, rfl, rfl, rfl⟩

theorem composed_changeSettings (f : DirectiveState → DirectiveState) :
    Composed F Still (changeSettings f) :=
  .modify (fun _ _ => rfl) fun _ => ⟨⟨rfl, rfl, rfl, rfl, rfl⟩, rfl⟩

theorem composed_modifyMacros (f : MacroTable → MacroTable) :
    Composed F Still (modifyMacros f) :=
  .modify (fun _ _ => rfl) fun _ => ⟨⟨rfl, rfl, rfl, rfl, rfl⟩, rfl⟩

/-- An expansion leaves the text alone if it closes what it opens and hangs no nodes. -/
theorem composed_apart {x : Preprocessing Unit} (hx : Composed F KeepsNodes x) (name : String) :
    Composed F Quiet (apart x name) := by
  have heq : apart x name = elsewhere
      (fun st => { st with text := "", expanding := name :: st.expanding })
      (fun st after => { after with text := st.text, line := st.line, expanding := st.expanding })
      (fun _ after => after.text) x := by
    funext st
    rw [apart, elsewhere]
    cases x { st with text := "", expanding := name :: st.expanding } <;> rfl
  rw [heq]
  refine .elsewhere ⟨fun _ => rfl, fun _ _ _ => rfl, fun _ _ _ _ _ => rfl, fun _ _ _ => rfl⟩
    (allows_keepsNodes.frame 0) hx fun st after h => ⟨rfl, rfl, h.nodes, rfl, h.including⟩

theorem composed_inside {x : Preprocessing Unit} {p : NodeId} (hR : Allows R)
    (hx : Composed F (R p) x) (path : String) : Composed F (R p) (inside path x) := by
  have heq : inside path x = elsewhere
      (fun st => { st with including := path :: st.including })
      (fun st after => { after with including := st.including }) (fun _ _ => ()) x := by
    funext st
    rw [inside, elsewhere]
    cases x { st with including := path :: st.including } <;> rfl
  rw [heq]
  exact .elsewhere ⟨fun _ => rfl, fun _ _ _ => rfl, fun _ _ _ _ _ => rfl, fun _ _ _ => rfl⟩
    (hR.frame p) hx (hR.inside p path)

end

/-- **Does expanding a text leave the text, the line, the nodes and what is open alone**, whatever
is expanded? -/
def Expanding (F : Session → Session → Prop) (expand : Expander) : Prop :=
  ∀ file name text, Composed F Quiet (expand file name text)

/-- Are inclusions put together from such steps, whatever is included? Its nodes hang under the node
that it is asked for by. -/
def Including (F : Session → Session → Prop)
    (R : NodeId → PreprocessState → PreprocessState → Prop) (includer : Includer) : Prop :=
  ∀ request, Composed F (R request.node) (includer request)

end Preprocessing

open Preprocessing Step

namespace DirectiveText

variable {F : Session → Session → Prop} {Q : PreprocessState → PreprocessState → Prop}
  {R : NodeId → PreprocessState → PreprocessState → Prop} {d : DirectiveText} {t : ParseTree}
  {expand : Expander} {includer : Includer}

theorem composed_report (fault : DirectiveFault) (token : Option Nat) :
    Composed F Q (d.report fault token) := Preprocessing.composed_report _

theorem composed_stepConditions (kind : NodeKind) (cs : Conditionals) :
    Composed F Still (d.stepConditions kind t cs) := by
  rw [stepConditions]
  refine .look (fun _ _ _ => rfl) fun st => ?_
  split
  · exact .pure _
  · exact .pure _
  iterate 3
    · dsimp only
      split
      · exact .pure _
      · exact (composed_report _ _).bind fun _ => .pure _
  · exact .pure _

theorem composed_define (node : NodeId) : Composed F Still (d.define node t) := by
  rw [define]
  split
  · exact .pure _
  · split
    · exact composed_report _ _
    · refine .look (fun _ _ _ => rfl) fun st => ?_
      split
      · exact (composed_report _ _).bind fun _ => composed_modifyMacros _
      · exact composed_modifyMacros _

theorem composed_undefine : Composed F Still (d.undefine t) := by
  rw [undefine]
  refine .look (fun _ _ _ => rfl) fun st => ?_
  split
  · exact composed_modifyMacros _
  · exact composed_report _ _

theorem composed_evaluate (he : Expanding F expand) :
    Composed F Quiet (d.evaluate expand t) := by
  have hrefuse (fault : DirectiveFault) : Composed F Quiet
      (do d.report fault t.first?; return none : Preprocessing (Option String)) :=
    (composed_report _ _).bind fun _ => .pure _
  rw [evaluate]
  split
  · exact .pure _
  · refine .look (fun _ _ _ => rfl) fun st => ?_
    split
    · exact hrefuse _
    · split
      · exact hrefuse _
      · split
        · exact hrefuse _
        · exact (he _ _ _).map _

theorem composed_includedName (he : Expanding F expand) :
    Composed F Quiet (d.includedName expand t) := by
  unfold includedName
  dsimp only
  split
  · exact (Composed.pure _).bind fun _ => .pure _
  · split
    · exact (composed_evaluate he).bind fun _ => .pure _
    · exact (Composed.pure _).bind fun _ => .pure _

/-- What an inclusion hangs its nodes under is the node of the directive. -/
theorem composed_includeFile (hR : Allows R) (he : Expanding F expand)
    (hi : Including F R includer) (scope : ScanScope) (node : NodeId) :
    Composed F (R node) (d.includeFile expand includer scope node t) := by
  have hquiet {α : Type} {x : Preprocessing α} (hx : Composed F Quiet x) :
      Composed F (R node) x := hx.mono fun _ _ => hR.quiet
  have hwrite (s : String) : Composed F (R node) (emit s) := composed_emit (hR.write node s)
  have hedges {f : PreprocessState → Array IncludeEdge}
      (hf : ∀ st s, f (putSession s st) = f st) : Composed F Quiet
        (modify fun st => { st with includes := f st } : Preprocessing Unit) :=
    .modify (fun st s => by rw [hf]; rfl) fun _ => ⟨rfl, rfl, rfl, rfl, rfl⟩
  unfold includeFile
  split
  · exact .pure _
  · refine (hquiet (composed_includedName he)).bind fun r => ?_
    cases r with
    | none => exact .pure _
    | some name =>
      refine .look (fun _ _ _ => rfl) fun st => ?_
      refine (hquiet (hedges fun _ _ => rfl)).bind fun _ => ?_
      have hincluded := hi ⟨d.file, name, node, (d.rangeOf t).line, (d.rangeOf t).column⟩
      refine (hwrite _).bind fun _ => hincluded.bind fun resolved => ?_
      refine (hquiet (hedges fun _ _ => rfl)).bind fun _ => .look (fun _ _ _ => rfl) fun st => ?_
      dsimp only
      split
      · exact (hwrite _).bind fun _ =>
          .look (fun _ _ _ => rfl) fun _ => hquiet (composed_startSection _)
      · exact .look (fun _ _ _ => rfl) fun _ => hquiet (composed_startSection _)

theorem composed_renumber (scope : ScanScope) : Composed F Quiet (d.renumber scope t) := by
  unfold renumber
  dsimp only
  split
  · split
    · exact (composed_report _ _).bind fun _ => .pure _
    · exact .look (fun _ _ _ => rfl) fun _ => (composed_startSection _).bind fun _ => .pure _
  · exact (composed_report _ _).bind fun _ => .pure _

theorem composed_changeSettings (f : DirectiveState → DirectiveState) :
    Composed F Still (d.changeSettings f) := by
  rw [changeSettings]
  split
  · exact Preprocessing.composed_changeSettings f
  · exact .pure _

theorem composed_setTimeScale : Composed F Still (d.setTimeScale t) := by
  unfold setTimeScale
  dsimp only
  split
  · exact composed_changeSettings _
  · exact composed_report _ _

theorem composed_setNetType : Composed F Still (d.setNetType t) := by
  unfold setNetType
  dsimp only
  split
  · exact composed_changeSettings _
  · exact composed_report _ _

/-- Of the directives that are no conditional ones an inclusion and the two predefined texts
write, and an inclusion and the numbering of lines change where lines come from. -/
theorem composed_act (hstill : ∀ {st after}, Still st after → Q st after) {scope : ScanScope}
    {kind : NodeKind} {node : NodeId}
    (hrenumber : kind = .ppLineDirective → Composed F Q (d.renumber scope t))
    (hinclude : kind = .ppIncludeDirective →
      Composed F Q (d.includeFile expand includer scope node t))
    (hfile : ∀ st, Q st (written ("\"" ++ nameText (scope.sourcePlace d.file 0).1 ++ "\"") st))
    (hline : ∀ (n : Nat) st, Q st (written (toString n) st)) :
    Composed F Q (d.act expand includer scope kind node t) := by
  have hreturn {x : Preprocessing Unit} (hx : Composed F Q x) :
      Composed F Q (do x; return scope) := hx.bind fun _ => .pure _
  have hkeep {x : Preprocessing Unit} (hx : Composed F Still x) : Composed F Q x :=
    hx.mono fun _ _ => hstill
  unfold act
  split
  · exact hreturn (hkeep composed_undefine)
  · exact hreturn (hkeep (composed_modifyMacros _))
  · exact hreturn (hinclude rfl)
  · exact hrenumber rfl
  · exact hreturn (hkeep composed_setTimeScale)
  · exact hreturn (hkeep composed_setNetType)
  · exact hreturn (hkeep (composed_changeSettings _))
  · exact hreturn (composed_emit hfile)
  · exact hreturn (composed_emit (hline _))
  · dsimp only
    split
    · exact hreturn (hkeep (composed_define node))
    · exact .pure _

/-! ### Scanning -/

theorem composed_copyToken (hwrite : ∀ s st, Q st (written s st)) (scope : ScanScope) (i : Nat) :
    Composed F Q (d.copyToken scope i) := by
  unfold copyToken
  split
  · exact .pure _
  · split
    · dsimp only
      split
      · exact (composed_report _ _).bind fun _ => composed_emit (hwrite _)
      · exact composed_emit (hwrite _)
    · split
      · exact composed_emit (hwrite _)
      · split <;> exact composed_emit (hwrite _)

theorem composed_closeMarks (hwrite : ∀ s st, Q st (written s st)) (marked : Bool)
    (node : NodeId) : Composed F Q (d.closeMarks marked node t) := by
  unfold closeMarks
  refine (composed_emit (hwrite _)).bind fun _ => ?_
  split
  · exact composed_emit (hwrite _)
  · exact .pure _

/-- **What a directive or use does as a whole**, from what it does between its marks: there it has
the node that was recorded for it, if nodes are recorded at all. -/
theorem composed_between {α : Type} {inner : NodeId → Preprocessing α} (hR : Allows R)
    (hh : d.recording = true → Hangs R d t) (ht : t.kind?.isSome) (marked : Bool)
    (hin : d.recording = true → ∀ node, Composed F (R node) (inner node))
    (hout : d.recording = false → Composed F (R d.parent) (inner 0)) :
    Composed F (R d.parent) (do
      let node ← d.openMarks marked t
      let a ← inner node
      d.closeMarks marked node t
      return a) := by
  have hrest {p node : NodeId} (hi : Composed F (R p) (inner node)) : Composed F (R p) (do
      let a ← inner node
      d.closeMarks marked node t
      return a) :=
    hi.bind fun _ => (composed_closeMarks (hR.write p) _ _).bind fun _ => .pure _
  rw [openMarks]
  cases hr : d.recording with
  | false => exact hrest (hout hr)
  | true =>
    -- what stands behind the recording keeps what belongs to the node that was recorded
    have hopened (node : NodeId) : Composed F (R node) (do
        if marked then Preprocessing.emit (String.ofList beginMark)
        let a ← inner node
        d.closeMarks marked node t
        return a) := by
      split
      · exact (composed_emit (hR.write node _)).bind fun _ => hrest (hin hr node)
      · exact hrest (hin hr node)
    have hhang := Composed.told (F := F) (f := fun st : PreprocessState =>
      ((d.record st.nodes d.parent t).1, withNodes (d.record st.nodes d.parent t).2 st))
      (fun _ _ => rfl) hR.frame hopened ((hh hr).record ht)
    cases marked <;> simpa [withNodes] using hhang

theorem composed_doDirective (hR : Allows R) (he : Expanding F expand)
    (hi : Including F R includer) {p : NodeId} (scope : ScanScope) (kind : NodeKind)
    (node : NodeId) (hp : d.recording = true → p = node) :
    Composed F (R p) (d.doDirective expand includer scope kind t node) := by
  rw [doDirective]
  split
  · exact ((composed_stepConditions _ _).mono fun _ _ h => hR.quiet h.toQuiet).bind fun _ =>
      .pure _
  · split
    · refine composed_act (fun h => hR.quiet h.toQuiet)
        (fun _ => (composed_renumber scope).mono fun _ _ => hR.quiet) (fun _ => ?_)
        (hR.write p _) fun _ => hR.write p _
      cases hr : d.recording with
      | true => exact hp hr ▸ composed_includeFile hR he hi scope node
      | false =>
        rw [includeFile, hr]
        exact .pure _
    · exact .pure _

theorem composed_doUse (hR : Allows R) (he : Expanding F expand) (active : Bool) {p : NodeId}
    (node : NodeId) (hlead : ∀ st definition,
      R p st (withNodes (st.nodes.modify node fun n => { n with definition }) st)) :
    Composed F (R p) (d.doUse expand active t node) := by
  rw [doUse]
  split
  · refine ((composed_evaluate he).mono fun _ _ => hR.quiet).bind fun text => ?_
    have hwritten : Composed F (R p)
        (text.forM fun text => emit (String.ofList (flatten text.toList))) := by
      cases text with
      | none => exact .pure _
      | some text => exact composed_emit (hR.write p _)
    exact hwritten.bind fun _ => .modify (fun _ _ => rfl) fun st => hlead st _
  · exact .pure _

/-- **One piece of a text.** -/
theorem composed_scanPiece (hR : Allows R) (hh : d.recording = true → Hangs R d t)
    (he : Expanding F expand) (hi : Including F R includer) (scope : ScanScope) :
    Composed F (R d.parent) (d.scanPiece expand includer scope t) := by
  have hcopy (i : Nat) : Composed F (R d.parent) (d.copyToken scope i) :=
    composed_copyToken (hR.write _) scope i
  unfold scanPiece
  split
  · exact (hcopy _).bind fun _ => .pure _
  · split
    · rw [scanDirective_eq]
      exact composed_between hR hh rfl true
        (fun _ node => composed_doDirective hR he hi scope _ node fun _ => rfl)
        fun hr => composed_doDirective hR he hi scope _ 0 fun h => by simp [hr] at h
    · split
      · rw [scanUse_eq]
        refine Composed.bind (composed_between hR hh rfl _
          (fun hr node => composed_doUse hR he _ node ((hh hr).lead node))
          fun _ => composed_doUse hR he _ 0 fun st _ => ?_) fun _ => .pure _
        -- there is no node zero that could be led anywhere
        exact (hR.frame _).refl st
      · exact (Composed.forM fun i _ => hcopy i).bind fun _ => .pure _

theorem composed_reportOpenChains (cs : Conditionals) :
    Composed F Q (d.reportOpenChains cs) := by
  rw [reportOpenChains]
  split
  · exact .forM fun c _ => Preprocessing.composed_report _
  · exact .pure _

/-- **A whole text.** -/
theorem composed_scan (hR : Allows R)
    (hh : d.recording = true →
      ∀ t ∈ (DirectiveGrammar.parse d.tokens.toList).children, Hangs R d t)
    (he : Expanding F expand) (hi : Including F R includer) :
    Composed F (R d.parent) (d.scan expand includer) := by
  unfold scan
  exact (Composed.foldlM (fun scope t ht =>
    composed_scanPiece hR (fun hr => hh hr t ht) he hi scope) _).bind
      fun scope => composed_reportOpenChains _

/-- **Expansions** leave the text, the line, the nodes and what is open alone, however deep they may
nest. -/
theorem expanding_expandWithin (depth : Nat) : Expanding F (expandWithin depth) := by
  induction depth with
  | zero => exact fun _ _ _ => .pure _
  | succ depth ih =>
    intro file name text
    rw [expandWithin]
    dsimp only
    split
    · exact composed_apart
        (composed_scan allows_keepsNodes (fun h => absurd h Bool.false_ne_true) ih
          fun _ => .pure _) name
    · exact .pure _

/-- **Inclusions**, however deep they may nest. They look at the files of the session. -/
theorem including_includeWithin (hR : Allows R)
    (hh : ∀ text file parent, ∀ t ∈ (DirectiveGrammar.parse (DirectiveToken.ofText text)).children,
      Hangs R (.ofText text file parent true) t)
    (hF : ∀ s t, F s t → t.files = s.files) (includeDirs : List String) (depth : Nat) :
    Including F R (includeWithin includeDirs depth) := by
  induction depth with
  | zero => exact fun _ => .pure _
  | succ depth ih =>
    intro request
    rw [includeWithin]
    refine .look (fun st s hs => ?_) fun st => ?_
    · have hfiles : (putSession s st).session.files = st.session.files := hF _ _ hs
      rw [hfiles]
      rfl
    have hrefuse (fault : DirectiveFault) : Composed F (R request.node) (do
        Preprocessing.report
          (fault.diagnostic ⟨nameText request.source, request.line, request.column⟩)
        return (none : Option String)) := (Preprocessing.composed_report _).bind fun _ => .pure _
    dsimp only
    cases resolveInclude st.session.files includeDirs request.source request.name with
    | none => exact hrefuse _
    | some path =>
      dsimp only
      by_cases hcycle : st.including.any (sameFile st.session.files · path) = true
      · rw [if_pos hcycle]
        exact hrefuse _
      · rw [if_neg hcycle]
        cases st.session.files.text? path with
        | none => exact hrefuse _
        | some text =>
          refine ((composed_startSection _).mono fun _ _ => hR.quiet).bind fun _ => ?_
          have hscan := composed_scan (d := .ofText text (some path) request.node true) hR
            (fun _ t ht => hh text _ _ t (by simpa [ofText] using ht))
            (expanding_expandWithin (F := F) maxExpansionDepth) ih
          exact (composed_inside hR hscan path).bind fun _ => .pure _

end DirectiveText

/-! ### Runs that do not stop at errors

The only failure of preprocessing is the first error, where a run is to stop at it. Where it is not,
every program ends with a result, whatever the text: so all pieces of a text are scanned.
-/

open Preprocessing Session

/-- Is the run one that does not stop at errors? -/
def PreprocessState.Lenient (st : PreprocessState) : Prop := st.session.config.failFast = false

/-- **Every piece of a text is scanned.** -/
theorem DirectiveText.succeeds_scanPiece {d : DirectiveText} {t : ParseTree} {expand : Expander}
    {includer : Includer} (he : Expanding UpToStopping expand)
    (hi : Including UpToStopping (fun _ => KeepsOpen) includer) (scope : ScanScope)
    {st : PreprocessState} (hst : st.Lenient) : ∃ scope' after,
      d.scanPiece expand includer scope t st = .ok scope' after ∧ after.Lenient :=
  (composed_scanPiece allows_keepsOpen (fun _ => hangs_keepsOpen d t) he hi scope).succeeds
    Step.alike_upToStopping UpToStopping.refl hst

end Verilog
