import Verilog.Proofs.Preprocess.Chain
import Verilog.Proofs.Preprocess.Run
import Verilog.Proofs.Preprocess.Steps
import Verilog.Proofs.Source.Mark

/-!
# Which pieces of a text are active

A scan goes over the pieces of a text one by one. What each of them is to the chains of conditional
directives depends on the macros in force when it is reached, and on nothing else; so the steps of a
text are read off its scan, and whether a piece is active off the steps before it.
-/

namespace Verilog

open Preprocessing Session ConditionStep

/-! ### Visits -/

/-- The scan of one piece: the piece, what the scan kept from those before it, and the states before
and after it. -/
structure Visit where
  piece : ParseTree
  scope : ScanScope
  before : PreprocessState
  after : PreprocessState

namespace DirectiveText

/-- The scans of pieces one after the other. -/
def visits (expand : Expander) (includer : Includer) (d : DirectiveText) :
    List ParseTree → ScanScope → PreprocessState → List Visit
  | [], _, _ => []
  | t :: ts, scope, st =>
    match d.scanPiece expand includer scope t st with
    | .ok scope' after => ⟨t, scope, st, after⟩ :: visits expand includer d ts scope' after
    | .error _ _ => []

/-- A scan that ends with a result has visited all pieces. -/
theorem map_piece_visits {expand : Expander} {includer : Includer} {d : DirectiveText}
    {ts : List ParseTree} {scope scope' : ScanScope} {st after : PreprocessState}
    (h : ts.foldlM (d.scanPiece expand includer) scope st = .ok scope' after) :
    (d.visits expand includer ts scope st).map (·.piece) = ts := by
  induction ts generalizing scope st with
  | nil => rfl
  | cons t ts ih =>
    rw [List.foldlM_cons] at h
    obtain ⟨next, mid, hmid, hrest⟩ := Step.exists_of_bind h
    rw [visits, hmid, List.map_cons, ih hrest]

/-- The pieces of a text. -/
def pieces (d : DirectiveText) : List ParseTree :=
  (DirectiveGrammar.parse d.tokens.toList).children

/-- The step that a directive of a kind is, where the macro it names is defined or not. -/
def stepOfKind (defined : Bool) : NodeKind → ConditionStep
  | .ppIfdefDirective => .opening defined
  | .ppIfndefDirective => .opening (!defined)
  | .ppElsifDirective => .branch defined
  | .ppElseDirective => .branch true
  | .ppEndifDirective => .closing
  | _ => .other

/-- What a piece is to the chains of conditional directives where these macros are in force. -/
def conditionStep (d : DirectiveText) (macros : MacroTable) (t : ParseTree) : ConditionStep :=
  (t.kind?.map (stepOfKind (macros.contains ((d.macroNameOf t).getD "")))).getD .other

/-- The steps that visited pieces are, each by the macros in force when it was reached. -/
def stepsOf (d : DirectiveText) (vs : List Visit) : List ConditionStep :=
  vs.map fun v => d.conditionStep v.before.macros v.piece

/-- The place at which a piece begins. -/
def placeOf (d : DirectiveText) (t : ParseTree) : Nat × Nat :=
  ((d.rangeOf t).line, (d.rangeOf t).column)

/-- The diagnostic of a fault at a token. -/
def diagnosticAt (d : DirectiveText) (fault : DirectiveFault) (token : Option Nat) : Diagnostic :=
  let place := ((token.bind (d.tokens[·]?)).map fun t => (t.line, t.column)).getD (0, 0)
  fault.diagnostic ⟨nameText d.file, place.1, place.2⟩

/-- What is wrong with a directive that goes on with a chain or closes one where none is open. -/
def strayFault? : NodeKind → Option DirectiveFault
  | .ppElsifDirective => some .elsifWithoutIf
  | .ppElseDirective => some .elseWithoutIf
  | .ppEndifDirective => some .endifWithoutIf
  | _ => none

variable {d : DirectiveText} {t : ParseTree} {expand : Expander} {includer : Includer}
  {scope : ScanScope} {st : PreprocessState}

theorem report_eq_diagnosticAt (fault : DirectiveFault) (token : Option Nat) :
    d.report fault token = Preprocessing.report (d.diagnosticAt fault token) := by
  rw [DirectiveText.report, diagnosticAt]
  cases token.bind (d.tokens[·]?) <;> rfl

theorem report_of_lenient (hl : st.Lenient) (diagnostic : Diagnostic) :
    Preprocessing.report diagnostic st =
      .ok () { st with session := st.session.add diagnostic } := by
  have hff : st.session.config.failFast = false := hl
  rw [Preprocessing.report, Step.onPart, Verilog.report_eq]
  simp [hff]

/-! ### Conditional directives -/

theorem conditionStep_of_kind (d : DirectiveText) {kind : NodeKind} (ht : t.kind? = some kind)
    (macros : MacroTable) : d.conditionStep macros t =
      stepOfKind (macros.contains ((d.macroNameOf t).getD "")) kind := by
  rw [conditionStep, ht]
  rfl

theorem conditionStep_of_not_conditional (d : DirectiveText) (macros : MacroTable)
    (ht : t.kind?.any isConditional = false) : d.conditionStep macros t = .other := by
  rw [conditionStep]
  cases hk : t.kind? with
  | none => rfl
  | some kind =>
    rw [hk] at ht
    change stepOfKind _ kind = .other
    cases kind <;> first | rfl | exact absurd ht (by decide)

/-- **What a conditional directive does to the frames**: they go on to represent the open chains.
One that has no chain to belong to is reported and does nothing else. Of the state only the macros
and the session matter. -/
theorem stepConditions_spec (hl : st.Lenient) {kind : NodeKind} (hk : isConditional kind = true)
    (ht : t.kind? = some kind) (cs : Conditionals) :
    ∃ cs' session,
      (∀ st', st'.macros = st.macros → st'.session = st.session →
        d.stepConditions kind t cs st' = .ok cs' { st' with session }) ∧
      (∀ place chains n, cs.Framed place chains → place n = d.placeOf t →
        cs'.Framed place (next chains n (d.conditionStep st.macros t))) ∧
      (∀ fault, strayFault? kind = some fault → cs = [] → cs' = [] ∧
        session = st.session.add (d.diagnosticAt fault t.first?)) := by
  -- what opens a chain never fails
  have hopen {test : Bool} (hstep : d.conditionStep st.macros t = .opening test)
      (hrun : ∀ st', st'.macros = st.macros → d.stepConditions kind t cs st' =
        .ok (cs.openChain test (d.rangeOf t).line (d.rangeOf t).column) st')
      (hf : strayFault? kind = none) : ∃ cs' session,
      (∀ st', st'.macros = st.macros → st'.session = st.session →
        d.stepConditions kind t cs st' = .ok cs' { st' with session }) ∧
      (∀ place chains n, cs.Framed place chains → place n = d.placeOf t →
        cs'.Framed place (next chains n (d.conditionStep st.macros t))) ∧
      (∀ fault, strayFault? kind = some fault → cs = [] → cs' = [] ∧
        session = st.session.add (d.diagnosticAt fault t.first?)) := by
    refine ⟨_, st.session, fun st' hm hs => ?_, fun place chains n h hp => hstep ▸ h.openChain hp _,
      by simp [hf]⟩
    rw [hrun st' hm, ← hs]
  -- what goes on with a chain or closes one finds a frame, or it is reported and changes no frame
  have hgo {found : Option Conditionals} {fault : DirectiveFault} {e : ConditionStep}
      (hf : strayFault? kind = some fault) (hstep : d.conditionStep st.macros t = e)
      (hsome : ∀ next, found = some next → ∀ st', st'.macros = st.macros →
        d.stepConditions kind t cs st' = .ok next st')
      (hreport : found = none → ∀ st', st'.macros = st.macros → d.stepConditions kind t cs st' =
        (do d.report fault t.first?; pure cs : Preprocessing Conditionals) st')
      (hnone : found = none ↔ cs = [])
      (hnext : ∀ place chains n, cs.Framed place chains →
        (found.getD cs).Framed place (next chains n e)) : ∃ cs' session,
      (∀ st', st'.macros = st.macros → st'.session = st.session →
        d.stepConditions kind t cs st' = .ok cs' { st' with session }) ∧
      (∀ place chains n, cs.Framed place chains → place n = d.placeOf t →
        cs'.Framed place (next chains n (d.conditionStep st.macros t))) ∧
      (∀ fault, strayFault? kind = some fault → cs = [] → cs' = [] ∧
        session = st.session.add (d.diagnosticAt fault t.first?)) := by
    rw [hstep]
    cases found with
    | some found =>
      refine ⟨found, st.session, fun st' hm hs => ?_, fun place chains n h _ =>
        hnext place chains n h,
        fun _ _ hcs => absurd (hnone.mpr hcs) (by simp)⟩
      rw [hsome _ rfl st' hm, ← hs]
    | none =>
      refine ⟨cs, st.session.add (d.diagnosticAt fault t.first?), fun st' hm hs => ?_,
        fun place chains n h _ => hnext place chains n h, fun fault' hf' hcs => ⟨hcs, ?_⟩⟩
      · have hl' : st'.Lenient := by rwa [PreprocessState.Lenient, hs]
        have hadd : d.report fault t.first? st' =
            .ok () { st' with session := st.session.add (d.diagnosticAt fault t.first?) } := by
          rw [report_eq_diagnosticAt, report_of_lenient hl', hs]
        exact (hreport rfl st' hm).trans (Step.bind_of_ok hadd)
      · obtain rfl : fault = fault' := Option.some.inj (hf.symm.trans hf')
        rfl
  have hstep := d.conditionStep_of_kind ht st.macros
  cases kind with
  | ppIfdefDirective => exact hopen hstep (fun st' hm => by rw [← hm]; rfl) rfl
  | ppIfndefDirective => exact hopen hstep (fun st' hm => by rw [← hm]; rfl) rfl
  | ppElsifDirective =>
    exact hgo rfl hstep
      (fun next h st' hm => by
        rw [← hm] at h
        rw [stepConditions, Step.bind_get]
        dsimp only
        rw [h]
        rfl)
      (fun h st' hm => by rw [← hm] at h; rw [stepConditions, Step.bind_get]; dsimp only; rw [h])
      (by cases cs <;> simp [Conditionals.nextBranch?]) fun place chains n h => h.nextBranch n _
  | ppElseDirective =>
    exact hgo rfl hstep
      (fun next h st' hm => by rw [stepConditions, Step.bind_get]; dsimp only; rw [h]; rfl)
      (fun h st' hm => by rw [stepConditions, Step.bind_get]; dsimp only; rw [h])
      (by cases cs <;> simp [Conditionals.lastBranch?]) fun place chains n h => h.lastBranch n
  | ppEndifDirective =>
    exact hgo rfl hstep
      (fun next h st' hm => by rw [stepConditions, Step.bind_get]; dsimp only; rw [h]; rfl)
      (fun h st' hm => by rw [stepConditions, Step.bind_get]; dsimp only; rw [h])
      (by cases cs <;> simp [Conditionals.closeChain?]) fun place chains n h => h.closeChain n
  | _ => exact absurd hk (by decide)

/-! ### What is written -/

/-- Do two states differ in the session, the nodes and the text at most? -/
structure Keeps (before after : PreprocessState) : Prop where
  macros : after.macros = before.macros
  lines : after.lines = before.lines
  includes : after.includes = before.includes
  states : after.states = before.states
  expanding : after.expanding = before.expanding
  including : after.including = before.including

/-- Is what a piece adds to the text its line feeds, perhaps between marks? -/
def AddsNewlines (d : DirectiveText) (t : ParseTree) (before after : PreprocessState) : Prop :=
  ∃ front back, after.text.toList =
      before.text.toList ++ (front ++ (List.replicate (d.newlinesIn t) '\n' ++ back)) ∧
    (front = [] ∧ back = [] ∨ front = beginMark ∧ ∃ node, back = endMark node)

/-- The mark that is written before a piece. -/
def frontMark (d : DirectiveText) (marked : Bool) : List Char :=
  if marked && d.recording then beginMark else []

/-- The mark that is written behind a piece. -/
def backMark (d : DirectiveText) (marked : Bool) (node : NodeId) : List Char :=
  if marked && d.recording then endMark node else []

/-- What opening marks does to a state. -/
theorem openMarks_spec (d : DirectiveText) (t : ParseTree) (marked : Bool) (st : PreprocessState) :
    ∃ node nodes, d.openMarks marked t st =
      .ok node { st with nodes, text := st.text ++ String.ofList (d.frontMark marked) } := by
  rw [frontMark]
  cases hr : d.recording with
  | true =>
    refine ⟨(d.record st.nodes d.parent t).1, (d.record st.nodes d.parent t).2, ?_⟩
    rw [d.openMarks_eq hr, Bool.and_true]
  | false =>
    refine ⟨0, st.nodes, ?_⟩
    have hempty : st.text ++ String.ofList [] = st.text := by simp
    rw [openMarks, hr, Bool.and_false, if_pos (by rfl)]
    simp only [Bool.false_eq_true, if_false, hempty]
    rfl

/-- What closing marks does to a state. -/
theorem closeMarks_spec (d : DirectiveText) (t : ParseTree) (marked : Bool) (node : NodeId)
    (st : PreprocessState) :
    d.closeMarks marked node t st = .ok () { st with
      line := st.line + d.newlinesIn t
      text := st.text ++
        String.ofList (List.replicate (d.newlinesIn t) '\n' ++ d.backMark marked node) } := by
  rw [backMark]
  cases hr : d.recording with
  | true => rw [d.closeMarks_eq hr, Bool.and_true]
  | false =>
    rw [closeMarks, hr, Bool.and_false]
    change EStateM.Result.ok () { st with
      line := st.line + newlines (String.ofList (List.replicate (d.newlinesIn t) '\n')).toList
      text := st.text ++ String.ofList (List.replicate (d.newlinesIn t) '\n') } = _
    simp [newlines]

/-- What a directive or use leaves that does nothing between its marks but report: line feeds. -/
theorem scan_between {α : Type} {inner : NodeId → Preprocessing α} {a : α} {session : Session}
    (marked : Bool)
    (hi : ∀ node st', st'.macros = st.macros → st'.session = st.session →
      inner node st' = .ok a { st' with session }) :
    ∃ after, (do
      let node ← d.openMarks marked t
      let a ← inner node
      d.closeMarks marked node t
      return a) st = .ok a after ∧
      Keeps st after ∧ after.session = session ∧ d.AddsNewlines t st after := by
  obtain ⟨node, nodes, hopen⟩ := d.openMarks_spec t marked st
  have hinner :=
    hi node { st with nodes, text := st.text ++ String.ofList (d.frontMark marked) } rfl rfl
  let back := String.ofList (List.replicate (d.newlinesIn t) '\n' ++ d.backMark marked node)
  refine ⟨{ st with
    session, nodes, line := st.line + d.newlinesIn t
    text := st.text ++ String.ofList (d.frontMark marked) ++ back }, ?_,
    ⟨rfl, rfl, rfl, rfl, rfl, rfl⟩, rfl, d.frontMark marked, d.backMark marked node,
    by simp [back], ?_⟩
  · rw [Step.bind_of_ok hopen, Step.bind_of_ok hinner, Step.bind_of_ok (closeMarks_spec ..)]
    rfl
  · rw [frontMark, backMark]
    cases marked && d.recording with
    | true => exact .inr ⟨rfl, node, rfl⟩
    | false => exact .inl ⟨rfl, rfl⟩

/-! ### Pieces in inactive text -/

theorem newlinesIn_foldl (tokens : List DirectiveToken) (n : Nat) :
    tokens.foldl (fun n token => n + token.newlineCount) n =
      n + tokens.foldl (fun n token => n + token.newlineCount) 0 := by
  induction tokens generalizing n with
  | nil => rfl
  | cons token tokens ih =>
    rw [List.foldl_cons, List.foldl_cons, ih, ih (0 + _), Nat.zero_add, Nat.add_assoc]

/-- The number of line feeds in some tokens, by their positions. -/
def newlinesAt (d : DirectiveText) (is : List Nat) : Nat :=
  (is.filterMap fun i => d.tokens[i]?).foldl (fun n token => n + token.newlineCount) 0

theorem newlinesAt_cons (i : Nat) (is : List Nat) :
    d.newlinesAt (i :: is) = d.newlinesAt [i] + d.newlinesAt is := by
  rw [newlinesAt, newlinesAt, newlinesAt, List.filterMap_cons, List.filterMap_cons]
  cases d.tokens[i]? with
  | none => simp
  | some token =>
    dsimp only
    rw [List.foldl_cons, newlinesIn_foldl]
    rfl

/-- The state with so many line feeds behind its text. -/
def feed (n : Nat) (st : PreprocessState) : PreprocessState :=
  { st with line := st.line + n, text := st.text ++ String.ofList (List.replicate n '\n') }

theorem feed_zero (st : PreprocessState) : feed 0 st = st := by
  simp [feed]

theorem feed_feed (m n : Nat) (st : PreprocessState) : feed n (feed m st) = feed (m + n) st := by
  simp only [feed, Nat.add_assoc, String.append_assoc, ← String.ofList_append,
    List.replicate_append_replicate]

theorem emitNewlines_eq (n : Nat) (st : PreprocessState) :
    Preprocessing.emitNewlines n st = .ok () (feed n st) := by
  have hn : newlines (String.ofList (List.replicate n '\n')).toList = n := by simp [newlines]
  change EStateM.Result.ok () { st with line := st.line + newlines _, text := _ } = _
  rw [hn]
  rfl

/-- Of a token in inactive text only the line feeds are kept. -/
theorem copyToken_inactive (h : scope.conditions.active = false) (i : Nat) :
    d.copyToken scope i st = .ok () (feed (d.newlinesAt [i]) st) := by
  rw [copyToken, newlinesAt, List.filterMap_cons]
  cases d.tokens[i]? with
  | none =>
    change EStateM.Result.ok () st = .ok () (feed 0 st)
    rw [feed_zero]
  | some token =>
    dsimp only
    rw [h]
    simp only [Bool.false_eq_true, if_false, Bool.not_false, if_true, List.filterMap_nil,
      List.foldl_cons, List.foldl_nil, Nat.zero_add]
    split
    · exact emitNewlines_eq _ _
    · exact emitNewlines_eq _ _

/-- The same of many tokens. -/
theorem copyTokens_inactive (h : scope.conditions.active = false) (is : List Nat) :
    is.forM (d.copyToken scope) st = .ok () (feed (d.newlinesAt is) st) := by
  induction is generalizing st with
  | nil =>
    change EStateM.Result.ok () st = .ok () (feed 0 st)
    rw [feed_zero]
  | cons i is ih =>
    refine (Step.bind_of_ok (copyToken_inactive h i)).trans ?_
    rw [ih, feed_feed, ← newlinesAt_cons]

theorem keeps_feed (n : Nat) (st : PreprocessState) : Keeps st (feed n st) :=
  ⟨rfl, rfl, rfl, rfl, rfl, rfl⟩

theorem addsNewlines_feed (d : DirectiveText) (t : ParseTree) (st : PreprocessState) :
    d.AddsNewlines t st (feed (d.newlinesIn t) st) :=
  ⟨[], [], by simp [feed], .inl ⟨rfl, rfl⟩⟩

/-- **A piece in inactive text that is no conditional directive** leaves its line feeds and does
nothing else. -/
theorem scanPiece_inactive (d : DirectiveText) (expand : Expander) (includer : Includer)
    (st : PreprocessState) (h : scope.conditions.active = false)
    (hk : t.kind?.any isConditional = false) :
    ∃ after, d.scanPiece expand includer scope t st = .ok scope after ∧ Keeps st after ∧
      after.session = st.session ∧ d.AddsNewlines t st after := by
  cases t with
  | leaf i =>
    refine ⟨feed (d.newlinesAt [i]) st, ?_, keeps_feed _ _, rfl, d.addsNewlines_feed (.leaf i) st⟩
    exact Step.bind_of_ok (copyToken_inactive h i)
  | node kind ts =>
    have hk : isConditional kind = false := hk
    unfold scanPiece
    dsimp only
    split
    · rw [scanDirective_eq]
      refine scan_between true fun node st' _ hs => ?_
      rw [doDirective, hk, h, ← hs]
      rfl
    · split
      -- a use in inactive text is not expanded, and no argument of it is looked at
      · rw [scanUse_eq, h]
        have hidle (node : NodeId) (st' : PreprocessState) (_ : st'.macros = st.macros)
            (hs : st'.session = st.session) : d.doUse expand false (.node kind ts) node st' =
              .ok () { st' with session := st.session } := by
          rw [doUse, ← hs]
          rfl
        obtain ⟨after, hafter, hkeep⟩ := scan_between false hidle
        exact ⟨after, Step.bind_of_ok hafter, hkeep⟩
      · refine ⟨feed (d.newlinesAt (ParseTree.leavesAll ts)) st, ?_, keeps_feed _ _, rfl,
          d.addsNewlines_feed (.node kind ts) st⟩
        exact Step.bind_of_ok (copyTokens_inactive h _)

/-! ### Conditional pieces -/

/-- **A conditional directive** leaves its line feeds, and its frames represent the chains that are
open after it. -/
theorem scanPiece_conditional (d : DirectiveText) (expand : Expander) (includer : Includer)
    (scope : ScanScope) (hl : st.Lenient) {kind : NodeKind} (hk : isConditional kind = true)
    (ts : List ParseTree) :
    ∃ cs' after, d.scanPiece expand includer scope (.node kind ts) st =
        .ok { scope with conditions := cs' } after ∧ Keeps st after ∧
      d.AddsNewlines (.node kind ts) st after ∧
      (∀ place chains n, scope.conditions.Framed place chains → place n =
      d.placeOf (.node kind ts) →
        cs'.Framed place (next chains n (d.conditionStep st.macros (.node kind ts)))) ∧
      (∀ fault, strayFault? kind = some fault → scope.conditions = [] → cs' = [] ∧
        after.session = st.session.add (d.diagnosticAt fault (ParseTree.node kind ts).first?)) := by
  obtain ⟨cs', session, hrun, hframed, hstray⟩ :=
    stepConditions_spec (d := d) (t := .node kind ts) hl hk rfl scope.conditions
  have hdir : kind.isDirective = true := by
    cases kind <;> first | rfl | exact absurd hk (by decide)
  have hinner (node : NodeId) (st' : PreprocessState) (hm : st'.macros = st.macros)
      (hs : st'.session = st.session) :
      d.doDirective expand includer scope kind (.node kind ts) node st' =
        .ok { scope with conditions := cs' } { st' with session } := by
    rw [doDirective, if_pos hk]
    exact Step.bind_of_ok (hrun st' hm hs)
  obtain ⟨after, hafter, hkeep, hsession, hadds⟩ := scan_between true hinner
  refine ⟨cs', after, ?_, hkeep, hadds, hframed, fun fault hf hcs => ?_⟩
  · unfold scanPiece
    dsimp only
    rw [if_pos hdir, scanDirective_eq]
    exact hafter
  · rw [hsession]
    exact hstray fault hf hcs

/-! ### Other pieces -/

/-- Does a program give only such results, from whatever state? -/
def Gives {α : Type} (Q : α → Prop) (x : Preprocessing α) : Prop :=
  ∀ st a after, x st = .ok a after → Q a

namespace Gives

variable {α β : Type} {Q : β → Prop}

theorem pure {b : β} (h : Q b) : Gives Q (pure b) := by
  intro st b' after hrun
  cases hrun
  exact h

theorem bind {R : α → Prop} {x : Preprocessing α} {f : α → Preprocessing β} (hx : Gives R x)
    (h : ∀ a, R a → Gives Q (f a)) : Gives Q (x >>= f) := by
  intro st b after hrun
  obtain ⟨a, mid, hmid, hrun⟩ := Step.exists_of_bind hrun
  exact h a (hx st a mid hmid) mid b after hrun

/-- What comes last gives the result. -/
theorem andThen {x : Preprocessing α} {f : α → Preprocessing β} (h : ∀ a, Gives Q (f a)) :
    Gives Q (x >>= f) :=
  bind (R := fun _ => True) (fun _ _ _ _ => trivial) fun a _ => h a

end Gives

/-- Does a program keep the frames? -/
abbrev KeepsFrames (cs : Conditionals) : Preprocessing ScanScope → Prop :=
  Gives fun scope => scope.conditions = cs

theorem keepsFrames_renumber : KeepsFrames scope.conditions (d.renumber scope t) := by
  unfold renumber
  dsimp only
  split
  · split
    · exact .andThen fun _ => .pure rfl
    · exact .andThen fun _ => .andThen fun _ => .pure rfl
  · exact .andThen fun _ => .pure rfl

theorem keepsFrames_act (kind : NodeKind) (node : NodeId) :
    KeepsFrames scope.conditions (d.act expand includer scope kind node t) := by
  unfold act
  split
  · exact .andThen fun _ => .pure rfl
  · exact .andThen fun _ => .pure rfl
  · exact .andThen fun _ => .pure rfl
  · exact keepsFrames_renumber
  · exact .andThen fun _ => .pure rfl
  · exact .andThen fun _ => .pure rfl
  · exact .andThen fun _ => .pure rfl
  · exact .andThen fun _ => .pure rfl
  · exact .andThen fun _ => .pure rfl
  · dsimp only
    split
    · exact .andThen fun _ => .pure rfl
    · exact .pure rfl

/-- **Only conditional directives change the frames.** -/
theorem keepsFrames_scanPiece (hk : t.kind?.any isConditional = false) :
    KeepsFrames scope.conditions (d.scanPiece expand includer scope t) := by
  cases t with
  | leaf i => exact .andThen fun _ => .pure rfl
  | node kind ts =>
    have hk : isConditional kind = false := hk
    unfold scanPiece
    dsimp only
    split
    · rw [scanDirective_eq]
      refine .andThen fun node => .bind ?_ fun scope' hs => .andThen fun _ => .pure hs
      rw [doDirective, hk, if_neg Bool.false_ne_true]
      split
      · exact keepsFrames_act kind node
      · exact .pure rfl
    · split
      · exact .andThen fun _ => .pure rfl
      · exact .andThen fun _ => .pure rfl

/-! ### All pieces -/

/-- The place of a piece, by its number. -/
def placeAt (d : DirectiveText) (n : Nat) : Nat × Nat := (d.pieces[n]?.map d.placeOf).getD (0, 0)

/-- Do the frames of a scope represent the chains that are open behind these visits? -/
def Represents (d : DirectiveText) (done : List Visit) (scope : ScanScope) : Prop :=
  ∃ chains, Lists (d.stepsOf done) chains ∧ scope.conditions.Framed d.placeAt chains ∧
    chains.InOrder done.length

theorem represents_nil (d : DirectiveText) : d.Represents [] {} :=
  ⟨[], lists_nil, .nil, Chains.inOrder_nil⟩

variable {done : List Visit}

theorem stepsOf_append (d : DirectiveText) (vs : List Visit) (v : Visit) :
    d.stepsOf (vs ++ [v]) = d.stepsOf vs ++ [d.conditionStep v.before.macros v.piece] := by
  simp [stepsOf]

theorem Represents.next (h : d.Represents done scope) {v : Visit} {scope' : ScanScope}
    (hf : ∀ chains, scope.conditions.Framed d.placeAt chains → scope'.conditions.Framed d.placeAt
      (next chains done.length (d.conditionStep v.before.macros v.piece))) :
    d.Represents (done ++ [v]) scope' := by
  obtain ⟨chains, hlists, hframed, horder⟩ := h
  have hlength : (d.stepsOf done).length = done.length := by simp [stepsOf]
  refine ⟨_, ?_, hf chains hframed, ?_⟩
  · rw [stepsOf_append, ← hlength]
    exact hlists.next _
  · rw [List.length_append]
    exact horder.next _

/-- **One piece more**: it is scanned, and the frames represent the open chains again. -/
theorem scanPiece_represents (he : Expanding UpToStopping expand)
    (hi : Including UpToStopping (fun _ => KeepsOpen) includer) (hl : st.Lenient)
    (h : d.Represents done scope) (ht : d.pieces[done.length]? = some t) :
    ∃ scope' after, d.scanPiece expand includer scope t st = .ok scope' after ∧ after.Lenient ∧
      d.Represents (done ++ [⟨t, scope, st, after⟩]) scope' := by
  obtain ⟨scope', after, hrun, hl'⟩ := succeeds_scanPiece he hi scope hl
  refine ⟨scope', after, hrun, hl', h.next fun chains hframed => ?_⟩
  by_cases hk : t.kind?.any isConditional = true
  · cases t with
    | leaf i => exact absurd hk (by simp [ParseTree.kind?])
    | node kind ts =>
      obtain ⟨cs', after', hrun', -, -, hnext, -⟩ :=
        scanPiece_conditional d expand includer scope hl hk ts
      obtain ⟨rfl, rfl⟩ := EStateM.Result.ok.inj (hrun.symm.trans hrun')
      exact hnext _ _ _ hframed (by rw [placeAt, ht]; rfl)
  · rw [Bool.not_eq_true] at hk
    have hkeep := keepsFrames_scanPiece hk _ _ _ hrun
    rw [conditionStep_of_not_conditional d st.macros hk, hkeep]
    cases chains <;> exact hframed

/-- **All pieces**: each of them is visited, with frames that represent the chains that are open
there. -/
theorem visits_spec (he : Expanding UpToStopping expand)
    (hi : Including UpToStopping (fun _ => KeepsOpen) includer) (rest : List ParseTree)
    (hl : st.Lenient) (h : d.Represents done scope)
    (hpieces : d.pieces = done.map (·.piece) ++ rest) :
    let vs := d.visits expand includer rest scope st
    vs.map (·.piece) = rest ∧
    (∀ i v, vs[i]? = some v → v.before.Lenient ∧ d.Represents (done ++ vs.take i) v.scope ∧
      ∃ scope', d.scanPiece expand includer v.scope v.piece v.before = .ok scope' v.after) ∧
    ∃ scope', rest.foldlM (d.scanPiece expand includer) scope st =
        .ok scope' ((vs.getLast?.map (·.after)).getD st) ∧
      d.Represents (done ++ vs) scope' ∧ ((vs.getLast?.map (·.after)).getD st).Lenient := by
  induction rest generalizing done scope st with
  | nil => exact ⟨rfl, by simp [visits], scope, rfl, by simpa [visits] using h, hl⟩
  | cons t rest ih =>
    obtain ⟨scope', after, hrun, hl', h'⟩ :=
      scanPiece_represents (t := t) he hi hl h (by simp [hpieces])
    obtain ⟨hmap, hvisits, last, hfold, hlast, hlend⟩ := ih hl' h' (by simp [hpieces])
    have hvs : d.visits expand includer (t :: rest) scope st =
        ⟨t, scope, st, after⟩ :: d.visits expand includer rest scope' after := by
      rw [visits, hrun]
    rw [hvs]
    have hend : ((d.visits expand includer rest scope' after).getLast?.map (·.after)).getD after =
        ((⟨t, scope, st, after⟩ :: d.visits expand includer rest scope' after :
        List Visit).getLast?.map
          (·.after)).getD st := by
      rw [List.getLast?_cons]
      cases (d.visits expand includer rest scope' after).getLast? <;> rfl
    refine ⟨by simp [hmap], fun i v hv => ?_, last, ?_, ?_, ?_⟩
    · cases i with
      | zero =>
        obtain rfl := Option.some.inj hv
        exact ⟨hl, by simpa using h, scope', hrun⟩
      | succ i =>
        obtain ⟨hvl, hvr, hvrun⟩ := hvisits i v hv
        exact ⟨hvl, by simpa using hvr, hvrun⟩
    · rw [List.foldlM_cons, Step.bind_of_ok hrun, ← hend]
      exact hfold
    · simpa using hlast
    · rw [← hend]
      exact hlend

end DirectiveText

end Verilog
