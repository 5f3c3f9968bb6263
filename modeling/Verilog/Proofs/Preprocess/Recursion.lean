import Verilog.Proofs.Preprocess.Expansion

/-!
# Which macro uses are recursive

A use is refused where its macro is being expanded, or where no more expansions may be open. A macro
is being expanded as long as the text that is put in for a use of it is scanned, and in that text a
use counts wherever it comes from: from the body of the macro, from a default, from an actual
argument, or from the parentheses behind a macro without arguments. So the recursions that are
reported while a use is evaluated are those of the uses that the evaluation comes to inside a use of
the same macro, one for each (`DirectiveText.reports_recursions`); none is reported if the macros
can be ranked so that each use inside another one is of a macro of lower rank.

The uses are found by going through the scans as the evaluation does
(`DirectiveText.evaluations`). Each is known with the names of the uses around it, which are the
macros that are being expanded there (`DirectiveText.recurs_evaluate`).
-/

namespace Verilog

open Preprocessing

/-- Is it reported that a macro is used where it is being expanded, or where no more expansions may
be open? -/
def Diagnostic.isRecursion (g : Diagnostic) : Bool :=
  match g.kind with
  | .recursiveMacro _ => true
  | _ => false

theorem DirectiveFault.isRecursion_diagnostic (fault : DirectiveFault) (place : FilePlace) :
    (fault.diagnostic place).isRecursion = fault.isRecursion := by
  cases fault <;> rfl

theorem DirectiveText.isRecursion_diagnosticAt (d : DirectiveText) (fault : DirectiveFault)
    (token : Option Nat) : (d.diagnosticAt fault token).isRecursion = fault.isRecursion :=
  fault.isRecursion_diagnostic _

namespace Preprocessing

variable {α β : Type} {x : Preprocessing α} {f : α → Preprocessing β} {st : PreprocessState}
  {rs qs : List Diagnostic}

/-- **Which recursions does a program report**, from a state, also where a report stops it? -/
def Recurs (rs : List Diagnostic) (x : Preprocessing α) (st : PreprocessState) : Prop :=
  ∃ ds, (Ending.state (x st)).session = st.session.addAll ds ∧
    ds.filter Diagnostic.isRecursion = rs

namespace Recurs

theorem of_eq {y : Preprocessing α} (hrun : x st = y st) (h : Recurs rs y st) : Recurs rs x st := by
  rw [Recurs, hrun]
  exact h

theorem of_quiet (h : (Ending.state (x st)).session = st.session) : Recurs [] x st := ⟨[], h, rfl⟩

theorem pure (a : α) : Recurs [] (pure a : Preprocessing α) st := of_quiet rfl

theorem report (g : Diagnostic) :
    Recurs (if g.isRecursion then [g] else []) (Preprocessing.report g) st := by
  refine ⟨[g], ?_, List.filter_cons⟩
  rw [Preprocessing.report, Step.onPart, Verilog.report_eq]
  by_cases hstop : (st.session.config.failFast && g.severity.isError) = true
  · rw [if_pos hstop]
    rfl
  · rw [if_neg hstop]
    rfl

/-- What reports no recursions. -/
theorem of_reportsOnly (h : ReportsOnly (·.isRecursion = false) x st) : Recurs [] x st := by
  obtain ⟨⟨ds, hds, hall⟩, -⟩ := h
  exact ⟨ds, hds, List.filter_eq_nil_iff.mpr fun g hg => by simp [hall g hg]⟩

theorem of_error {e : Failure} {after : PreprocessState} (heq : x st = .error e after)
    (hx : Recurs rs x st) : Recurs rs (x >>= f) st := by
  have hrun : (x >>= f) st = .error e after := by rw [Step.bind_eq, heq]
  rw [Recurs, hrun]
  rwa [Recurs, heq] at hx

theorem of_ok {a : α} {mid : PreprocessState} (heq : x st = .ok a mid) (hx : Recurs rs x st)
    (hf : Recurs qs (f a) mid) : Recurs (rs ++ qs) (x >>= f) st := by
  obtain ⟨ds, hds, hrs⟩ := hx
  obtain ⟨es, hes, hqs⟩ := hf
  have hmid : mid.session = st.session.addAll ds := by rwa [heq] at hds
  refine ⟨ds ++ es, ?_, by rw [List.filter_append, hrs, hqs]⟩
  rw [Step.bind_of_ok heq, hes, hmid, Session.addAll, Session.addAll, Session.addAll,
    List.foldl_append]

/-- What comes behind reports no recursions. -/
theorem before (hx : Recurs rs x st) (hf : ∀ a mid, x st = .ok a mid → Recurs [] (f a) mid) :
    Recurs rs (x >>= f) st := by
  cases heq : x st with
  | error e after => exact hx.of_error heq
  | ok a mid => exact List.append_nil rs ▸ hx.of_ok heq (hf a mid heq)

/-- An expansion reports the recursions of the scan it is. -/
theorem apart {x : Preprocessing Unit} {name : String}
    (hx : Recurs rs x { st with text := "", expanding := name :: st.expanding }) :
    Recurs rs (Preprocessing.apart x name) st := by
  obtain ⟨ds, hds, hrs⟩ := hx
  refine ⟨ds, ?_, hrs⟩
  rw [Preprocessing.apart]
  cases hrun : x { st with text := "", expanding := name :: st.expanding } <;>
    rw [hrun] at hds <;> exact hds

end Recurs

end Preprocessing

namespace DirectiveText

variable {d : DirectiveText} {t use : ParseTree} {st : PreprocessState} {expand : Expander}
  {includer : Includer} {scope : ScanScope} {rs : List Diagnostic}

/-! ### Evaluations -/

/-- A use that is evaluated: where it stands, and the names of the uses around it, the innermost one
first. -/
structure Evaluation where
  source : DirectiveText
  use : ParseTree
  state : PreprocessState
  around : List String

namespace Evaluation

/-- The name of the macro that is used. -/
def name? (e : Evaluation) : Option String := e.source.usedName e.use

/-- **Is the use recursive?** It is one of a macro in force, inside a use of the same macro or
inside as many uses as may be expanded at once. -/
def isRecursive (e : Evaluation) : Bool :=
  e.name?.any fun name => e.state.macros.contains name &&
    (e.around.contains name || e.around.length ≥ maxExpansionDepth)

/-- What is reported of a use that is recursive. -/
def recursion? (e : Evaluation) : Option Diagnostic :=
  if e.isRecursive then
    e.name?.map fun name => e.source.diagnosticAt (.recursion name) e.use.first?
  else none

/-- The text that is put in for the use if it is not recursive; none if there is no macro of its
name, or if that has other arguments. -/
def text? (e : Evaluation) : Option (String × String) := do
  let name ← e.name?
  let m ← e.state.macros.get? name
  (e.source.substitutedText m e.use).toOption.map (name, ·)

end Evaluation

/-- **The uses that are evaluated** while a use is, the use itself first, with so many expansions
nested in one another: the active uses in the text that is put in for it are come to one after the
other, as far as the scan of that text gets. -/
def evaluations : Nat → List String → DirectiveText → ParseTree → PreprocessState →
    List Evaluation
  | 0, around, d, use, st => [⟨d, use, st, around⟩]
  | depth + 1, around, d, use, st => ⟨d, use, st, around⟩ ::
    match d.substitution? use st with
    | none => []
    | some (name, text) =>
      if text.toList.contains backquote then
        let inner := ofText text d.file 0 false
        (inner.arrivals (expandWithin depth) (fun _ => pure none) inner.pieces {}
            { st with text := "", expanding := name :: st.expanding }).flatMap fun a =>
          if a.isUse then evaluations depth (name :: around) inner a.piece a.state else []
      else []

theorem exists_evaluations (depth : Nat) (around : List String) (d : DirectiveText)
    (use : ParseTree) (st : PreprocessState) :
    ∃ more, d.evaluations depth around use st = ⟨d, use, st, around⟩ :: more := by
  cases depth <;> exact ⟨_, rfl⟩

/-- What is being expanded is the same at all pieces that a scan comes to. -/
theorem expanding_arrival {depth : Nat} {ts : List ParseTree} {a : Arrival}
    (h : a ∈ d.arrivals (expandWithin depth) (fun _ => pure none) ts scope st) :
    a.state.expanding = st.expanding := by
  induction ts generalizing scope st with
  | nil => cases h
  | cons t ts ih =>
    rw [arrivals] at h
    rcases List.mem_cons.mp h with rfl | h
    · rfl
    · split at h
      · rename_i next after hrun
        have hpiece : Step.Composed Session.UpToStopping KeepsOpen
            (d.scanPiece (expandWithin depth) (fun _ => Pure.pure none) scope t) :=
          composed_scanPiece allows_keepsOpen (fun _ => hangs_keepsOpen d t)
            (expanding_expandWithin depth) (fun _ => .pure _) scope
        exact (ih h).trans (hpiece.keeps_of_ok (allows_keepsOpen.frame 0) hrun).expanding
      · cases h

/-! ### The recursions of an evaluation -/

/-- The fault of arguments is no recursion. -/
theorem isRecursion_completeArguments {name : String} {formals : List FormalArgument}
    {actuals : List String} {fault : DirectiveFault}
    (h : completeArguments name formals actuals = .error fault) : fault.isRecursion = false := by
  rw [completeArguments] at h
  generalize (if formals.isEmpty && actuals == [""] then [] else actuals) = given at h
  split at h
  · exact Except.error.inj h ▸ rfl
  · cases h

theorem isRecursion_substitutedText {m : MacroDefinition} {fault : DirectiveFault}
    (h : d.substitutedText m use = .error fault) : fault.isRecursion = false := by
  rw [substitutedText] at h
  split at h
  · cases h
  · rename_i formals _
    cases harguments : completeArguments m.name formals (d.actualsOf use) with
    | ok actuals =>
      rw [harguments] at h
      cases h
    | error fault' =>
      rw [harguments] at h
      cases h
      exact isRecursion_completeArguments harguments

theorem recurs_refusal (fault : DirectiveFault) :
    Recurs (if fault.isRecursion then [d.diagnosticAt fault use.first?] else [])
      (do d.report fault use.first?; return none : Preprocessing (Option String)) st := by
  rw [report_eq_diagnosticAt]
  have h : Recurs _ _ st := .report (d.diagnosticAt fault use.first?)
  rw [isRecursion_diagnosticAt] at h
  exact h.before fun _ _ _ => .pure _

/-- **One use**: it is refused, and then a recursion is reported if it is recursive; or it goes on
with the text that is put in for it. -/
theorem evaluate_cases (expand : Expander) {around : List String} (h : st.expanding = around) :
    (d.substitution? use st = none ∧ Recurs (Evaluation.recursion? ⟨d, use, st, around⟩).toList
      (d.evaluate expand use) st) ∨
    (Evaluation.recursion? ⟨d, use, st, around⟩ = none ∧ ∃ name text,
      d.substitution? use st = some (name, text) ∧
      d.evaluate expand use st = (some <$> expand d.file name text) st) := by
  subst h
  cases hname : d.usedName use with
  | none =>
    rw [substitution?, evaluate, Evaluation.recursion?, Evaluation.isRecursive, Evaluation.name?,
      hname]
    exact .inl ⟨rfl, .pure _⟩
  | some name =>
    have hrefuse (fault : DirectiveFault) (hrun : d.evaluate expand use st =
        (do d.report fault use.first?; return none : Preprocessing (Option String)) st) :
        Recurs (if fault.isRecursion then [d.diagnosticAt fault use.first?] else [])
          (d.evaluate expand use) st := .of_eq hrun (recurs_refusal fault)
    rw [Evaluation.recursion?, Evaluation.isRecursive, Evaluation.name?, substitution?, hname,
      Option.bind_eq_bind, Option.bind_some, Option.any_some, Option.map_some, MacroTable.contains]
    have hevaluate := congrFun (evaluate.eq_1 expand d use) st
    rw [hname] at hevaluate
    dsimp only at hevaluate
    rw [Step.bind_get] at hevaluate
    cases hget : st.macros.get? name with
    | none =>
      rw [hget] at hevaluate
      exact .inl ⟨rfl, hrefuse _ hevaluate⟩
    | some m =>
      rw [hget] at hevaluate
      dsimp only at hevaluate ⊢
      rw [Option.isSome_some, Bool.true_and, Option.bind_eq_bind, Option.bind_some]
      by_cases hopen : (st.expanding.contains name ||
          st.expanding.length ≥ maxExpansionDepth) = true
      · rw [if_pos hopen] at hevaluate
        rw [if_pos hopen, if_pos hopen]
        exact .inl ⟨rfl, hrefuse _ hevaluate⟩
      · rw [if_neg hopen] at hevaluate
        rw [if_neg hopen, if_neg hopen]
        cases htext : d.substitutedText m use with
        | error fault =>
          rw [htext] at hevaluate
          have h := hrefuse _ hevaluate
          rw [isRecursion_substitutedText htext] at h
          exact .inl ⟨rfl, h⟩
        | ok text =>
          rw [htext] at hevaluate
          exact .inr ⟨rfl, name, text, rfl, hevaluate⟩

/-- Marks report nothing: in the text of a macro there are none. -/
theorem recurs_between {α : Type} {inner : NodeId → Preprocessing α} (hr : d.recording = false)
    (marked : Bool) (hinner : Recurs rs (inner 0) st) :
    Recurs rs (do
      let node ← d.openMarks marked t
      let a ← inner node
      d.closeMarks marked node t
      return a) st := by
  have hopen : d.openMarks marked t st = .ok 0 st := by rw [openMarks, hr]; rfl
  have hclose (a : α) (mid : PreprocessState) : Recurs [] (do
      d.closeMarks marked 0 t
      return a) mid := by
    rw [closeMarks, hr, Bool.and_false]
    exact .of_quiet rfl
  exact .of_eq (Step.bind_of_ok hopen) (hinner.before fun a mid _ => hclose a mid)

/-- **One piece** of the text of a macro: a use that is evaluated reports the recursions of its
evaluation, and any other piece none. -/
theorem recurs_scanPiece {text : String} {file : Option String}
    (hpiece : t ∈ (ofText text file 0 false).pieces)
    (huse : Arrival.isUse ⟨t, scope, st⟩ = true →
      Recurs rs ((ofText text file 0 false).evaluate expand t) st)
    (hother : Arrival.isUse ⟨t, scope, st⟩ = false → rs = []) :
    Recurs rs ((ofText text file 0 false).scanPiece expand includer scope t) st := by
  cases hisUse : Arrival.isUse ⟨t, scope, st⟩ with
  | false =>
    rw [hother hisUse]
    refine .of_reportsOnly (reportsOnly_scanPiece hpiece (fun fault i token hf _ => ?_)
      fun hk hactive => ?_)
    · rwa [isRecursion_diagnosticAt]
    · rw [Arrival.isUse, hk, hactive] at hisUse
      cases hisUse
  | true =>
    have hrun := huse hisUse
    rw [Arrival.isUse, Bool.and_eq_true] at hisUse
    obtain ⟨hk, hactive⟩ := hisUse
    cases t with
    | leaf i => cases hk
    | node kind ts =>
      have hk : kind.isMacroUse = true := hk
      have hdirective : kind.isDirective = false := by
        cases kind <;> first | rfl | cases hk
      rw [scanPiece, hdirective, if_neg Bool.false_ne_true, if_pos hk, scanUse_eq]
      refine Recurs.before (recurs_between rfl _ ?_) fun _ _ _ => .pure _
      rw [doUse, if_pos hactive]
      exact hrun.before fun a mid _ => by cases a <;> exact .of_quiet rfl

/-- A text reports the recursions of the pieces that its scan comes to. -/
theorem recurs_pieces {ts : List ParseTree} {recursions : Arrival → List Diagnostic}
    (h : ∀ a ∈ d.arrivals expand includer ts scope st,
      Recurs (recursions a) (d.scanPiece expand includer a.scope a.piece) a.state) :
    Recurs ((d.arrivals expand includer ts scope st).flatMap recursions)
      (ts.foldlM (d.scanPiece expand includer) scope) st := by
  induction ts generalizing scope st with
  | nil => exact .pure _
  | cons t ts ih =>
    rw [arrivals] at h ⊢
    obtain ⟨hpiece, hmore⟩ := List.forall_mem_cons.mp h
    rw [List.foldlM_cons, List.flatMap_cons]
    cases hrun : d.scanPiece expand includer scope t st with
    | ok next after =>
      rw [hrun] at hmore
      exact hpiece.of_ok hrun (ih hmore)
    | error e after =>
      have h := hpiece.of_error (f := fun next => ts.foldlM (d.scanPiece expand includer) next) hrun
      simpa using h

/-- **The recursions of an evaluation** are those of the uses it comes to, in their order. -/
theorem recurs_evaluate (depth : Nat) {around : List String} (h : st.expanding = around)
    (d : DirectiveText) (use : ParseTree) :
    Recurs ((d.evaluations depth around use st).filterMap Evaluation.recursion?)
      (d.evaluate (expandWithin depth) use) st := by
  induction depth generalizing around d use st with
  | zero =>
    rw [evaluations, List.filterMap_cons, List.filterMap_nil]
    rcases evaluate_cases (expandWithin 0) h with ⟨-, hrefuse⟩ | ⟨hnone, name, text, -, hrun⟩
    · cases hr : Evaluation.recursion? ⟨d, use, st, around⟩ <;> rw [hr] at hrefuse <;> exact hrefuse
    · rw [hnone]
      exact .of_eq hrun (.of_quiet rfl)
  | succ depth ih =>
    rw [evaluations, List.filterMap_cons]
    rcases evaluate_cases (expandWithin (depth + 1)) h with
      ⟨hsub, hrefuse⟩ | ⟨hnone, name, text, hsub, hrun⟩
    · rw [hsub]
      cases hr : Evaluation.recursion? ⟨d, use, st, around⟩ <;> rw [hr] at hrefuse <;> exact hrefuse
    · rw [hnone, hsub]
      dsimp only
      rw [expandWithin_succ] at hrun
      split at hrun
      · rename_i hquote
        rw [if_pos hquote, List.filterMap_flatMap]
        refine .of_eq hrun ?_
        rw [map_eq_pure_bind]
        refine Recurs.before (.apart ?_) fun _ _ _ => .pure _
        refine Recurs.before (recurs_pieces fun a ha => ?_) fun _ _ _ => .pure _
        refine recurs_scanPiece (piece_of_arrival ha) (fun huse => ?_) fun hother => ?_
        · rw [show a.isUse = true from huse]
          have hopen : a.state.expanding = name :: around := by
            rw [expanding_arrival ha, h]
          exact ih hopen _ a.piece
        · rw [show a.isUse = false from hother]
          rfl
      · rename_i hquote
        rw [if_neg hquote]
        exact .of_eq hrun (.of_quiet rfl)

/-! ### Uses that are not recursive -/

/-- The uses around a use are of the macros that are being expanded. -/
theorem expanding_evaluation {depth : Nat} {around : List String} (h : st.expanding = around)
    {e : Evaluation} (he : e ∈ d.evaluations depth around use st) :
    e.state.expanding = e.around := by
  induction depth generalizing around d use st with
  | zero =>
    obtain rfl := List.mem_singleton.mp he
    exact h
  | succ depth ih =>
    rw [evaluations] at he
    rcases List.mem_cons.mp he with rfl | he
    · exact h
    · split at he
      · cases he
      · rename_i name text _
        split at he
        · obtain ⟨a, ha, he⟩ := List.mem_flatMap.mp he
          split at he
          · exact ih (by rw [expanding_arrival ha, h]) he
          · cases he
        · cases he

/-- **A text is put in for a use** that is not recursive, if there is one to put in. -/
theorem substitution?_evaluation {depth : Nat} {around : List String} (h : st.expanding = around)
    {e : Evaluation} (he : e ∈ d.evaluations depth around use st) :
    e.source.substitution? e.use e.state = if e.isRecursive then none else e.text? := by
  have hopen := expanding_evaluation h he
  rw [substitution?, Evaluation.isRecursive, Evaluation.text?, Evaluation.name?]
  cases e.source.usedName e.use with
  | none => rfl
  | some name =>
    rw [Option.bind_eq_bind, Option.bind_some, Option.any_some, MacroTable.contains, hopen,
      Option.bind_eq_bind, Option.bind_some]
    cases hget : e.state.macros.get? name with
    | none => rfl
    | some m => rw [Option.isSome_some, Bool.true_and]; rfl

theorem usedName_of_substitution? {name text : String}
    (h : d.substitution? use st = some (name, text)) : d.usedName use = some name := by
  obtain ⟨name', hname', hrest⟩ := Option.bind_eq_some_iff.mp h
  obtain ⟨m, -, hrest⟩ := Option.bind_eq_some_iff.mp hrest
  split at hrest
  · cases hrest
  · obtain ⟨_, -, heq⟩ := Option.map_eq_some_iff.mp hrest
    rw [hname', (Prod.mk.inj heq).1]

/-- Is a use inside another one of a macro of lower rank? -/
def Evaluation.Descends (rank : String → Nat) (e : Evaluation) : Prop :=
  ∀ outer ∈ e.around.head?, ∀ name, e.name? = some name → rank name < rank outer

/-- Ranks grow from the innermost use on, and are small enough. -/
def Ranked (rank : String → Nat) (names : List String) : Prop :=
  names.Pairwise (rank · < rank ·) ∧ ∀ name ∈ names, rank name < maxExpansionDepth

theorem Ranked.cons {rank : String → Nat} {name : String} {names : List String}
    (h : Ranked rank names) (hhead : ∀ outer ∈ names.head?, rank name < rank outer)
    (hnone : names = [] → rank name < maxExpansionDepth) : Ranked rank (name :: names) := by
  cases names with
  | nil => exact ⟨List.pairwise_singleton _ _, List.forall_mem_singleton.mpr (hnone rfl)⟩
  | cons outer names =>
    have hlt : rank name < rank outer := hhead outer rfl
    have houter := List.pairwise_cons.mp h.1
    refine ⟨List.pairwise_cons.mpr ⟨List.forall_mem_cons.mpr ⟨hlt, fun n hn => ?_⟩, h.1⟩,
      List.forall_mem_cons.mpr ⟨?_, h.2⟩⟩
    · exact hlt.trans (houter.1 n hn)
    · exact hlt.trans (h.2 outer List.mem_cons_self)

/-- No name comes twice where ranks grow, and there are not more names than ranks. -/
theorem Ranked.nodup {rank : String → Nat} {names : List String} (h : Ranked rank names) :
    names.Nodup ∧ names.length ≤ maxExpansionDepth := by
  have hranks : (names.map rank).Nodup :=
    (List.pairwise_map.mpr h.1).imp fun hlt => Nat.ne_of_lt hlt
  refine ⟨.of_map rank hranks, ?_⟩
  have hsub : names.map rank ⊆ List.range maxExpansionDepth := fun r hr => by
    obtain ⟨name, hname, rfl⟩ := List.mem_map.mp hr
    exact List.mem_range.mpr (h.2 name hname)
  simpa using (hranks.subperm hsub).length_le

/-- **Where ranks fall from a use to those inside it, none is recursive.** -/
theorem isRecursive_of_descends {rank : String → Nat} {depth : Nat} {around : List String}
    (hranked : Ranked rank around)
    (hdescends : ∀ e ∈ d.evaluations depth around use st, e.Descends rank)
    (htop : around = [] → ∀ name, d.usedName use = some name → rank name < maxExpansionDepth) :
    ∀ e ∈ d.evaluations depth around use st, e.isRecursive = false := by
  have hname {depth : Nat} {around : List String} {d : DirectiveText} {use : ParseTree}
      {st : PreprocessState} (hranked : Ranked rank around)
      (hdescends : ∀ e ∈ d.evaluations depth around use st, e.Descends rank)
      (htop : around = [] → ∀ name, d.usedName use = some name → rank name < maxExpansionDepth)
      {name : String} (hused : d.usedName use = some name) : Ranked rank (name :: around) := by
    obtain ⟨more, hfirst⟩ := exists_evaluations depth around d use st
    have hself : Evaluation.Descends rank ⟨d, use, st, around⟩ := hdescends _ (by simp [hfirst])
    exact hranked.cons (fun outer houter => hself outer houter name hused) fun h =>
      htop h name hused
  -- the use itself: its name is not around it, and there is room for one more
  have hfirst {depth : Nat} {around : List String} {d : DirectiveText} {use : ParseTree}
      {st : PreprocessState} (hranked : Ranked rank around)
      (hdescends : ∀ e ∈ d.evaluations depth around use st, e.Descends rank)
      (htop : around = [] → ∀ name, d.usedName use = some name → rank name < maxExpansionDepth) :
      Evaluation.isRecursive ⟨d, use, st, around⟩ = false := by
    rw [Evaluation.isRecursive, Evaluation.name?]
    cases hused : d.usedName use with
    | none => rfl
    | some name =>
      obtain ⟨hnodup, hlength⟩ := (hname hranked hdescends htop hused).nodup
      have hnew : name ∉ around := (List.nodup_cons.mp hnodup).1
      have hroom : ¬around.length ≥ maxExpansionDepth := Nat.not_le.mpr hlength
      simp [hnew, hroom]
  induction depth generalizing around d use st with
  | zero =>
    intro e he
    obtain rfl := List.mem_singleton.mp he
    exact hfirst hranked hdescends htop
  | succ depth ih =>
    intro e he
    rw [evaluations] at he
    rcases List.mem_cons.mp he with rfl | he
    · exact hfirst hranked hdescends htop
    · cases hsub : d.substitution? use st with
      | none =>
        rw [hsub] at he
        cases he
      | some inner =>
        obtain ⟨name, text⟩ := inner
        rw [hsub] at he
        dsimp only at he
        split at he
        · rename_i hquote
          obtain ⟨a, ha, he⟩ := List.mem_flatMap.mp he
          split at he
          · rename_i huse
            have hused := usedName_of_substitution? hsub
            refine ih (hname hranked hdescends htop hused) (fun e' he' => hdescends e' ?_)
              (fun h => by cases h) e he
            rw [evaluations, hsub]
            dsimp only
            rw [if_pos hquote]
            exact List.mem_cons_of_mem _ (List.mem_flatMap.mpr ⟨a, ha, by rwa [if_pos huse]⟩)
          · cases he
        · cases he

/-- **Which recursions are reported.** While a use is evaluated that stands inside no other one, the
recursions reported are those of the active uses of macros in force that the evaluation comes to
inside a use of the same macro, or inside as many uses as may be expanded at once: one for each, in
order. A use counts as inside another one wherever in the text put in for that one it comes from,
and be it an actual argument. For all other uses the body of the macro is put in with their
arguments, if the macro is in force and takes these. So if macros can be ranked, the outermost one
below the number of uses that may be expanded at once, in such a way that each use inside another
one is of a macro of lower rank, then no recursion is reported, and all uses of macros in force are
expanded whose arguments fit. -/
theorem reports_recursions (d : DirectiveText) (use : ParseTree) (st : PreprocessState)
    (hopen : st.expanding = []) :
    let es := d.evaluations maxExpansionDepth [] use st
    ∃ ds, (Ending.state (d.evaluate expandText use st)).session = st.session.addAll ds ∧
      ds.filter Diagnostic.isRecursion = es.filterMap Evaluation.recursion? ∧
      (∀ e ∈ es, e.source.substitution? e.use e.state = if e.isRecursive then none else e.text?) ∧
      ∀ rank : String → Nat, (∀ e ∈ es, e.Descends rank) →
        (∀ name, d.usedName use = some name → rank name < maxExpansionDepth) →
        (∀ g ∈ ds, g.isRecursion = false) ∧
          ∀ e ∈ es, e.source.substitution? e.use e.state = e.text? := by
  intro es
  obtain ⟨ds, hds, hrecursions⟩ := recurs_evaluate maxExpansionDepth hopen d use
  have hput (e : Evaluation) (he : e ∈ es) := substitution?_evaluation hopen he
  refine ⟨ds, hds, hrecursions, hput, fun rank hdescends htop => ?_⟩
  have hnone : ∀ e ∈ es, e.isRecursive = false :=
    isRecursive_of_descends ⟨.nil, List.forall_mem_nil _⟩ hdescends fun _ => htop
  refine ⟨fun g hg => ?_, fun e he => by rw [hput e he, hnone e he, if_neg Bool.false_ne_true]⟩
  have hall : es.filterMap Evaluation.recursion? = [] :=
    List.filterMap_eq_nil_iff.mpr fun e he => by
      rw [Evaluation.recursion?, hnone e he, if_neg Bool.false_ne_true]
  rw [hall, List.filter_eq_nil_iff] at hrecursions
  simpa using hrecursions g hg

/-- A macro that stands for its argument, and a use of it whose argument is a use of it. -/
def appliedTwice : String := "`define ID(x) x\na = `ID(`ID(b));\n"

/-- The outer use in `appliedTwice`, as a text. -/
def identityUse : String := "`ID(`ID(b))"

/-- A state in which the macro of `appliedTwice` is in force. -/
def identityState : PreprocessState :=
  { PreprocessState.start "test.sv" identityUse (.start {} .empty) with
    macros := { macros := [{ name := "ID", formals := some [{ name := "x" }],
                             body := [⟨.identifier, "x"⟩] }] } }

theorem reports_recursions_identityUse : ∃ use,
    let d := ofText identityUse (some "test.sv") 1 true
    let es := d.evaluations maxExpansionDepth [] use identityState
    d.pieces = [use] ∧ identityState.expanding = [] ∧
      es.map Evaluation.isRecursive = [false, true] ∧
    ∃ ds, (Ending.state (d.evaluate expandText use identityState)).session =
        identityState.session.addAll ds ∧
      ds.filter Diagnostic.isRecursion = es.filterMap Evaluation.recursion? := by
  let d := ofText identityUse (some "test.sv") 1 true
  have hone : d.pieces.length = 1 := by decide +kernel
  obtain ⟨use, huse⟩ := List.length_eq_one_iff.mp hone
  have hes : (d.pieces.flatMap fun use => (d.evaluations maxExpansionDepth [] use
      identityState).map Evaluation.isRecursive) = [false, true] := by decide +kernel
  rw [huse, List.flatMap_singleton] at hes
  obtain ⟨ds, hds, hrecursions, -⟩ := reports_recursions d use identityState rfl
  exact ⟨use, huse, rfl, hes, ds, hds, hrecursions⟩

/-- Is a recursion all that is reported, although there is no use in the body of the macro that it
names, and is nothing written for the use? -/
def blamesArgument (p : PreprocessedText) (s : Session) : Bool :=
  s.diagnostics.toList.map (·.kind) == [.recursiveMacro "ID"] &&
    (p.macros.get? "ID").any (fun m => m.body == [⟨.spaces, " "⟩, ⟨.identifier, "x"⟩]) &&
    withoutMarks p.text.toList == "\na = ;\n".toList

/-- A macro whose body mentions no macro is refused as recursive where a use of it is the argument
of another one. -/
theorem refuses_argument_appliedTwice :
    ∃ p s, preprocessText "test.sv" appliedTwice (.start {} .empty) = .ok p s ∧
      s.diagnostics.toList.map (·.kind) = [.recursiveMacro "ID"] ∧
      (p.macros.get? "ID").any (fun m => m.body == [⟨.spaces, " "⟩, ⟨.identifier, "x"⟩]) = true ∧
      withoutMarks p.text.toList = "\na = ;\n".toList := by
  have h : (preprocessText "test.sv" appliedTwice).endsIn blamesArgument
    (.start {} .empty) = true := by
    decide +kernel
  obtain ⟨p, s, hp, hblames⟩ := Step.exists_of_endsIn h
  simp only [blamesArgument, Bool.and_eq_true, beq_iff_eq] at hblames
  exact ⟨p, s, hp, hblames.1.1, hblames.1.2, hblames.2⟩

end DirectiveText

end Verilog
