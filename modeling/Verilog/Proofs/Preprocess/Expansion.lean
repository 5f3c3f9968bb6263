import Verilog.Proofs.Preprocess.Origin
import Verilog.Proofs.Preprocess.Passage
import Verilog.Proofs.Preprocess.Plain

/-!
# Where the faults in an expansion are placed

The text of a macro use is scanned again where a backquote is left in it, and so are the texts of
the uses in it, and so on. What is wrong in such a text is reported at the place its token has in
that text, with the lines counted from one again, and under the file of the outermost use. So a
diagnostic points at the use that is evaluated only where that use itself is at fault
(`DirectiveText.places_faults`); one from further in gives a line of the file on which the use need
not stand (`misplaces_nestedFault`).

The texts that are scanned again (`DirectiveText.rescans`) are read off the scans: of each the
pieces that the scan comes to, up to the one at which it is stopped (`DirectiveText.arrivals`).
-/

namespace Verilog

open Preprocessing

/-! ### What programs report -/

namespace Preprocessing

variable {α β : Type} {P Q : Diagnostic → Prop} {x : Preprocessing α} {f : α → Preprocessing β}
  {st : PreprocessState}

/-- **Does a program report only such diagnostics**, from a state? It adds them to the session and
does nothing else with it, also where a report stops it. And it changes no settings. -/
structure ReportsOnly (P : Diagnostic → Prop) (x : Preprocessing α) (st : PreprocessState) :
    Prop where
  reports : ∃ ds, (Ending.state (x st)).session = st.session.addAll ds ∧ ∀ g ∈ ds, P g
  states : (Ending.state (x st)).states = st.states

namespace ReportsOnly

theorem of_quiet (h : (Ending.state (x st)).session = st.session)
    (hs : (Ending.state (x st)).states = st.states) : ReportsOnly P x st :=
  ⟨⟨[], h, List.forall_mem_nil _⟩, hs⟩

theorem of_eq {y : Preprocessing α} (hrun : x st = y st) (h : ReportsOnly P y st) :
    ReportsOnly P x st := ⟨hrun ▸ h.reports, hrun ▸ h.states⟩

theorem mono (h : ReportsOnly P x st) (hPQ : ∀ g, P g → Q g) : ReportsOnly Q x st := by
  obtain ⟨⟨ds, hds, hall⟩, hs⟩ := h
  exact ⟨⟨ds, hds, fun g hg => hPQ g (hall g hg)⟩, hs⟩

theorem bind (hx : ReportsOnly P x st)
    (hf : ∀ a mid, x st = .ok a mid → ReportsOnly P (f a) mid) : ReportsOnly P (x >>= f) st := by
  obtain ⟨⟨ds, hds, hall⟩, hs⟩ := hx
  cases heq : x st with
  | error e after =>
    have hrun : (x >>= f) st = .error e after := by rw [Step.bind_eq, heq]
    rw [heq] at hds hs
    exact ⟨⟨ds, hrun ▸ hds, hall⟩, hrun ▸ hs⟩
  | ok a mid =>
    have hrun : (x >>= f) st = f a mid := Step.bind_of_ok heq
    rw [heq] at hds hs
    have hmid : mid.session = st.session.addAll ds := hds
    obtain ⟨⟨es, hes, hmore⟩, hs'⟩ := hf a mid heq
    rw [← hrun] at hes hs'
    refine ⟨⟨ds ++ es, hes.trans ?_, List.forall_mem_append.mpr ⟨hall, hmore⟩⟩, hs'.trans hs⟩
    rw [hmid, Session.addAll, Session.addAll, Session.addAll, List.foldl_append]

theorem pure (a : α) : ReportsOnly P (pure a : Preprocessing α) st := of_quiet rfl rfl

theorem report {g : Diagnostic} (h : P g) : ReportsOnly P (Preprocessing.report g) st := by
  have hrun : (Ending.state (Preprocessing.report g st)) =
      { st with session := st.session.addAll [g] } := by
    rw [Preprocessing.report, Step.onPart, Verilog.report_eq]
    by_cases hstop : (st.session.config.failFast && g.severity.isError) = true
    · rw [if_pos hstop]
      rfl
    · rw [if_neg hstop]
      rfl
  exact ⟨⟨[g], by rw [hrun], List.forall_mem_singleton.mpr h⟩, by rw [hrun]⟩

theorem emit (s : String) : ReportsOnly P (Preprocessing.emit s) st := of_quiet rfl rfl

theorem foldlM {γ : Type} {f : β → γ → Preprocessing β} {xs : List γ}
    (hf : ∀ b, ∀ c ∈ xs, ∀ st, ReportsOnly P (f b c) st) (b : β) :
    ReportsOnly P (xs.foldlM f b) st := by
  induction xs generalizing b st with
  | nil => exact .pure b
  | cons c xs ih =>
    rw [List.foldlM_cons]
    exact (hf b c List.mem_cons_self st).bind fun b' mid _ =>
      ih (fun b'' c' hc => hf b'' c' (List.mem_cons_of_mem _ hc)) b'

theorem forM {γ : Type} {f : γ → Preprocessing PUnit} {xs : List γ}
    (hf : ∀ c ∈ xs, ∀ st, ReportsOnly P (f c) st) : ReportsOnly P (xs.forM f) st := by
  induction xs generalizing st with
  | nil => exact .pure _
  | cons c xs ih =>
    exact (hf c List.mem_cons_self st).bind fun _ mid _ =>
      ih fun c' hc => hf c' (List.mem_cons_of_mem _ hc)

/-- An expansion reports what is reported in the scan it is. -/
theorem apart {x : Preprocessing Unit} {name : String}
    (hx : ReportsOnly P x { st with text := "", expanding := name :: st.expanding }) :
    ReportsOnly P (Preprocessing.apart x name) st := by
  obtain ⟨⟨ds, hds, hall⟩, hs⟩ := hx
  generalize hrun : x { st with text := "", expanding := name :: st.expanding } = r at hds hs
  have hends : (Ending.state (Preprocessing.apart x name st)).session = (Ending.state r).session ∧
      (Ending.state (Preprocessing.apart x name st)).states = (Ending.state r).states := by
    rw [Preprocessing.apart, hrun]
    cases r <;> exact ⟨rfl, rfl⟩
  exact ⟨⟨ds, hends.1.trans hds, hall⟩, hends.2.trans hs⟩

end ReportsOnly

end Preprocessing

/-- Is the fault that a macro is used where it is being expanded, or where no more expansions may be
open? Only uses are at fault in this way. -/
def DirectiveFault.isRecursion : DirectiveFault → Bool
  | recursion _ => true
  | _ => false

namespace DirectiveText

variable {P : Diagnostic → Prop} {d : DirectiveText} {t : ParseTree} {st : PreprocessState}
  {expand : Expander} {includer : Includer} {scope : ScanScope}

/-! ### What the directives in the text of a macro report -/

section

theorem reportsOnly_report {fault : DirectiveFault} {token : Option Nat}
    (h : P (d.diagnosticAt fault token)) (st : PreprocessState) :
    ReportsOnly P (d.report fault token) st := by
  rw [report_eq_diagnosticAt]
  exact .report h

/-- A token is reported, if at all, at its own place. -/
theorem reportsOnly_copyToken (scope : ScanScope) {i : Nat}
    (h : ∀ token fault, fault.isRecursion = false → d.tokens[i]? = some token →
      P (d.diagnosticAt fault (some i)))
    (st : PreprocessState) : ReportsOnly P (d.copyToken scope i) st := by
  unfold copyToken
  split
  · exact .pure _
  · rename_i token htoken
    split
    · dsimp only
      split
      · exact (reportsOnly_report (h token _ rfl htoken) st).bind fun _ _ _ => .emit _
      · exact .emit _
    · split
      · exact .emit _
      · split <;> exact .emit _

/-- Does a directive do what only the text of a file does: include a file, or change the settings?
-/
def actsInFiles : NodeKind → Bool
  | .ppIncludeDirective | .ppTimescaleDirective | .ppDefaultNettypeDirective
  | .ppResetallDirective => true
  | _ => false

variable (h : ∀ fault : DirectiveFault, fault.isRecursion = false →
  P (d.diagnosticAt fault t.first?))
include h

theorem reportsOnly_stepConditions (kind : NodeKind) (cs : Conditionals) (st : PreprocessState) :
    ReportsOnly P (d.stepConditions kind t cs) st := by
  rw [stepConditions]
  refine ReportsOnly.bind (.of_quiet rfl rfl) fun _ mid _ => ?_
  split
  · exact .pure _
  · exact .pure _
  iterate 3
    · dsimp only
      split
      · exact .pure _
      · exact (reportsOnly_report (h _ rfl) mid).bind fun _ _ _ => .pure _
  · exact .pure _

theorem reportsOnly_define (node : NodeId) (st : PreprocessState) :
    ReportsOnly P (d.define node t) st := by
  rw [define]
  split
  · exact .pure _
  · split
    · exact reportsOnly_report (h _ rfl) st
    · refine ReportsOnly.bind (.of_quiet rfl rfl) fun _ mid _ => ?_
      split
      · exact (reportsOnly_report (h _ rfl) mid).bind fun _ _ _ => .of_quiet rfl rfl
      · exact .of_quiet rfl rfl

theorem reportsOnly_undefine (st : PreprocessState) : ReportsOnly P (d.undefine t) st := by
  rw [undefine]
  refine ReportsOnly.bind (.of_quiet rfl rfl) fun _ mid _ => ?_
  split
  · exact .of_quiet rfl rfl
  · exact reportsOnly_report (h _ rfl) mid

theorem reportsOnly_renumber (scope : ScanScope) (st : PreprocessState) :
    ReportsOnly P (d.renumber scope t) st := by
  unfold renumber
  dsimp only
  split
  · split
    · exact (reportsOnly_report (h _ rfl) st).bind fun _ _ _ => .pure _
    · exact ReportsOnly.bind (.of_quiet rfl rfl) fun _ _ _ =>
        ReportsOnly.bind (.of_quiet rfl rfl) fun _ _ _ => .pure _
  · exact (reportsOnly_report (h _ rfl) st).bind fun _ _ _ => .pure _

theorem reportsOnly_setTimeScale (hr : d.recording = false) (st : PreprocessState) :
    ReportsOnly P (d.setTimeScale t) st := by
  unfold setTimeScale
  dsimp only
  split
  · rw [changeSettings, hr]
    exact .pure _
  · exact reportsOnly_report (h _ rfl) st

theorem reportsOnly_setNetType (hr : d.recording = false) (st : PreprocessState) :
    ReportsOnly P (d.setNetType t) st := by
  unfold setNetType
  dsimp only
  split
  · rw [changeSettings, hr]
    exact .pure _
  · exact reportsOnly_report (h _ rfl) st

/-- A directive is reported, if at all, where it begins. This is said of the text of a macro, and of
that of a file but for what only such a text does. -/
theorem reportsOnly_doDirective {kind : NodeKind}
    (hr : scope.conditions.active = true → actsInFiles kind = true → d.recording = false)
    (node : NodeId) (st : PreprocessState) :
    ReportsOnly P (d.doDirective expand includer scope kind t node) st := by
  have hreturn {x : Preprocessing Unit} (hx : ReportsOnly P x st) :
      ReportsOnly P (do x; return scope) st := hx.bind fun _ _ _ => .pure _
  rw [doDirective]
  split
  · exact (reportsOnly_stepConditions h kind _ st).bind fun _ _ _ => .pure _
  split
  · rename_i hactive
    have hr := hr hactive
    unfold act
    split
    · exact hreturn (reportsOnly_undefine h st)
    · exact hreturn (.of_quiet rfl rfl)
    · rw [includeFile, hr rfl]
      exact hreturn (.pure _)
    · exact reportsOnly_renumber h scope st
    · exact hreturn (reportsOnly_setTimeScale h (hr rfl) st)
    · exact hreturn (reportsOnly_setNetType h (hr rfl) st)
    · rw [changeSettings, hr rfl]
      exact hreturn (.pure _)
    · exact hreturn (.emit _)
    · exact hreturn (.emit _)
    · dsimp only
      split
      · exact hreturn (reportsOnly_define h node st)
      · exact .pure _
  · exact .pure _

end

/-- What stands between marks reports what it reports without them: in the text of a macro there are
none. -/
theorem reportsOnly_between {α : Type} {inner : NodeId → Preprocessing α} (hr : d.recording = false)
    (marked : Bool) (hinner : ReportsOnly P (inner 0) st) :
    ReportsOnly P (do
      let node ← d.openMarks marked t
      let a ← inner node
      d.closeMarks marked node t
      return a) st := by
  have hopen : d.openMarks marked t st = .ok 0 st := by rw [openMarks, hr]; rfl
  have hclose (a : α) (mid : PreprocessState) : ReportsOnly P (do
      d.closeMarks marked 0 t
      return a) mid := by
    rw [closeMarks, hr, Bool.and_false]
    exact ReportsOnly.bind (.of_quiet rfl rfl) fun _ _ _ => .pure _
  exact .of_eq (Step.bind_of_ok hopen) (hinner.bind fun a mid _ => hclose a mid)

/-! ### The texts that are scanned again -/

/-- A piece that a scan comes to, with what the scan has kept and the state it is in there. -/
structure Arrival where
  piece : ParseTree
  scope : ScanScope
  state : PreprocessState

/-- Is it a macro use in active text? -/
def Arrival.isUse (a : Arrival) : Bool :=
  a.piece.kind?.any (·.isMacroUse) && a.scope.conditions.active

/-- The pieces that a scan comes to, the one that stops it included. -/
def arrivals (expand : Expander) (includer : Includer) (d : DirectiveText) :
    List ParseTree → ScanScope → PreprocessState → List Arrival
  | [], _, _ => []
  | t :: ts, scope, st => ⟨t, scope, st⟩ ::
    match d.scanPiece expand includer scope t st with
    | .ok next after => arrivals expand includer d ts next after
    | .error _ _ => []

/-- The macro that a use is of and the text that is put in for it; none if the use is at fault. -/
def substitution? (d : DirectiveText) (use : ParseTree) (st : PreprocessState) :
    Option (String × String) := do
  let name ← d.usedName use
  let m ← st.macros.get? name
  if st.expanding.contains name || st.expanding.length ≥ maxExpansionDepth then none
  else (d.substitutedText m use).toOption.map (name, ·)

/-- **The texts that are scanned again** while a use is evaluated, with so many expansions nested in
one another: that of the use if a backquote is in it, and those of the active uses which the scan of
it comes to. -/
def rescans : Nat → DirectiveText → ParseTree → PreprocessState → List String
  | 0, _, _, _ => []
  | depth + 1, d, use, st =>
    match d.substitution? use st with
    | none => []
    | some (name, text) =>
      if text.toList.contains backquote then
        let inner := ofText text d.file 0 false
        text :: (inner.arrivals (expandWithin depth) (fun _ => pure none) inner.pieces {}
            { st with text := "", expanding := name :: st.expanding }).flatMap fun a =>
          if a.isUse then rescans depth inner a.piece a.state else []
      else []

/-- Is a diagnostic placed at a token of one of these texts, under the name of a file? -/
def PlacedIn (file : Option String) (texts : List String) (g : Diagnostic) : Prop :=
  ∃ text ∈ texts, ∃ token ∈ DirectiveToken.ofText text,
    g.place = some ⟨nameText file, token.line, token.column⟩

theorem PlacedIn.mono {file : Option String} {texts more : List String} {g : Diagnostic}
    (h : PlacedIn file texts g) (hsub : texts ⊆ more) : PlacedIn file more g := by
  obtain ⟨text, htext, htoken⟩ := h
  exact ⟨text, hsub htext, htoken⟩

/-- A scan reports what is reported of the pieces it comes to. -/
theorem reportsOnly_pieces {ts : List ParseTree}
    (h : ∀ a ∈ d.arrivals expand includer ts scope st,
      ReportsOnly P (d.scanPiece expand includer a.scope a.piece) a.state) :
    ReportsOnly P (ts.foldlM (d.scanPiece expand includer) scope) st := by
  induction ts generalizing scope st with
  | nil => exact .pure _
  | cons t ts ih =>
    rw [arrivals] at h
    obtain ⟨hpiece, hmore⟩ := List.forall_mem_cons.mp h
    rw [List.foldlM_cons]
    refine hpiece.bind fun next after hrun => ih ?_
    rwa [hrun] at hmore

theorem piece_of_arrival {ts : List ParseTree} {a : Arrival}
    (h : a ∈ d.arrivals expand includer ts scope st) : a.piece ∈ ts := by
  induction ts generalizing scope st with
  | nil => cases h
  | cons t ts ih =>
    rw [arrivals] at h
    rcases List.mem_cons.mp h with rfl | h
    · exact List.mem_cons_self
    · split at h
      · exact List.mem_cons_of_mem _ (ih h)
      · cases h

/-! ### Where pieces begin -/

theorem sublist_leaves_of_child {t piece : ParseTree} (h : t ∈ piece.children) :
    t.leaves.Sublist piece.leaves := by
  have hall {ts : List ParseTree} (ht : t ∈ ts) : t.leaves.Sublist (ParseTree.leavesAll ts) := by
    induction ts with
    | nil => cases ht
    | cons u ts ih =>
      rw [ParseTree.leavesAll]
      rcases List.mem_cons.mp ht with rfl | ht
      · exact List.sublist_append_left _ _
      · exact (ih ht).trans (List.sublist_append_right _ _)
  cases piece with
  | leaf i => cases h
  | node kind ts =>
    rw [ParseTree.leaves]
    exact hall h

section

variable {text : String} {file : Option String} {parent : NodeId} {recording : Bool}

/-- A part of a piece that has leaves begins and ends with tokens of the text, and ends on no
earlier line than it begins on. -/
theorem exists_ends {piece : ParseTree}
    (hpiece : piece ∈ (ofText text file parent recording).pieces)
    (hsub : t.leaves.Sublist piece.leaves) (hne : t.leaves ≠ []) :
    ∃ i token, t.first? = some i ∧ (ofText text file parent recording).tokens[i]? = some token ∧
      token ∈ DirectiveToken.ofText text ∧
      ((ofText text file parent recording).rangeOf t).line = token.line ∧
      ((ofText text file parent recording).rangeOf t).column = token.column ∧
      token.line ≤ ((ofText text file parent recording).rangeOf t).endLine := by
  have hsorted := (DirectiveGrammar.tiles_parse _).sorted piece hpiece
  rw [pieces_ofText] at hpiece
  have htoken {i : Nat} (hi : i ∈ t.leaves) : ∃ token,
      (DirectiveKind.lexicon.tokens text)[i]? = some token := by
    have hlt := lt_of_mem_leaves hpiece (hsub.subset hi)
    rw [signs, List.length_map] at hlt
    exact ⟨_, List.getElem?_eq_getElem hlt⟩
  obtain ⟨first, hfirst⟩ := Option.isSome_iff_exists.mp (List.isSome_head?.mpr hne)
  have hlast : t.leaves.getLast? = some (t.leaves.getLast hne) := List.getLast?_eq_some_getLast hne
  generalize t.leaves.getLast hne = last at hlast
  obtain ⟨u, hu⟩ := htoken (List.mem_of_head? hfirst)
  obtain ⟨v, hv⟩ := htoken (List.mem_of_getLast? hlast)
  have hle : first ≤ last := by
    obtain ⟨is, his⟩ := List.head?_eq_some_iff.mp hfirst
    have hpair := hsorted.sublist hsub
    have hlast := List.mem_of_getLast? hlast
    rw [his] at hpair hlast
    rcases List.mem_cons.mp hlast with rfl | hlast
    · exact Nat.le_refl _
    · exact Nat.le_of_lt (List.rel_of_pairwise_cons hpair hlast)
  have hget (i : Nat) : (ofText text file parent recording).tokens[i]? =
      (DirectiveKind.lexicon.tokens text)[i]? := by
    rw [ofText, List.getElem?_toArray, DirectiveToken.ofText]
  have hline : u.line ≤ v.endLine := by
    rcases Lexicon.noLater_tokens hle hu hv with h | ⟨h, -⟩
    · exact Nat.le_of_lt h
    · exact Nat.le_of_eq h
  have hrange : (ofText text file parent recording).rangeOf t =
      ⟨u.line, u.column, v.endLine, v.endColumn⟩ := by
    rw [rangeOf, t.first?_eq, t.last?_eq, hfirst, hlast]
    simp only [Option.bind_some, hget, hu, hv]
  exact ⟨first, u, t.first?_eq.trans hfirst, (hget first).trans hu,
    List.mem_of_getElem? hu, by rw [hrange], by rw [hrange], by rw [hrange]; exact hline⟩

theorem leaves_ne_nil {piece : ParseTree}
    (hpiece : piece ∈ (ofText text file parent recording).pieces) : piece.leaves ≠ [] := by
  intro hnil
  have hlast {before rest : List DirectiveToken} {ts : List ParseTree}
      (h : DirectiveGrammar.Tiles before ts rest) (ht : piece ∈ ts) : piece.last?.isSome := by
    induction h with
    | nil => cases ht
    | @cons before taken rest u us hu _ ih =>
      rcases List.mem_cons.mp ht with rfl | ht
      · rw [hu.last]
        rfl
      · exact ih ht
  have := hlast (DirectiveGrammar.tiles_parse _) hpiece
  simp [piece.last?_eq, hnil] at this

/-- A token of a text is on one of the lines of the text. -/
theorem line_le_of_mem {token : DirectiveToken} (h : token ∈ DirectiveToken.ofText text) :
    token.line ≤ 1 + newlines text.toList := by
  obtain ⟨before, after, hsplit⟩ := List.append_of_mem h
  have hcut := DirectiveKind.lexicon.flatMap_tokens text
  rw [← DirectiveToken.ofText, hsplit, List.flatMap_append] at hcut
  rw [Lexicon.eq_placed hsplit, Token.placed]
  dsimp only
  rw [← hcut, newlines_append, Position.line_advanceBy]
  change 1 + _ ≤ _
  rw [Token.textOf]
  omega

end

/-! ### The faults of a use and those in its text -/

/-- A use is named by its first token. -/
theorem leaves_ne_nil_of_usedName {use : ParseTree} {name : String}
    (h : d.usedName use = some name) : use.leaves ≠ [] := by
  intro hnil
  rw [usedName, use.first?_eq, hnil] at h
  cases h

/-- Is a diagnostic that of a fault of the use itself? -/
def BlamesUse (d : DirectiveText) (use : ParseTree) (g : Diagnostic) : Prop :=
  use.leaves ≠ [] ∧ ∃ fault, g = d.diagnosticAt fault use.first?

/-- Is no more reported from one state to another than one fault, one of the use itself, and are
the settings the same? -/
structure FaultsOnce (d : DirectiveText) (use : ParseTree) (before after : PreprocessState) :
    Prop where
  reports : ∃ ds, after.session = before.session.addAll ds ∧ ds.length ≤ 1 ∧
    ∀ g ∈ ds, d.BlamesUse use g
  states : after.states = before.states

theorem FaultsOnce.of_quiet {use : ParseTree} {after : PreprocessState}
    (h : after.session = st.session) (hs : after.states = st.states) : d.FaultsOnce use st after :=
  ⟨⟨[], h, Nat.zero_le _, List.forall_mem_nil _⟩, hs⟩

theorem FaultsOnce.reportsOnly {α : Type} {use : ParseTree} {x : Preprocessing α}
    (h : d.FaultsOnce use st (Ending.state (x st))) (hP : ∀ g, d.BlamesUse use g → P g) :
    ReportsOnly P x st := by
  obtain ⟨⟨ds, hds, -, hall⟩, hs⟩ := h
  exact ⟨⟨ds, hds, fun g hg => hP g (hall g hg)⟩, hs⟩

/-- What evaluating a use does: it goes on with the text that is put in for it, or the use is at
fault and nothing more than that is reported. -/
theorem evaluate_spec (expand : Expander) (d : DirectiveText) (use : ParseTree)
    (st : PreprocessState) :
    (∃ name text, d.substitution? use st = some (name, text) ∧
      d.evaluate expand use st = (some <$> expand d.file name text) st) ∨
    d.substitution? use st = none ∧
      d.FaultsOnce use st (Ending.state (d.evaluate expand use st)) := by
  have hrefuse (hne : use.leaves ≠ []) (fault : DirectiveFault) :
      d.FaultsOnce use st (Ending.state ((do d.report fault use.first?; return none :
        Preprocessing (Option String)) st)) := by
    have hrun : Ending.state ((do d.report fault use.first?; return none :
        Preprocessing (Option String)) st) =
          { st with session := st.session.addAll [d.diagnosticAt fault use.first?] } := by
      rw [Step.bind_eq, report_eq_diagnosticAt, Preprocessing.report, Step.onPart,
        Verilog.report_eq]
      by_cases hstop : (st.session.config.failFast &&
          (d.diagnosticAt fault use.first?).severity.isError) = true
      · rw [if_pos hstop]
        rfl
      · rw [if_neg hstop]
        rfl
    exact ⟨⟨[d.diagnosticAt fault use.first?], by rw [hrun], Nat.le_refl _,
      List.forall_mem_singleton.mpr ⟨hne, fault, rfl⟩⟩, by rw [hrun]⟩
  cases hname : d.usedName use with
  | none =>
    rw [substitution?, evaluate, hname]
    exact .inr ⟨rfl, .of_quiet rfl rfl⟩
  | some name =>
    have hne := leaves_ne_nil_of_usedName hname
    rw [substitution?, evaluate, hname, Option.bind_eq_bind, Option.bind_some]
    dsimp only
    rw [Step.bind_get]
    cases st.macros.get? name with
    | none => exact .inr ⟨rfl, hrefuse hne _⟩
    | some m =>
      dsimp only
      rw [Option.bind_eq_bind, Option.bind_some]
      by_cases hopen : (st.expanding.contains name ||
          st.expanding.length ≥ maxExpansionDepth) = true
      · rw [if_pos hopen, if_pos hopen]
        exact .inr ⟨rfl, hrefuse hne _⟩
      · rw [if_neg hopen, if_neg hopen]
        cases d.substitutedText m use with
        | error fault => exact .inr ⟨rfl, hrefuse hne _⟩
        | ok text => exact .inl ⟨name, text, rfl, rfl⟩

theorem placedIn_diagnosticAt {text : String} {file : Option String} {texts : List String}
    (fault : DirectiveFault) {i : Nat} {token : DirectiveToken}
    (htoken : (ofText text file 0 false).tokens[i]? = some token) (htext : text ∈ texts) :
    PlacedIn file texts ((ofText text file 0 false).diagnosticAt fault (some i)) := by
  refine ⟨text, htext, token, ?_, ?_⟩
  · rw [ofText, List.getElem?_toArray] at htoken
    exact List.mem_of_getElem? htoken
  · rw [diagnosticAt, Option.bind_some, htoken]
    rfl

/-- A piece of the text of a macro is reported, if at all, at one of its tokens, or it is a use and
what is reported is reported while that is evaluated. -/
theorem reportsOnly_scanPiece {text : String} {file : Option String}
    (hpiece : t ∈ (ofText text file 0 false).pieces)
    (hP : ∀ fault i token, fault.isRecursion = false →
      (ofText text file 0 false).tokens[i]? = some token →
      P ((ofText text file 0 false).diagnosticAt fault (some i)))
    (huse : t.kind?.any (·.isMacroUse) = true → scope.conditions.active = true →
      ReportsOnly P ((ofText text file 0 false).evaluate expand t) st) :
    ReportsOnly P ((ofText text file 0 false).scanPiece expand includer scope t) st := by
  obtain ⟨i, token, hfirst, htoken, -⟩ := exists_ends hpiece (.refl _) (leaves_ne_nil hpiece)
  have hfault (fault : DirectiveFault) (hf : fault.isRecursion = false) :
      P ((ofText text file 0 false).diagnosticAt fault t.first?) := by
    rw [hfirst]
    exact hP fault i token hf htoken
  have hcopy (i : Nat) (st : PreprocessState) :
      ReportsOnly P ((ofText text file 0 false).copyToken scope i) st :=
    reportsOnly_copyToken scope (fun token fault hf h => hP fault i token hf h) st
  unfold scanPiece
  cases t with
  | leaf i => exact (hcopy i st).bind fun _ _ _ => .pure _
  | node kind ts =>
    dsimp only
    split
    · rw [scanDirective_eq]
      exact reportsOnly_between rfl true (reportsOnly_doDirective hfault (fun _ _ => rfl) 0 st)
    split
    · rename_i hk
      rw [scanUse_eq]
      refine (reportsOnly_between rfl _ ?_).bind fun _ _ _ => .pure _
      rw [doUse]
      split
      · rename_i hactive
        refine (huse hk hactive).bind fun text mid _ => ?_
        cases text <;> exact .of_quiet rfl rfl
      · exact .pure _
    · exact (ReportsOnly.forM fun i _ st => hcopy i st).bind fun _ _ _ => .pure _

/-- **What is reported while a use is evaluated**, with so many expansions nested in one another:
the one fault of the use itself, or what is wrong at the tokens of the texts that are scanned again.
-/
theorem reports_evaluate (depth : Nat) (d : DirectiveText) (use : ParseTree)
    (st : PreprocessState) :
    (d.rescans depth use st = [] ∧
      d.FaultsOnce use st (Ending.state (d.evaluate (expandWithin depth) use st))) ∨
    d.rescans depth use st ≠ [] ∧ ReportsOnly (PlacedIn d.file (d.rescans depth use st))
      (d.evaluate (expandWithin depth) use) st := by
  induction depth generalizing d use st with
  | zero =>
    refine .inl ⟨rfl, ?_⟩
    rcases evaluate_spec (expandWithin 0) d use st with ⟨name, text, -, hrun⟩ | ⟨-, hrefuse⟩
    · rw [hrun]
      exact .of_quiet rfl rfl
    · exact hrefuse
  | succ depth ih =>
    rw [rescans]
    rcases evaluate_spec (expandWithin (depth + 1)) d use st with
      ⟨name, text, hsub, hrun⟩ | ⟨hnone, hrefuse⟩
    · rw [expandWithin_succ] at hrun
      rw [hsub]
      dsimp only
      split at hrun
      · -- the text is scanned again: what is wrong in it is wrong at a token of a piece of it
        rename_i hquote
        rw [if_pos hquote]
        refine .inr ⟨List.cons_ne_nil _ _, ?_⟩
        refine .of_eq hrun ?_
        rw [map_eq_pure_bind]
        refine ReportsOnly.bind (.apart ?_) fun _ _ _ => .pure _
        refine ReportsOnly.bind (reportsOnly_pieces fun a ha => ?_) fun _ _ _ => .pure _
        have hpiece := piece_of_arrival ha
        refine reportsOnly_scanPiece hpiece
          (fun fault i token _ htoken => placedIn_diagnosticAt fault htoken List.mem_cons_self)
          fun hk hactive => ?_
        have hin : rescans depth (ofText text d.file 0 false) a.piece a.state ⊆
            text :: (arrivals (expandWithin depth) (fun _ => pure none) (ofText text d.file 0 false)
              (ofText text d.file 0 false).pieces {}
              { st with text := "", expanding := name :: st.expanding }).flatMap fun a =>
                if a.isUse then rescans depth (ofText text d.file 0 false) a.piece a.state
                else [] := by
          intro inner hinner
          refine List.mem_cons_of_mem _ (List.mem_flatMap.mpr ⟨a, ha, ?_⟩)
          rwa [Arrival.isUse, hk, hactive, Bool.and_self, if_pos rfl]
        rcases ih (ofText text d.file 0 false) a.piece a.state with
          ⟨-, hfaults⟩ | ⟨-, hreports⟩
        · refine hfaults.reportsOnly fun g hg => ?_
          obtain ⟨-, fault, rfl⟩ := hg
          obtain ⟨i, token, hfirst, htoken, -⟩ :=
            exists_ends hpiece (.refl _) (leaves_ne_nil hpiece)
          rw [hfirst]
          exact placedIn_diagnosticAt fault htoken List.mem_cons_self
        · exact hreports.mono fun g hg => hg.mono hin
      · -- a text without a backquote is given as it is
        rename_i hquote
        rw [if_neg hquote]
        rw [hrun]
        exact .inl ⟨rfl, .of_quiet rfl rfl⟩
    · rw [hnone]
      exact .inl ⟨rfl, hrefuse⟩

/-- **Where the faults of an evaluation are placed.** While a use is evaluated, of a piece of a text
or in one that includes a file, either no text is scanned again, and then no more than one fault is
reported, and on a line that the use stands on; or some texts are, and then all faults are reported
at places of tokens in these texts, whose lines count from one, and under the file of the use. -/
theorem places_faults (text : String) (file : Option String) (parent : NodeId) (recording : Bool)
    {piece use : ParseTree} (hpiece : piece ∈ (ofText text file parent recording).pieces)
    (huse : use = piece ∨ use ∈ piece.children) (st : PreprocessState) :
    let d := ofText text file parent recording
    let texts := d.rescans maxExpansionDepth use st
    ∃ ds, (Ending.state (d.evaluate expandText use st)).session = st.session.addAll ds ∧
      (texts = [] ∧ ds.length ≤ 1 ∧ (∀ g ∈ ds, ∃ line column,
          g.place = some ⟨nameText file, line, column⟩ ∧
          (d.rangeOf use).line ≤ line ∧ line ≤ (d.rangeOf use).endLine) ∨
        texts ≠ [] ∧ ∀ g ∈ ds, ∃ inner ∈ texts, ∃ token ∈ DirectiveToken.ofText inner,
          g.place = some ⟨nameText file, token.line, token.column⟩ ∧
          token.line ≤ 1 + newlines inner.toList) := by
  intro d texts
  have hsub : use.leaves.Sublist piece.leaves := by
    rcases huse with rfl | huse
    · exact .refl _
    · exact sublist_leaves_of_child huse
  rcases d.reports_evaluate maxExpansionDepth use st with
    ⟨hnone, ⟨ds, hds, hone, hfaults⟩, -⟩ | ⟨hsome, ⟨ds, hds, hplaced⟩, -⟩
  · refine ⟨ds, hds, .inl ⟨hnone, hone, fun g hg => ?_⟩⟩
    obtain ⟨hne, fault, rfl⟩ := hfaults g hg
    obtain ⟨i, token, hfirst, htoken, -, hline, -, hle⟩ := exists_ends hpiece hsub hne
    refine ⟨token.line, token.column, ?_, Nat.le_of_eq hline, hle⟩
    rw [hfirst, diagnosticAt, Option.bind_some, htoken]
    rfl
  · refine ⟨ds, hds, .inr ⟨hsome, fun g hg => ?_⟩⟩
    obtain ⟨inner, hinner, token, htoken, hplace⟩ := hplaced g hg
    exact ⟨inner, hinner, token, htoken, hplace, line_le_of_mem htoken⟩

/-- A macro whose text uses one that is not defined, and a use of it two lines further down. -/
def nestedFault : String := "`define M `NOPE\n\n`M\n"

/-- The use of the macro in `nestedFault`. -/
def nestedUse : ParseTree := .node .ppMacroInstanceNoArgs [.leaf 7]

/-- A state in which that macro is in force. -/
def nestedState : PreprocessState :=
  { PreprocessState.start "test.sv" nestedFault (.start {} .empty) with
    macros := MacroTable.defineAll {} [("M", "`NOPE")] }

theorem places_faults_nestedFault :
    let d := ofText nestedFault (some "test.sv") 1 true
    nestedUse ∈ d.pieces ∧ (nestedUse = nestedUse ∨ nestedUse ∈ nestedUse.children) ∧
    d.rescans maxExpansionDepth nestedUse nestedState = ["`NOPE"] ∧
    ∃ ds, (Ending.state (d.evaluate expandText nestedUse nestedState)).session =
        nestedState.session.addAll ds ∧
      (["`NOPE"] = [] ∧ ds.length ≤ 1 ∧ (∀ g ∈ ds, ∃ line column,
          g.place = some ⟨"test.sv", line, column⟩ ∧
          (d.rangeOf nestedUse).line ≤ line ∧ line ≤ (d.rangeOf nestedUse).endLine) ∨
        ["`NOPE"] ≠ [] ∧ ∀ g ∈ ds, ∃ inner ∈ ["`NOPE"], ∃ token ∈ DirectiveToken.ofText inner,
          g.place = some ⟨"test.sv", token.line, token.column⟩ ∧
          token.line ≤ 1 + newlines inner.toList) := by
  have hget : (ofText nestedFault (some "test.sv") 1 true).pieces[3]? = some nestedUse := by
    decide +kernel
  have hpiece := List.mem_of_getElem? hget
  have hrescans : (ofText nestedFault (some "test.sv") 1 true).rescans maxExpansionDepth nestedUse
      nestedState = ["`NOPE"] := by decide +kernel
  have hplaces := places_faults nestedFault (some "test.sv") 1 true hpiece (.inl rfl) nestedState
  dsimp only at hplaces
  rw [hrescans] at hplaces
  exact ⟨hpiece, .inl rfl, hrescans, hplaces⟩

/-- Is this all that is reported: that no macro has the name in `nestedFault`, at the start of the
file? -/
def blamesStart (s : Session) : Bool :=
  s.diagnostics.toList.map (fun g => (g.kind, g.place)) ==
    [(.unknownMacro "NOPE", some ⟨"test.sv", 1, 1⟩)]

/-- The fault in the text of the macro is reported on the first line of the file, and the use that
is being evaluated stands on the third. -/
theorem misplaces_nestedFault :
    ((ofText nestedFault (some "test.sv") 1 true).pieces[3]?.map
      (ofText nestedFault (some "test.sv") 1 true).rangeOf) = some ⟨3, 1, 3, 3⟩ ∧
    ∃ p s, preprocessText "test.sv" nestedFault (.start {} .empty) = .ok p s ∧
      s.diagnostics.toList.map (fun g => (g.kind, g.place)) =
        [(.unknownMacro "NOPE", some ⟨"test.sv", 1, 1⟩)] := by
  have h : (preprocessText "test.sv" nestedFault).endsIn (fun _ s => blamesStart s)
      (.start {} .empty) = true := by decide +kernel
  obtain ⟨p, s, hp, hblames⟩ := Step.exists_of_endsIn h
  exact ⟨by decide +kernel, p, s, hp, beq_iff_eq.mp hblames⟩

end DirectiveText

end Verilog
