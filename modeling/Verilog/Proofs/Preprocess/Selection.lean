import Verilog.Proofs.Preprocess.Branch
import Verilog.Proofs.Syntax.Marks

/-!
# Conditional compilation

Of each chain of conditional directives at most one branch is active, the first one whose test holds
when it is reached, and of a chain in inactive text none is. Text that is not active leaves its line
feeds. This is said of a text piece by piece, from its visits alone: the frames a scan keeps are not
looked at but to ask whether a piece is active.

That line feeds are all that is left in the text without marks needs the delimiters before them to
come in pairs. They do where the delimiter stands in nothing that is preprocessed
(`DirectiveText.even_visits`).
-/

namespace Verilog

open Preprocessing ConditionStep

/-- Do the delimiters of a state's text come in pairs? -/
def PreprocessState.Paired (st : PreprocessState) : Prop :=
  st.text.toList.count markDelimiter % 2 = 0

instance (st : PreprocessState) : Decidable st.Paired := inferInstanceAs (Decidable (_ = _))

/-- Does a piece leave the macros, the lines, the inclusions and the settings as they are, and add
nothing but its line feeds to the text without marks? -/
structure Visit.Idle (d : DirectiveText) (v : Visit) : Prop where
  keeps : DirectiveText.Keeps v.before v.after
  stripped : v.before.Paired → withoutMarks v.after.text.toList =
    withoutMarks v.before.text.toList ++ List.replicate (d.newlinesIn v.piece) '\n'

/-- What conditional compilation promises of the visit of a piece, by the visits before it. -/
structure Visit.Compiles (d : DirectiveText) (expand : Expander) (includer : Includer)
    (earlier : List Visit) (v : Visit) : Prop where
  /-- A piece is active where each chain that is open there is in its selected branch, and was
  opened by an active piece. -/
  active_iff : v.scope.conditions.active = true ↔
    ∀ start tests, OpenChain (d.stepsOf earlier) start tests → Selected tests ∧
      ∃ u, earlier[start]? = some u ∧ u.scope.conditions.active = true
  /-- An inactive piece that is no conditional directive does nothing. -/
  inactive : v.scope.conditions.active = false →
    v.piece.kind?.any DirectiveText.isConditional = false →
    d.scanPiece expand includer v.scope v.piece v.before = .ok v.scope v.after ∧ v.Idle d ∧
      v.after.session = v.before.session
  /-- A directive that goes on with a chain or closes one where none is open is reported. -/
  stray : ∀ kind fault, v.piece.kind? = some kind → DirectiveText.strayFault? kind = some fault →
    (∀ start tests, ¬OpenChain (d.stepsOf earlier) start tests) →
    d.scanPiece expand includer v.scope v.piece v.before = .ok v.scope v.after ∧ v.Idle d ∧
      v.after.session = v.before.session.add (d.diagnosticAt fault v.piece.first?)

namespace DirectiveText

variable {d : DirectiveText} {t : ParseTree} {expand : Expander} {includer : Includer}
  {scope : ScanScope} {st before after : PreprocessState}

/-- The diagnostic of a chain that a file leaves open, by the number of the piece that opened it. -/
def openChainDiagnostic (d : DirectiveText) (start : Nat) : Diagnostic :=
  DirectiveFault.unterminatedConditional.diagnostic
    ⟨nameText d.file, (d.placeAt start).1, (d.placeAt start).2⟩

/-! ### Text without marks -/

/-- Behind paired delimiters a piece in inactive text adds its line feeds. -/
theorem AddsNewlines.stripped (h : d.AddsNewlines t before after) (hp : before.Paired) :
    withoutMarks after.text.toList =
      withoutMarks before.text.toList ++ List.replicate (d.newlinesIn t) '\n' := by
  obtain ⟨front, back, htext, hmarks⟩ := h
  have hfeeds := Unmarked.replicate_newline (d.newlinesIn t)
  rw [htext, withoutMarks_append hp]
  congr 1
  obtain ⟨rfl, rfl⟩ | ⟨rfl, node, rfl⟩ := hmarks
  · rw [List.nil_append, List.append_nil, withoutMarks_unmarked hfeeds]
  · have hend := withoutMarks_mark (m := (.preprocEnd, endMark node)) (.inr ⟨node, rfl⟩) []
    rw [List.append_nil] at hend
    rw [withoutMarks_mark (m := (.preprocBegin, beginMark)) (.inl rfl),
      withoutMarks_unmarked_append hfeeds, hend]
    exact List.append_nil _

/-- **Delimiters come in pairs** where the delimiter stands in nothing that is preprocessed. -/
theorem even_visits (hd : d.Unmarked) (hr : d.recording = true) (he : Expands expand)
    (hi : Includes true includer) (ts : List ParseTree) (hs : scope.Unmarked) (hst : st.Unmarked)
    (hp : st.Paired) : ∀ v ∈ d.visits expand includer ts scope st, v.before.Paired := by
  induction ts generalizing scope st with
  | nil => simp [visits]
  | cons t ts ih =>
    have hwrites := writes_scanPiece (t := t) hd he (hr ▸ hi) hs st hst
    rw [visits]
    cases hrun : d.scanPiece expand includer scope t st with
    | error e after => simp
    | ok scope' after =>
      rw [hrun] at hwrites
      obtain ⟨hwrote, hs'⟩ := hwrites
      obtain ⟨ws, htext, hsound, -⟩ := hwrote.text
      have hcount := (markedBy_writtenAll (hr ▸ hsound)).count_eq
      have hp' : after.Paired := by
        rw [PreprocessState.Paired, htext, List.count_append, hcount]
        rw [PreprocessState.Paired] at hp
        omega
      exact List.forall_mem_cons.mpr ⟨hp, ih hs' hwrote.state hp'⟩

/-! ### Active pieces -/

/-- Frames that represent the open chains are active where these are in selected branches. -/
theorem Represents.active_iff {done : List Visit} (h : d.Represents done scope) :
    scope.conditions.active = true ↔ InSelected (d.stepsOf done) := by
  obtain ⟨chains, hlists, hframed, -⟩ := h
  rw [hframed.active_iff, hlists.inSelected]

/-- No chain is open where there are no frames. -/
theorem Represents.conditions_eq_nil {done : List Visit} (h : d.Represents done scope)
    (hnone : ∀ start tests, ¬OpenChain (d.stepsOf done) start tests) : scope.conditions = [] := by
  obtain ⟨chains, hlists, hframed, -⟩ := h
  generalize scope.conditions = cs at hframed
  cases hframed with
  | nil => rfl
  | @cons c cs start tests chains =>
    exact absurd ⟨0, (hlists start 0 tests).mpr rfl⟩ (hnone start tests)

theorem stepsOf_take (d : DirectiveText) (vs : List Visit) (n : Nat) :
    (d.stepsOf vs).take n = d.stepsOf (vs.take n) := by
  simp [stepsOf, List.map_take]

/-- **One visit.** -/
theorem compiles_of_represents {vs : List Visit} {i : Nat} {v : Visit} (hv : vs[i]? = some v)
    (hrep : ∀ j u, vs[j]? = some u → d.Represents (vs.take j) u.scope) (hl : v.before.Lenient)
    {scope' : ScanScope}
    (hrun : d.scanPiece expand includer v.scope v.piece v.before = .ok scope' v.after) :
    v.Compiles d expand includer (vs.take i) := by
  have hactive := (hrep i v hv).active_iff
  refine ⟨?_, fun hin hk => ?_, fun kind fault hkind hf hnone => ?_⟩
  · rw [hactive]
    refine ⟨fun hsel start tests hc => ?_, fun h start tests hc => (h start tests hc).1⟩
    obtain ⟨hlt, hopened⟩ := hsel.opened hc
    rw [stepsOf, List.length_map] at hlt
    refine ⟨hsel start tests hc, (vs.take i)[start], List.getElem?_eq_getElem hlt, ?_⟩
    have hu : vs[start]? = some (vs.take i)[start] := by
      rw [← List.getElem?_eq_getElem hlt, List.getElem?_take_of_lt (by simp at hlt; omega)]
    rw [(hrep _ _ hu).active_iff]
    rwa [stepsOf_take, List.take_take, Nat.min_eq_left (by simp at hlt; omega)] at hopened
  · obtain ⟨after, hafter, hkeeps, hsession, hadds⟩ :=
      scanPiece_inactive d expand includer v.before hin hk
    obtain ⟨rfl, heq⟩ := EStateM.Result.ok.inj (hrun.symm.trans hafter)
    rw [← heq] at hkeeps hsession hadds
    exact ⟨hrun, ⟨hkeeps, hadds.stripped⟩, hsession⟩
  · have hcs := (hrep i v hv).conditions_eq_nil hnone
    have hcond : isConditional kind = true := by
      cases kind <;> first | rfl | cases hf
    obtain ⟨t, u, w, x⟩ := v
    cases t with
    | leaf j => cases hkind
    | node kind' ts =>
      obtain rfl : kind' = kind := Option.some.inj hkind
      obtain ⟨cs', after, hafter, hkeeps, hadds, -, hstray⟩ :=
        scanPiece_conditional d expand includer u hl hcond ts
      obtain ⟨rfl, rfl⟩ := EStateM.Result.ok.inj (hrun.symm.trans hafter)
      obtain ⟨rfl, hsession⟩ := hstray fault hf hcs
      refine ⟨?_, ⟨hkeeps, hadds.stripped⟩, hsession⟩
      rw [← hcs] at hrun
      exact hrun

/-! ### Open chains -/

theorem report_all (hl : st.Lenient) (diagnostics : List Diagnostic) :
    diagnostics.forM Preprocessing.report st =
      .ok () { st with session := diagnostics.foldl Session.add st.session } := by
  induction diagnostics generalizing st with
  | nil => rfl
  | cons diagnostic diagnostics ih =>
    have hnext : { st with session := st.session.add diagnostic }.Lenient := hl
    exact (Step.bind_of_ok (report_of_lenient hl diagnostic)).trans (ih hnext)

/-- **The chains that a file leaves open** are reported one by one. -/
theorem reportOpenChains_of_represents {done : List Visit} (h : d.Represents done scope)
    (hl : st.Lenient) : ∃ starts : List Nat, starts.Pairwise (· < ·) ∧
      (∀ start, start ∈ starts ↔ ∃ tests, OpenChain (d.stepsOf done) start tests) ∧
      d.reportOpenChains scope.conditions st = .ok () { st with
        session := if d.recording
          then (starts.map d.openChainDiagnostic).foldl Session.add st.session
          else st.session } := by
  obtain ⟨chains, hlists, hframed, horder⟩ := h
  refine ⟨(chains.map (·.1)).reverse, ?_, fun start => ?_, ?_⟩
  · rw [List.pairwise_reverse]
    exact (List.pairwise_cons.mp horder).2
  · rw [List.mem_reverse, List.mem_map]
    constructor
    · rintro ⟨⟨start, tests⟩, hc, rfl⟩
      obtain ⟨inner, hinner⟩ := List.mem_iff_getElem?.mp hc
      exact ⟨tests, inner, (hlists _ _ _).mpr hinner⟩
    · rintro ⟨tests, inner, hc⟩
      exact ⟨_, List.mem_of_getElem? ((hlists _ _ _).mp hc), rfl⟩
  · rw [reportOpenChains]
    cases d.recording with
    | false => rfl
    | true =>
      have hplaces : scope.conditions.reverse.map
        (fun c => DirectiveFault.unterminatedConditional.diagnostic
          ⟨nameText d.file, c.line, c.column⟩) =
          (chains.map (·.1)).reverse.map d.openChainDiagnostic := by
        have := congrArg (List.map fun p : Nat × Nat =>
          DirectiveFault.unterminatedConditional.diagnostic ⟨nameText d.file, p.1, p.2⟩)
          hframed.map_place
        simpa [openChainDiagnostic, Function.comp_def] using this
      rw [if_pos rfl, if_pos rfl, ← hplaces, ← report_all hl, List.forM_eq_forM, List.forM_eq_forM,
        List.forM_map]

end DirectiveText

/-- **Conditional compilation selects at most one branch of each chain.** In a run that does not
stop at errors every piece of a text is visited, and its visit keeps what is promised of it. Where
the delimiter of marks stands in nothing that is preprocessed, delimiters come in pairs before every
piece. A file reports each chain that it leaves open once, in order, behind all that its pieces
report. -/
theorem selects_branches (text : String) (file : Option String) (parent : NodeId)
    (recording : Bool) (includeDirs : List String) (expansions inclusions : Nat)
    (st : PreprocessState) (hl : st.Lenient) :
    let d := DirectiveText.ofText text file parent recording
    let expand := expandWithin expansions
    let includer := includeWithin includeDirs inclusions
    let vs := d.visits expand includer d.pieces {} st
    let last := (vs.getLast?.map (·.after)).getD st
    vs.map (·.piece) = d.pieces ∧
    (∀ i (v : Visit), vs[i]? = some v → v.Compiles d expand includer (vs.take i)) ∧
    (recording = true → Unmarked text.toList → Unmarked (nameText file).toList →
      (∀ dir ∈ includeDirs, Unmarked dir.toList) → st.Unmarked → st.Paired →
      ∀ v ∈ vs, v.before.Paired) ∧
    ∃ starts : List Nat, starts.Pairwise (· < ·) ∧
      (∀ start, start ∈ starts ↔ ∃ tests, OpenChain (d.stepsOf vs) start tests) ∧
      d.scan expand includer st = .ok () { last with
        session := if recording
          then (starts.map d.openChainDiagnostic).foldl Session.add last.session
          else last.session } := by
  intro d expand includer vs last
  obtain ⟨hpieces, hvisits, scope, hfold, hrep, hlast⟩ :=
    DirectiveText.visits_spec (DirectiveText.expanding_expandWithin expansions)
      (DirectiveText.including_includeWithin allows_keepsOpen (fun _ _ _ _ _ => hangs_keepsOpen _ _)
        (fun _ _ ⟨_, h⟩ => h ▸ rfl) includeDirs inclusions) d.pieces hl d.represents_nil rfl
  refine ⟨hpieces, fun i v hv => ?_, fun hr ht hf hdirs hst hp => ?_, ?_⟩
  · obtain ⟨hvl, -, scope', hrun⟩ := hvisits i v hv
    exact DirectiveText.compiles_of_represents hv (fun j u hu => (hvisits j u hu).2.1) hvl hrun
  · exact DirectiveText.even_visits (DirectiveText.unmarked_ofText parent recording ht hf) hr
      (expands_expandWithin expansions) (includes_includeWithin hdirs inclusions) _
      ScanScope.unmarked_empty hst hp
  · obtain ⟨starts, hsorted, hstarts, hreport⟩ :=
      DirectiveText.reportOpenChains_of_represents hrep hlast
    have hscan : d.scan expand includer st = d.reportOpenChains scope.conditions last :=
      Step.bind_of_ok hfold
    exact ⟨starts, hsorted, hstarts, hscan.trans hreport⟩

/-- A chain in which another one stands, and one that is left open. -/
def nestedChains : String :=
  "`ifdef A\n`ifdef A\n`endif\n`elsif B\n`else\n`define C\n`endif\n`ifdef C\n"

theorem selects_branches_nestedChains :
    (PreprocessState.start "test.sv" nestedChains bareSession).Lenient ∧
      let d := DirectiveText.ofText nestedChains (some "test.sv") 1 true
      (d.visits expandText (includeWithin [] 1) d.pieces {}
        (.start "test.sv" nestedChains bareSession)).map (·.piece) = d.pieces :=
  have hl : (PreprocessState.start "test.sv" nestedChains bareSession).Lenient := rfl
  ⟨hl, (selects_branches nestedChains (some "test.sv") 1 true [] maxExpansionDepth 1 _ hl).1⟩

/-- Only the last branch of the outer chain is active, and so is the chain that is left open. -/
example : ((DirectiveText.ofText nestedChains (some "test.sv") 1 true).visits expandText
    (includeWithin [] 1) (DirectiveText.ofText nestedChains (some "test.sv") 1 true).pieces {}
    (.start "test.sv" nestedChains bareSession)).map (·.scope.conditions.active) =
      [true, false, false, false, false, false, false, false, false, true, true, true, true, true,
        true, true] := by
  decide +kernel

/-- A text in which the delimiter of marks stands before a piece that is not active. -/
def strayDelimiter : String := "\u0001\n`ifdef A\n`define B\n`endif\n"

/-- **Where the delimiter stands in a text, marks get into the text without marks**: those of a
definition in inactive text are taken for text. -/
theorem strayDelimiter_marks :
    let d := DirectiveText.ofText strayDelimiter (some "test.sv") 1 true
    ∃ v ∈ d.visits expandText (includeWithin [] 1) d.pieces {}
        (.start "test.sv" strayDelimiter bareSession),
      v.scope.conditions.active = false ∧
      v.piece.kind?.any DirectiveText.isConditional = false ∧
      withoutMarks v.after.text.toList ≠
        withoutMarks v.before.text.toList ++ List.replicate (d.newlinesIn v.piece) '\n' := by
  decide +kernel

end Verilog
