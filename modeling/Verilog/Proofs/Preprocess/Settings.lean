import Verilog.Proofs.Design.Stopping
import Verilog.Proofs.Preprocess.Expansion
import Verilog.Proofs.Syntax.Descriptions

/-!
# Which settings hold on a line

Time scales and the types of undeclared nets are set by directives in active text of a file, and the
settings are kept by the preprocessed lines that these stand on. So what holds on a line is what all
directives on that line and on those before it lead to (`stateAt_preprocessText`), also the ones
that stand further on in the same line.

A design element is recorded with the settings on the line on which its declaration begins
(`snapshots_settings`). They need not be those of the element around it, where directives stand
between the two (`snapshots_ne_scaledClass`).
-/

namespace Verilog

open Preprocessing Step

/-! ### Changes of settings -/

/-- A change of the settings, with the preprocessed line on which it is asked for. -/
structure SettingChange where
  line : Nat
  change : DirectiveState → DirectiveState

namespace SettingChange

/-- The settings behind a change. -/
def apply (settings : DirectiveState) (c : SettingChange) : DirectiveState :=
  { c.change settings with line := c.line }

/-- **The settings that hold on a line** where changes are asked for in such an order: those that
the changes on no later line lead to from the defaults. -/
def settingsAt (cs : List SettingChange) (line : Nat) : DirectiveState :=
  (cs.filter (·.line ≤ line)).foldl apply {}

/-- Adds the settings behind a change to those before it. -/
def record (states : List DirectiveState) (c : SettingChange) : List DirectiveState :=
  states ++ [apply (states.getLast?.getD {}) c]

variable {cs : List SettingChange}

theorem getLast?_foldl_record (cs : List SettingChange) (states : List DirectiveState) :
    (cs.foldl record states).getLast?.getD {} = cs.foldl apply (states.getLast?.getD {}) := by
  induction cs generalizing states with
  | nil => rfl
  | cons c cs ih => rw [List.foldl_cons, List.foldl_cons, ih, record, List.getLast?_concat]; rfl

/-- Where lines do not go back, the last settings stated not after a line are those that all changes
on no later line lead to. -/
theorem holdingAt_foldl_record (h : cs.Pairwise (·.line ≤ ·.line)) (line : Nat) :
    DirectiveState.holdingAt (cs.foldl record []) line = settingsAt cs line := by
  induction cs using List.reverseRecOn with
  | nil => rfl
  | append_singleton cs c ih =>
    obtain ⟨hcs, -, hlast⟩ := List.pairwise_append.mp h
    have hrecord : (cs ++ [c]).foldl record [] =
        cs.foldl record [] ++ [apply (cs.foldl apply {}) c] := by
      rw [List.foldl_append, List.foldl_cons, List.foldl_nil, record, getLast?_foldl_record]
      rfl
    rw [hrecord, DirectiveState.holdingAt, List.reverse_append, List.reverse_singleton,
      List.singleton_append, List.find?_cons, settingsAt, List.filter_append]
    by_cases hle : c.line ≤ line
    · -- the change is the last one, and those before it count too
      have hall : cs.filter (·.line ≤ line) = cs := by
        refine List.filter_eq_self.mpr fun b hb => decide_eq_true ?_
        exact (hlast b hb c (List.mem_singleton_self c)).trans hle
      rw [hall, List.filter_singleton]
      simp [apply, hle, List.foldl_append]
    · have hc : (decide ((apply (cs.foldl apply {}) c).line ≤ line)) = false := decide_eq_false hle
      rw [hc, List.filter_singleton]
      simp only [hle, decide_false, cond_false, List.append_nil]
      exact ih hcs

end SettingChange

/-! ### What visits change -/

namespace DirectiveText

open SettingChange

/-- The time scale that a directive states. -/
def timeScaleOf? (d : DirectiveText) (t : ParseTree) : Option TimeScale :=
  TimeScale.parse? (String.join
    ((t.leaves.drop 1).filterMap fun i => (d.tokens[i]?).map (·.text))).toList

/-- The change of the settings that a directive asks for. -/
def settingChange? (d : DirectiveText) (t : ParseTree) :
    Option (DirectiveState → DirectiveState) :=
  match t.kind? with
  | some .ppTimescaleDirective =>
    (d.timeScaleOf? t).map fun time settings => { settings with time := some time }
  | some .ppDefaultNettypeDirective =>
    (netTypeOf? ((d.macroNameOf t).getD "")).map fun netType settings => { settings with netType }
  | some .ppResetallDirective => some fun _ => {}
  | _ => none

/-- The change that the visit of a piece leads to: in active text of a file, the one that the piece
asks for, on the line that the text written before it has come to. -/
def changeOf? (d : DirectiveText) (v : Visit) : Option SettingChange :=
  if d.recording && v.scope.conditions.active then
    (d.settingChange? v.piece).map (⟨1 + newlines v.before.text.toList, ·⟩)
  else none

end DirectiveText

/-- The changes that visits lead to, in order. -/
def changesOf (visits : List (DirectiveText × Visit)) : List SettingChange :=
  visits.filterMap fun r => r.1.changeOf? r.2

/-- **Do such changes lead from one state to another?** They are recorded behind the others, and are
asked for on lines in between, none of them on one that has been left. -/
structure Changes (st after : PreprocessState) (cs : List SettingChange) : Prop where
  states : after.states.toList = cs.foldl SettingChange.record st.states.toList
  later : st.line ≤ after.line
  within : ∀ c ∈ cs, st.line ≤ c.line ∧ c.line ≤ after.line
  ordered : cs.Pairwise (·.line ≤ ·.line)

namespace Changes

variable {st mid after : PreprocessState} {cs cs' : List SettingChange}

theorem of_eq (h : after.states = st.states) (hlater : st.line ≤ after.line) :
    Changes st after [] := ⟨by rw [h]; rfl, hlater, by simp, .nil⟩

theorem trans (h : Changes st mid cs) (h' : Changes mid after cs') :
    Changes st after (cs ++ cs') where
  states := by rw [h'.states, h.states, List.foldl_append]
  later := h.later.trans h'.later
  within := List.forall_mem_append.mpr
    ⟨fun c hc => ⟨(h.within c hc).1, (h.within c hc).2.trans h'.later⟩,
      fun c hc => ⟨h.later.trans (h'.within c hc).1, (h'.within c hc).2⟩⟩
  ordered := List.pairwise_append.mpr ⟨h.ordered, h'.ordered,
    fun b hb c hc => (h.within b hb).2.trans (h'.within c hc).1⟩

/-- One change, on the line that has been come to. -/
theorem one {f : DirectiveState → DirectiveState} (h : after.states =
      st.states.push { f (st.states.back?.getD {}) with line := st.line })
    (hlater : st.line ≤ after.line) : Changes st after [⟨st.line, f⟩] where
  states := by
    rw [h, Array.toList_push, List.foldl_cons, List.foldl_nil, SettingChange.record,
      Array.getLast?_toList]
    rfl
  later := hlater
  within := List.forall_mem_singleton.mpr ⟨Nat.le_refl _, hlater⟩
  ordered := List.pairwise_singleton _ _

end Changes

namespace DirectiveText

variable {d : DirectiveText} {t : ParseTree} {kind : NodeKind} {includer : Includer}
  {scope scope' : ScanScope} {st after : PreprocessState}

/-! ### Pieces that include no text -/

theorem states_of_ok {α : Type} {P : Diagnostic → Prop} {x : Preprocessing α} {a : α}
    (hx : ReportsOnly P x st) (h : x st = .ok a after) : after.states = st.states := by
  have hs := hx.states
  rwa [h] at hs

/-- Whatever is reported of a token. -/
theorem reportsOnly_of_any (scope : ScanScope) (i : Nat) (st : PreprocessState) :
    ReportsOnly (fun _ => True) (d.copyToken scope i) st :=
  reportsOnly_copyToken scope (fun _ _ _ _ => trivial) st

/-- Evaluating a use changes no settings. -/
theorem states_evaluate (d : DirectiveText) (use : ParseTree) (st : PreprocessState) :
    (Ending.state (d.evaluate expandText use st)).states = st.states := by
  rcases d.reports_evaluate maxExpansionDepth use st with ⟨-, h⟩ | ⟨-, h⟩ <;> exact h.states

theorem settingChange?_eq_none (h : actsInFiles kind = false) (ts : List ParseTree) :
    d.settingChange? (.node kind ts) = none := by
  rw [settingChange?]
  split
  · rename_i hk
    rw [Option.some.inj hk] at h
    cases h
  · rename_i hk
    rw [Option.some.inj hk] at h
    cases h
  · rename_i hk
    rw [Option.some.inj hk] at h
    cases h
  · rfl

/-- What changes the settings asks for a change, or it is reported. -/
theorem setTimeScale_spec (d : DirectiveText) (t : ParseTree) :
    (∃ f, (d.timeScaleOf? t).map (fun time settings => { settings with time := some time }) =
      some f ∧ d.setTimeScale t = d.changeSettings f) ∨
    (d.timeScaleOf? t = none ∧ ∃ fault, d.setTimeScale t = d.report fault t.first?) := by
  unfold setTimeScale timeScaleOf?
  dsimp only
  split
  · rename_i time htime
    exact .inl ⟨_, by rw [htime]; rfl, rfl⟩
  · rename_i htime
    exact .inr ⟨htime, _, rfl⟩

theorem setNetType_spec (d : DirectiveText) (t : ParseTree) :
    (∃ f, (netTypeOf? ((d.macroNameOf t).getD "")).map
        (fun netType (settings : DirectiveState) => { settings with netType }) = some f ∧
      d.setNetType t = d.changeSettings f) ∨
    (netTypeOf? ((d.macroNameOf t).getD "") = none ∧
      ∃ fault, d.setNetType t = d.report fault t.first?) := by
  unfold setNetType
  dsimp only
  split
  · rename_i netType hnet
    exact .inl ⟨_, by rw [hnet]; rfl, rfl⟩
  · rename_i hnet
    exact .inr ⟨hnet, _, rfl⟩

/-- The states behind a change that is asked for, if one is. -/
def statesBehind (change : Option (DirectiveState → DirectiveState)) (st : PreprocessState) :
    Array DirectiveState :=
  match change with
  | none => st.states
  | some f => st.states.push { f (st.states.back?.getD {}) with line := st.line }

theorem cases_of_actsInFiles (h : actsInFiles kind = true) :
    kind = .ppIncludeDirective ∨ kind = .ppTimescaleDirective ∨
      kind = .ppDefaultNettypeDirective ∨ kind = .ppResetallDirective := by
  unfold actsInFiles at h
  split at h
  · exact .inl rfl
  · exact .inr (.inl rfl)
  · exact .inr (.inr (.inl rfl))
  · exact .inr (.inr (.inr rfl))
  · cases h

/-- A directive that changes the settings does so if it asks for a change. -/
theorem states_setting (hr : d.recording = true) (hacts : actsInFiles kind = true)
    (hinclude : kind ≠ .ppIncludeDirective) (hactive : scope.conditions.active = true)
    {expand : Expander} {ts : List ParseTree} {node : NodeId}
    (h : d.doDirective expand includer scope kind (.node kind ts) node st = .ok scope' after) :
    after.states = statesBehind (d.settingChange? (.node kind ts)) st := by
  have hchange {x : Preprocessing Unit} {f : DirectiveState → DirectiveState}
      (hx : x = d.changeSettings f) (h : (do x; return scope) st = .ok scope' after) :
      after.states = statesBehind (some f) st := by
    rw [hx, changeSettings, if_pos hr] at h
    obtain ⟨-, rfl⟩ := EStateM.Result.ok.inj h
    rfl
  have hreport {x : Preprocessing Unit} {fault : DirectiveFault}
      (hx : x = d.report fault (ParseTree.node kind ts).first?)
      (h : (do x; return scope) st = .ok scope' after) : after.states = statesBehind none st := by
    rw [hx] at h
    exact states_of_ok (P := fun _ => True)
      ((reportsOnly_report trivial st).bind fun _ _ _ => .pure _) h
  rcases cases_of_actsInFiles hacts with rfl | rfl | rfl | rfl
  · exact absurd rfl hinclude
  · rw [doDirective, if_neg (by decide), if_pos hactive] at h
    change _ = statesBehind ((d.timeScaleOf? _).map _) st
    rcases d.setTimeScale_spec (.node .ppTimescaleDirective ts) with ⟨f, hf, hrun⟩ | ⟨hf, _, hrun⟩
    · rw [hf]
      exact hchange hrun h
    · rw [hf]
      exact hreport hrun h
  · rw [doDirective, if_neg (by decide), if_pos hactive] at h
    change _ = statesBehind ((netTypeOf? ((d.macroNameOf _).getD "")).map _) st
    rcases d.setNetType_spec (.node .ppDefaultNettypeDirective ts) with
      ⟨f, hf, hrun⟩ | ⟨hf, _, hrun⟩
    · rw [hf]
      exact hchange hrun h
    · rw [hf]
      exact hreport hrun h
  · rw [doDirective, if_neg (by decide), if_pos hactive] at h
    exact hchange rfl h

/-- **A piece that includes no text** leads to the change that it asks for. -/
theorem changes_scanPiece (hr : d.recording = true)
    (hinclude : scope.conditions.active = true → t.kind? ≠ some .ppIncludeDirective)
    (hin : st.InStep) (hlater : st.line ≤ after.line)
    (h : d.scanPiece expandText includer scope t st = .ok scope' after) :
    Changes st after (changesOf [(d, ⟨t, scope, st, after⟩)]) := by
  have hnone (hchange : d.changeOf? ⟨t, scope, st, after⟩ = none)
      (hstates : after.states = st.states) :
      Changes st after (changesOf [(d, ⟨t, scope, st, after⟩)]) := by
    rw [changesOf, List.filterMap_cons, hchange, List.filterMap_nil]
    exact .of_eq hstates hlater
  cases t with
  | leaf i =>
    refine hnone ?_ (states_of_ok ((reportsOnly_of_any scope i st).bind fun _ _ _ => .pure _) h)
    rw [changeOf?, settingChange?]
    split <;> rfl
  | node kind ts =>
    cases hdirective : kind.isDirective with
    | true =>
      rw [scanPiece_directive hr hdirective] at h
      dsimp only at h
      split at h
      · rename_i next mid hdo
        obtain ⟨-, rfl⟩ := EStateM.Result.ok.inj h
        by_cases hacts : scope.conditions.active = true ∧ actsInFiles kind = true
        · -- the settings are changed, or the directive is at fault
          obtain ⟨hactive, hacts⟩ := hacts
          have hstates := states_setting hr hacts
            (fun hk => hinclude hactive (congrArg some hk)) hactive hdo
          cases hchange : d.settingChange? (.node kind ts) with
          | none =>
            rw [hchange] at hstates
            exact hnone (by rw [changeOf?, hr, hactive, hchange]; rfl) hstates
          | some f =>
            rw [hchange] at hstates
            have hone : changesOf [(d, (⟨.node kind ts, scope, st, d.ended true
                (d.record st.nodes d.parent (.node kind ts)).1 (.node kind ts) mid⟩ : Visit))] =
                  [⟨st.line, f⟩] := by
              rw [changesOf, List.filterMap_cons, changeOf?, hr, hactive, hchange, hin]
              rfl
            rw [hone]
            exact .one hstates hlater
        · have hmid : mid.states = (d.begun true (.node kind ts) st).states :=
            states_of_ok (reportsOnly_doDirective (P := fun _ => True) (fun _ _ => trivial)
              (fun hactive hk => absurd ⟨hactive, hk⟩ hacts) _ _) hdo
          refine hnone ?_ hmid
          rw [changeOf?]
          split
          · rename_i hactive
            rw [Bool.and_eq_true] at hactive
            rw [settingChange?_eq_none (by simpa [hactive.2] using hacts)]
            rfl
          · rfl
      · cases h
    | false =>
      have hkind : actsInFiles kind = false := by
        cases kind <;> first | rfl | cases hdirective
      have hchange : d.changeOf? ⟨.node kind ts, scope, st, after⟩ = none := by
        rw [changeOf?, settingChange?_eq_none hkind]
        split <;> rfl
      refine hnone hchange ?_
      cases huse : kind.isMacroUse with
      | true =>
        rw [scanPiece_use hr huse] at h
        dsimp only at h
        split at h
        · rename_i mid hdo
          obtain ⟨-, rfl⟩ := EStateM.Result.ok.inj h
          have hmid : mid.states = (d.begun scope.conditions.active (.node kind ts) st).states := by
            rw [doUse] at hdo
            split at hdo
            · obtain ⟨text, before, heval, hdo⟩ := exists_of_bind hdo
              have hs := d.states_evaluate (.node kind ts)
                (d.begun scope.conditions.active (.node kind ts) st)
              rw [heval] at hs
              refine Eq.trans ?_ hs
              cases text <;> obtain ⟨-, rfl⟩ := EStateM.Result.ok.inj hdo <;> rfl
            · obtain ⟨-, rfl⟩ := EStateM.Result.ok.inj hdo
              rfl
          exact hmid
        · cases h
      | false =>
        refine states_of_ok (P := fun _ => True) ?_ h
        unfold scanPiece
        simp only [hdirective, huse, Bool.false_eq_true, if_false]
        exact (ReportsOnly.forM fun i _ st => reportsOnly_of_any scope i st).bind
          fun _ _ _ => .pure _

/-! ### Pieces that include texts -/

theorem states_includedName {name : Option String}
    (h : d.includedName expandText t st = .ok name after) : after.states = st.states := by
  unfold includedName at h
  cases hstring : t.find? .ppString with
  | some string =>
    rw [hstring] at h
    obtain ⟨-, rfl⟩ := EStateM.Result.ok.inj h
    rfl
  | none =>
    rw [hstring] at h
    dsimp only at h
    cases huse : t.children.find? fun c => c.kind?.any (·.isMacroUse) with
    | some use =>
      rw [huse] at h
      obtain ⟨written, mid, heval, h⟩ := exists_of_bind h
      obtain ⟨-, rfl⟩ := EStateM.Result.ok.inj h
      have hs := d.states_evaluate use st
      rwa [heval] at hs
    | none =>
      rw [huse] at h
      obtain ⟨-, rfl⟩ := EStateM.Result.ok.inj h
      rfl

/-- What refuses to include changes no settings. -/
theorem states_refusing {includeDirs : List String} {r : IncludeRequest} {resolved : Option String}
    (h : refusing includeDirs r st = .ok resolved after) : after.states = st.states := by
  rw [refusing, bind_get] at h
  cases hout : r.outcome includeDirs st with
  | error fault =>
    rw [hout] at h
    exact states_of_ok (P := fun _ => True)
      ((ReportsOnly.report trivial).bind fun _ _ _ => .pure _) h
  | ok x =>
    rw [hout] at h
    obtain ⟨-, rfl⟩ := EStateM.Result.ok.inj h
    rfl

/-- **A directive that includes no text** changes no settings. -/
theorem states_include (hr : d.recording = true) (hactive : scope.conditions.active = true)
    {ts : List ParseTree} (hi : ∀ r st resolved back, includer r st = .ok resolved back →
      back.states = st.states)
    (h : d.scanPiece expandText includer scope (.node .ppIncludeDirective ts) st =
      .ok scope' after) : after.states = st.states := by
  rw [scanPiece_include hr hactive] at h
  dsimp only at h
  have hnamed : ∀ name mid, d.includedName expandText (.node .ppIncludeDirective ts)
      (d.begun true (.node .ppIncludeDirective ts) st) = .ok name mid → mid.states = st.states :=
    fun _ _ h => (states_includedName h :)
  generalize d.includedName expandText (.node .ppIncludeDirective ts) (d.begun true _ st) = r
    at h hnamed
  rcases r with ⟨name | name, mid⟩ | ⟨e, mid⟩
  · obtain ⟨-, rfl⟩ := EStateM.Result.ok.inj h
    exact (hnamed none mid rfl :)
  · dsimp only at h
    split at h
    · cases h
    · rename_i resolved back hback
      obtain ⟨-, rfl⟩ := EStateM.Result.ok.inj h
      exact (hi _ _ _ _ hback).trans (hnamed (some name) mid rfl :)
  · cases h

/-- Reporting that conditionals are open changes no settings. -/
theorem states_reportOpenChains {conditions : Conditionals}
    (h : d.reportOpenChains conditions st = .ok () after) : after.states = st.states := by
  refine states_of_ok (P := fun _ => True) ?_ h
  rw [reportOpenChains]
  split
  · exact ReportsOnly.forM fun _ _ _ => .report trivial
  · exact .pure _

/-- A directive that is to include a file asks for no change. -/
theorem changeOf?_include (h : t.kind? = some .ppIncludeDirective) :
    d.changeOf? ⟨t, scope, st, after⟩ = none := by
  rw [changeOf?, settingChange?, h]
  split <;> rfl

end DirectiveText

/-! ### All texts that are reached -/

theorem changesOf_append (rs rs' : List (DirectiveText × Visit)) :
    changesOf (rs ++ rs') = changesOf rs ++ changesOf rs' := List.filterMap_append

/-- Do the pieces of every text lead to the changes of the visits they lead to, where inclusions
nest so deep? -/
def ChangesAll (includeDirs : List String) (depth : Nat) : Prop :=
  ∀ (d : DirectiveText) {ts : List ParseTree} {scope scope' : ScanScope}
    {st after : PreprocessState}, d.recording = true → st.InStep →
    ts.foldlM (d.scanPiece expandText (includeWithin includeDirs depth)) scope st =
      .ok scope' after →
    Changes st after (changesOf ((d.visits expandText (includeWithin includeDirs depth) ts scope
      st).flatMap (d.reachedBy includeDirs depth)))

section

variable {includeDirs : List String} {depth : Nat} {d d' : DirectiveText} {t : ParseTree}
  {scope scope' : ScanScope} {st inner after : PreprocessState}

theorem lengthens_piece
    (h : d.scanPiece expandText (includeWithin includeDirs depth) scope t st = .ok scope' after) :
    Lengthens st after := by
  have hincludes : Including Session.UpToStopping (fun _ => Lengthens)
      (includeWithin includeDirs depth) :=
    DirectiveText.including_includeWithin allows_lengthens
      (fun _ _ _ _ _ => hangs_lengthens _ _) (fun _ _ ⟨_, h⟩ => h ▸ rfl) _ _
  exact DirectiveText.lengthens_scanPiece hincludes h

/-- **A piece that includes a text** leads to the changes that the text leads to. -/
theorem changes_scanPiece_inclusion (hall : ChangesAll includeDirs depth) (hr : d.recording = true)
    (hin : st.InStep)
    (hinc : d.inclusion? includeDirs ⟨t, scope, st, after⟩ = some (d', inner))
    (h : d.scanPiece expandText (includeWithin includeDirs (depth + 1)) scope t st =
      .ok scope' after) :
    Changes st after (changesOf (d.reachedBy includeDirs (depth + 1) ⟨t, scope, st, after⟩)) := by
  obtain ⟨ts, name, mid, rfl, hactive, hname, hout, hrun⟩ :=
    DirectiveText.scanPiece_of_inclusion hr hinc
  have hquiet : Quiet _ mid := (DirectiveText.composed_includedName (F := Session.UpToStopping)
    (DirectiveText.expanding_expandWithin _)).keeps_of_ok frame_quiet hname
  rw [hrun] at h
  split at h
  · rename_i back hscan
    obtain ⟨-, hafter⟩ := EStateM.Result.ok.inj h
    rw [DirectiveText.reachedBy, hinc, changesOf, List.filterMap_cons,
      DirectiveText.changeOf?_include rfl]
    obtain ⟨text, path, rfl, hinner⟩ := IncludeRequest.exists_of_outcome hout
    obtain ⟨last, behind, hfold, hopen⟩ := DirectiveText.scan_eq_ok hscan
    -- no settings are changed before the text is scanned, nor behind it
    have hbefore : Changes st inner [] := by
      refine .of_eq ?_ ?_
      · rw [hinner]
        exact (DirectiveText.states_includedName hname :)
      · rw [hinner]
        exact hquiet.line.ge.trans (Nat.le_succ _)
    have hchains : Still behind back :=
      (DirectiveText.composed_reportOpenChains (F := Session.UpToStopping) _).keeps_of_ok
        frame_still hopen
    have hback : Changes behind back [] :=
      .of_eq (DirectiveText.states_reportOpenChains hopen) hchains.line.ge
    have hend : Changes back after [] := by
      refine .of_eq ?_ ?_
      · rw [← hafter]
        rfl
      · rw [← hafter]
        exact Nat.le_add_right_of_le (Nat.le_add_right _ _)
    have hasking := DirectiveText.lengthens_asking hquiet
      (d.record st.nodes d.parent (.node .ppIncludeDirective ts)).1 name
    have hinStep : inner.InStep := by
      rw [hinner]
      exact (hasking.inStep hin :)
    have hscanned := hall _ rfl hinStep hfold
    simpa [changesOf] using ((hbefore.trans hscanned).trans hback).trans hend
  · cases h

/-- **A piece of a text**, whether it includes a text or not. -/
theorem changes_piece (hall : ∀ less, depth = less + 1 → ChangesAll includeDirs less)
    (hr : d.recording = true) (hin : st.InStep)
    (h : d.scanPiece expandText (includeWithin includeDirs depth) scope t st = .ok scope' after) :
    Changes st after (changesOf (d.reachedBy includeDirs depth ⟨t, scope, st, after⟩)) := by
  have hlater : st.line ≤ after.line := by
    obtain ⟨s, -, hline⟩ := lengthens_piece h
    omega
  by_cases hk : scope.conditions.active = true ∧ t.kind? = some .ppIncludeDirective
  · obtain ⟨hactive, hk⟩ := hk
    have hone (hstates : after.states = st.states) :
        Changes st after (changesOf [(d, ⟨t, scope, st, after⟩)]) := by
      rw [changesOf, List.filterMap_cons, DirectiveText.changeOf?_include hk, List.filterMap_nil]
      exact .of_eq hstates hlater
    obtain ⟨ts, rfl⟩ := DirectiveText.exists_of_kind hk
    cases depth with
    | zero =>
      refine hone (DirectiveText.states_include hr hactive (fun r st resolved back hrun => ?_) h)
      rw [← (EStateM.Result.ok.inj hrun).2]
    | succ depth =>
      cases hinc : d.inclusion? includeDirs ⟨.node .ppIncludeDirective ts, scope, st, after⟩ with
      | none =>
        rw [DirectiveText.scanPiece_of_no_inclusion hr hinc] at h
        rw [DirectiveText.reachedBy, hinc]
        exact hone (DirectiveText.states_include hr hactive
          (fun _ _ _ _ => DirectiveText.states_refusing) h)
      | some x => exact changes_scanPiece_inclusion (hall depth rfl) hr hin hinc h
  · have hreached : d.reachedBy includeDirs depth ⟨t, scope, st, after⟩ =
        [(d, ⟨t, scope, st, after⟩)] := by
      cases depth with
      | zero => rfl
      | succ depth =>
        have hnone : d.inclusion? includeDirs ⟨t, scope, st, after⟩ = none := by
          rw [DirectiveText.inclusion?, if_neg (by simpa using hk)]
        rw [DirectiveText.reachedBy, hnone]
    rw [hreached]
    exact DirectiveText.changes_scanPiece hr (fun hactive hkind => hk ⟨hactive, hkind⟩) hin hlater h

end

/-- **The pieces of all texts** lead to the changes of their visits, however deep inclusions nest.
-/
theorem changesAll (includeDirs : List String) (depth : Nat) : ChangesAll includeDirs depth := by
  induction depth using Nat.strong_induction_on with
  | _ depth ih =>
    intro d ts scope scope' st after hr hin hrun
    induction ts generalizing scope st with
    | nil =>
      obtain ⟨rfl, rfl⟩ := EStateM.Result.ok.inj hrun
      exact .of_eq rfl (Nat.le_refl _)
    | cons t ts ihts =>
      rw [List.foldlM_cons] at hrun
      obtain ⟨next, mid, hmid, hrest⟩ := exists_of_bind hrun
      rw [DirectiveText.visits, hmid]
      dsimp only
      rw [List.flatMap_cons, changesOf_append]
      exact (changes_piece (fun less hless => ih less (by omega)) hr hin hmid).trans
        (ihts ((lengthens_piece hmid).inStep hin) hrest)

/-! ### A run -/

/-- **Which settings hold on a line of a preprocessed text**: those that the directives lead to
which stand in active text on that line or before it, in the text and in those it includes. -/
theorem stateAt_preprocessText {path text : String} {s s' : Session} {p : PreprocessedText}
    (h : preprocessText path text s = .ok p s') (line : Nat) :
    p.stateAt line = SettingChange.settingsAt (changesOf (reached path text s)) line := by
  obtain ⟨after, hscan, -, rfl⟩ := scanFile_of_preprocessText h
  obtain ⟨scope, mid, hfold, hopen⟩ := DirectiveText.scan_eq_ok hscan
  have hstart : (PreprocessState.start path text s).InStep := rfl
  have hchanges := changesAll s.config.includeDirs (s.files.entries.length + 1) _ rfl hstart hfold
  have hstates := hchanges.states
  rw [← DirectiveText.states_reportOpenChains hopen] at hstates
  change DirectiveState.holdingAt after.states.toList line = _
  rw [hstates]
  exact SettingChange.holdingAt_foldl_record hchanges.ordered line

/-- **Which settings design elements are recorded with**: each with those that the directives lead
to which stand in active text on the line on which its own declaration begins, or before that line,
in the text and in those it includes. -/
theorem snapshots_settings (path text : String) (s : Session) {f : SourceFile} {s' : Session}
    (h : SourceFile.ofText path text s = .ok f s') :
    ∃ p s₀ m, preprocessText path text s = .ok p s₀ ∧ MarkedText.ofText p = .ok m ∧
      f.nodes.snapshots = (SourceGrammar.parse m.tokens.toList).1.elim [] fun tree =>
        snapshotsIn s₀.config.library (tree.snapshots m.tokens (fun t =>
          SettingChange.settingsAt (changesOf (reached path text s)) (m.lineOf t)) none) := by
  obtain ⟨p, s₀, hp, hf⟩ := exists_of_bind h
  obtain ⟨m, hm⟩ := SourceFile.exists_marked hf
  refine ⟨p, s₀, m, hp, hm, ?_⟩
  have hsettings : m.settingsOf = fun t =>
      SettingChange.settingsAt (changesOf (reached path text s)) (m.lineOf t) := by
    funext t
    rw [MarkedText.settingsOf, (MarkedText.ofText_eq hm).1, stateAt_preprocessText hp]
  rw [← hsettings, SourceFile.snapshots_ofPreprocessed hm hf]
  cases (SourceGrammar.parse m.tokens.toList).1 <;> rfl

/-- A class in a module, behind a time scale that is stated in the module. -/
def scaledClass : String := "module m;\n`timescale 1ns/1ps\nclass c; endclass endmodule\n"

theorem snapshots_settings_scaledClass : ∃ f s',
    SourceFile.ofText "test.sv" scaledClass bareSession = .ok f s' ∧
    ∃ p s₀ m, preprocessText "test.sv" scaledClass bareSession = .ok p s₀ ∧
      MarkedText.ofText p = .ok m ∧
      f.nodes.snapshots = (SourceGrammar.parse m.tokens.toList).1.elim [] fun tree =>
        snapshotsIn s₀.config.library (tree.snapshots m.tokens (fun t =>
          SettingChange.settingsAt (changesOf (reached "test.sv" scaledClass bareSession))
            (m.lineOf t)) none) := by
  have h : (preprocessText "test.sv" scaledClass).endsIn readable bareSession = true := by
    decide +kernel
  obtain ⟨f, s', -, -, -, hf, -⟩ := exists_of_readable h
  exact ⟨f, s', hf, snapshots_settings "test.sv" scaledClass bareSession hf⟩

/-- The elements of a file by name, and whether they have a time scale. -/
def SourceFile.scaled (f : SourceFile) : List (Option String × Bool) :=
  f.nodes.snapshots.map fun e => (e.1.2, e.2.1.isSome)

/-- The elements that a marked text declares, and whether they have a time scale where such settings
hold. -/
def scaledIn (text : String) (states : List DirectiveState) : List (String × Bool) :=
  let tokens := SourceToken.ofText text
  let lineOf (t : ParseTree) : Nat := ((t.first?.bind (tokens[·]?)).map (·.line)).getD 1
  (SourceGrammar.parse tokens).1.elim [] fun tree =>
    (tree.snapshots tokens.toArray (fun t => .holdingAt states (lineOf t)) none).map fun e =>
      (e.1.2, e.2.time.isSome)

theorem scaled_ofPreprocessed {p : PreprocessedText} {f : SourceFile} {s s' : Session}
    (hf : SourceFile.ofPreprocessed p s = .ok f s') : f.scaled =
      (scaledIn p.text p.states).map fun e => (some (s.config.library ++ "@" ++ e.1), e.2) := by
  obtain ⟨m, hm⟩ := SourceFile.exists_marked hf
  obtain ⟨htext, htokens, -⟩ := MarkedText.ofText_eq hm
  have hsettings : m.settingsOf = fun t => .holdingAt p.states
      (((t.first?.bind ((SourceToken.ofText p.text)[·]?)).map (·.line)).getD 1) := by
    funext t
    rw [MarkedText.settingsOf, MarkedText.lineOf, htext, htokens]
    simp only [List.getElem?_toArray]
    rfl
  rw [SourceFile.scaled, SourceFile.snapshots_ofPreprocessed hm hf, hsettings, htokens, scaledIn]
  dsimp only
  cases (SourceGrammar.parse (SourceToken.ofText p.text)).1 with
  | none => rfl
  | some tree => simp [snapshotsIn, Function.comp_def]

/-- A text that comes out so, with such settings, has elements with the time scales that it has. -/
theorem exists_scaled (text marked : String) (states : List DirectiveState)
    (h : (preprocessText "test.sv" text).endsIn (fun p s => readable p s &&
      (p.text == marked && p.states == states && s.config.library == "work")) bareSession = true) :
    ∃ f s', SourceFile.ofText "test.sv" text bareSession = .ok f s' ∧
      f.scaled = (scaledIn marked states).map fun e => (some ("work@" ++ e.1), e.2) := by
  obtain ⟨p, s₀, hp, hends⟩ := exists_of_endsIn h
  simp only [Bool.and_eq_true, beq_iff_eq] at hends
  obtain ⟨hread, ⟨rfl, rfl⟩, hlibrary⟩ := hends
  rw [readable, Bool.and_eq_true, Bool.not_eq_true'] at hread
  cases hm : MarkedText.ofText p with
  | error fault => simp [hm, Except.toBool] at hread
  | ok m =>
    obtain ⟨f, s', hf, -⟩ := SourceFile.ofPreprocessed_of_lenient hm hread.2
    refine ⟨f, s', SourceFile.ofText_of_ofPreprocessed hp hf, ?_⟩
    rw [scaled_ofPreprocessed hf, hlibrary]
    rfl

/-- Time in nanoseconds, in steps of picoseconds, from a line on. -/
def nanosecondsFrom (line : Nat) : DirectiveState :=
  { line, time := some ⟨⟨1, .nanosecond⟩, ⟨1, .picosecond⟩⟩ }

/-- A time scale that is stated behind a module, on the same line. -/
def scaledBehind : String := "module m; endmodule `timescale 1ns/1ps\n"

/-- The class in `scaledClass` has the time scale that is stated before it, and the module around it
has none; the module in `scaledBehind` has the one behind it. -/
theorem snapshots_ne_scaledClass :
    (∃ f s', SourceFile.ofText "test.sv" scaledClass bareSession = .ok f s' ∧
      f.scaled = [(some "work@m", false), (some "work@m.c", true)]) ∧
    ∃ f s', SourceFile.ofText "test.sv" scaledBehind bareSession = .ok f s' ∧
      f.scaled = [(some "work@m", true)] := by
  have hnested : scaledIn "module m;\n\x01PPB\x01\x01PPE2\x01\nclass c; endclass endmodule\n"
      [nanosecondsFrom 2] = [("m", false), ("m.c", true)] := by decide +kernel
  have hbehind : scaledIn "module m; endmodule \x01PPB\x01\x01PPE2\x01\n" [nanosecondsFrom 1] =
      [("m", true)] := by decide +kernel
  obtain ⟨f, s', hf, hscaled⟩ := exists_scaled scaledClass
    "module m;\n\x01PPB\x01\x01PPE2\x01\nclass c; endclass endmodule\n" [nanosecondsFrom 2]
    (by decide +kernel)
  obtain ⟨g, r', hg, hscaled'⟩ := exists_scaled scaledBehind
    "module m; endmodule \x01PPB\x01\x01PPE2\x01\n" [nanosecondsFrom 1] (by decide +kernel)
  rw [hnested] at hscaled
  rw [hbehind] at hscaled'
  exact ⟨⟨f, s', hf, hscaled⟩, g, r', hg, hscaled'⟩

end Verilog
