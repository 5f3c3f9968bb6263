import Verilog.Proofs.Location.Mapper
import Verilog.Proofs.Preprocess.Layout

/-!
# Lines say where they come from

A text may ask for its own line and file. What it is told is reckoned by the scan, from the line of
the token and the last line directive of the text; where a line comes from is kept in the sections
of the line map, which are reckoned in lines that come out. The two go along (`Tracks`): a line that
comes out of a text comes from the line that the scan reckons, a piece takes both on by the same
number of lines, and so does an inclusion, within which the text of the file goes along with
sections of its own. What is added later leaves the lines so far where they came from (`Later`), so
what was told is what the map says in the end (`tells_origins`).

This holds of what stands in a text itself. The text of a macro is scanned with lines of its own,
which are those of no file; so neither may a macro state lines, nor is what it tells said here.
-/

namespace Verilog

open Preprocessing Step

/-! ### What comes later -/

namespace Preprocessing

/-- Is something added to the text, and the line taken along? -/
def Lengthens (before after : PreprocessState) : Prop :=
  ∃ s, after.text.toList = before.text.toList ++ s ∧ after.line = before.line + newlines s

theorem Lengthens.of_eq {before after : PreprocessState} (ht : after.text = before.text)
    (hl : after.line = before.line) : Lengthens before after :=
  ⟨[], by simp [ht], by simp [hl, newlines]⟩

theorem Lengthens.trans {before mid after : PreprocessState} (h : Lengthens before mid)
    (h' : Lengthens mid after) : Lengthens before after := by
  obtain ⟨s, ht, hl⟩ := h
  obtain ⟨t, ht', hl'⟩ := h'
  exact ⟨s ++ t, by rw [ht', ht, List.append_assoc],
    by rw [hl', hl, newlines_append, Nat.add_assoc]⟩

theorem Lengthens.inStep {before after : PreprocessState} (h : Lengthens before after)
    (hb : before.InStep) : after.InStep := by
  obtain ⟨s, ht, hl⟩ := h
  rw [PreprocessState.InStep] at *
  rw [ht, hl, hb, newlines_append, Nat.add_assoc]

theorem Lengthens.line_le {before after : PreprocessState} (h : Lengthens before after) :
    before.line ≤ after.line := by
  obtain ⟨s, -, hl⟩ := h
  omega

theorem allows_lengthens : Allows fun _ => Lengthens where
  frame _ := {
    refl := fun _ => .of_eq rfl rfl
    trans := .trans
    session := fun _ _ => .of_eq rfl rfl }
  quiet h := .of_eq h.text h.line
  write _ s st := ⟨s.toList, by simp [written], rfl⟩
  inside _ _ _ _ h := h

theorem hangs_lengthens (d : DirectiveText) (t : ParseTree) : Hangs (fun _ => Lengthens) d t :=
  .of_blind (allows_lengthens.frame 0) (fun _ _ => .of_eq rfl rfl) d t

end Preprocessing

/-- Has a line been begun: is it over, or does something stand in it? -/
def PreprocessState.Begun (st : PreprocessState) (l : Nat) : Prop :=
  l < st.line ∨ l = st.line ∧ st.text.toList.getLast? ≠ some '\n'

theorem PreprocessState.Begun.of_lengthens {st after : PreprocessState} {l : Nat}
    (h : st.Begun l) (hl : Lengthens st after) : after.Begun l := by
  obtain ⟨s, ht, hline⟩ := hl
  obtain hlt | ⟨rfl, hlast⟩ := h
  · exact .inl (by omega)
  · by_cases hone : newlines s = 0
    · -- no line is begun by what is added, so it does not end in a line feed
      refine .inr ⟨by omega, ?_⟩
      rw [ht, List.getLast?_append]
      cases hs : s.getLast? with
      | none => exact hlast
      | some c =>
        intro hc
        obtain rfl : c = '\n' := Option.some.inj hc
        exact List.count_eq_zero.mp hone (List.mem_of_getLast? hs)
    · exact .inl (by omega)

namespace Preprocessing

/-- **Is something added, and do the lines that have been begun come from where they came from?** -/
structure Later (before after : PreprocessState) : Prop where
  lengthens : Lengthens before after
  origin : ∀ l, before.Begun l → after.lines.origin l = before.lines.origin l

theorem Later.of_eq {before after : PreprocessState} (h : Lengthens before after)
    (hl : after.lines = before.lines) : Later before after :=
  ⟨h, fun _ _ => by rw [hl]⟩

theorem Later.trans {before mid after : PreprocessState} (h : Later before mid)
    (h' : Later mid after) : Later before after :=
  ⟨h.lengthens.trans h'.lengthens, fun l hl =>
    (h'.origin l (hl.of_lengthens h.lengthens)).trans (h.origin l hl)⟩

/-- A section that starts in a line that has not been begun. -/
theorem Later.push {before after : PreprocessState} {s : LineSection} (h : Lengthens before after)
    (hl : after.lines = before.lines.push s) (hs : ∀ l, before.Begun l → l < s.start) :
    Later before after :=
  ⟨h, fun l hb => by rw [hl, LineMap.origin_push_of_lt (hs l hb)]⟩

theorem frame_still : Frame Still where
  refl _ := ⟨frame_quiet.refl _, rfl⟩
  trans h h' := ⟨frame_quiet.trans h.toQuiet h'.toQuiet, h'.lines.trans h.lines⟩
  session st s := ⟨frame_quiet.session st s, rfl⟩

/-- Are the origins of lines the same? -/
def SameOrigins (before after : PreprocessState) : Prop := after.lines = before.lines

theorem frame_sameOrigins : Frame SameOrigins where
  refl _ := rfl
  trans h h' := h'.trans h
  session _ _ := rfl

end Preprocessing

/-! ### Sections -/

namespace PreprocessState

/-- **Do the sections fit the text so far?** They are in order, and start in lines so far or in the
next one: then a directive stands in this one. -/
structure Sectioned (st : PreprocessState) : Prop where
  sorted : st.lines.Sorted
  start_le : ∀ s ∈ st.lines.sections, s.start ≤ st.line + 1
  begun : ∀ s ∈ st.lines.sections, st.line < s.start → st.Begun st.line

/-- Has every section been reached, and do they name lines? -/
def Settled (st : PreprocessState) : Prop :=
  ∀ s ∈ st.lines.sections, s.start ≤ st.line ∧ 0 < s.line

instance (st : PreprocessState) : Decidable st.Settled := by
  unfold Settled
  infer_instance

variable {st after : PreprocessState}

theorem Sectioned.of_lengthens (h : st.Sectioned) (hl : Lengthens st after)
    (hlines : after.lines = st.lines) : after.Sectioned := by
  have hline := hl.line_le
  refine ⟨hlines ▸ h.sorted, fun t ht => ?_, fun t ht hlt => ?_⟩
  · have := h.start_le t (hlines ▸ ht)
    omega
  · -- a section of the next line is one that was so before, and the line is the same
    rw [hlines] at ht
    have hle := h.start_le t ht
    have hbegun := (h.begun t ht (by omega)).of_lengthens hl
    rwa [show after.line = st.line by omega]

/-- Sections of lines that are reached. -/
theorem Sectioned.of_reached (hs : st.lines.Sorted)
    (h : ∀ s ∈ st.lines.sections, s.start ≤ st.line) : st.Sectioned :=
  ⟨hs, fun s hm => Nat.le_succ_of_le (h s hm), fun s hm hlt => absurd (h s hm) (by omega)⟩

end PreprocessState

namespace ScanScope

/-- The file that the lines of a text count as. -/
def fileOf (scope : ScanScope) (file : Option String) : Option String :=
  (scope.origin.map (·.1)).getD file

/-- What is added to the lines of a text. -/
def shift (scope : ScanScope) : Int := (scope.origin.map (·.2)).getD 0

variable {scope : ScanScope}

theorem fst_sourcePlace (scope : ScanScope) (file : Option String) (line : Nat) :
    (scope.sourcePlace file line).1 = scope.fileOf file := by
  rw [sourcePlace, fileOf]
  cases scope.origin <;> rfl

theorem snd_sourcePlace (scope : ScanScope) (file : Option String) {line : Nat}
    (h : 1 ≤ line + scope.shift) :
    ((scope.sourcePlace file line).2 : Int) = (line + scope.shift) % 4294967296 := by
  rw [sourcePlace]
  rw [shift] at *
  cases horigin : scope.origin with
  | none => simp [wrapLine]
  | some origin =>
    rw [horigin] at h
    have h : 1 ≤ (line : Int) + origin.2 := h
    change ((wrapLine (max 1 (line + origin.2)).toNat : Nat) : Int) =
      (line + origin.2) % 4294967296
    rw [wrapLine]
    omega

end ScanScope

/-- **Does a line of a text come out where the scan of the text reckons it?** The lines that come
out from here on, as far as no section starts later, come from those lines of the text, in 32 bits,
and are lines if sections name lines. -/
structure Tracks (d : DirectiveText) (scope : ScanScope) (st : PreprocessState) (line : Nat) :
    Prop where
  sectioned : st.Sectioned
  origin : ∀ j, (∀ s ∈ st.lines.sections, s.start ≤ st.line + j) →
    (st.lines.origin (st.line + j)).1 = scope.fileOf d.file ∧
    ((st.lines.origin (st.line + j)).2 : Int) = (line + j + scope.shift) % 4294967296
  one_le : ∀ j, (∀ s ∈ st.lines.sections, s.start ≤ st.line + j ∧ 0 < s.line) →
    1 ≤ line + j + scope.shift

namespace Tracks

variable {d : DirectiveText} {scope scope' : ScanScope} {st after : PreprocessState} {line n : Nat}

/-- So many lines later the text is so many lines on, if no section is started. -/
theorem on (h : Tracks d scope st line) (hl : Lengthens st after) (hline : after.line = st.line + n)
    (hlines : after.lines = st.lines) (hscope : scope'.origin = scope.origin) :
    Tracks d scope' after (line + n) := by
  refine ⟨h.sectioned.of_lengthens hl hlines, fun j hj => ?_, fun j hj => ?_⟩
  all_goals
    rw [hlines, hline, Nat.add_assoc] at *
    rw [ScanScope.shift, hscope, ← ScanScope.shift]
  · have hhere := h.origin (n + j) hj
    rw [ScanScope.fileOf, hscope, ← ScanScope.fileOf]
    exact ⟨hhere.1, by rw [hhere.2]; push_cast; omega⟩
  · have hhere := h.one_le (n + j) hj
    omega

/-- In lines that are settled, what the scan reckons is a line. -/
theorem one_le_of_settled (h : Tracks d scope st line) (hs : st.Settled) :
    1 ≤ line + scope.shift := by
  have hhere := h.one_le 0 hs
  omega

/-- **Where the lines are settled, the map says what the scan reckons.** -/
theorem origin_eq (h : Tracks d scope st line) (hs : st.Settled) :
    st.lines.origin st.line = scope.sourcePlace d.file line := by
  obtain ⟨hfile, hline⟩ := h.origin 0 fun s hm => (hs s hm).1
  have hplace := scope.snd_sourcePlace d.file (h.one_le_of_settled hs)
  rw [Nat.add_zero] at hfile hline
  refine Prod.ext (hfile.trans (scope.fst_sourcePlace d.file line).symm) ?_
  omega

end Tracks

/-! ### Where pieces stand -/

namespace DirectiveText

variable {d : DirectiveText} {t : ParseTree} {expand : Expander} {includer : Includer}
  {scope scope' : ScanScope} {st mid after : PreprocessState} {line : Nat}

/-- A piece that is on one line begins and ends there. -/
theorem line_of_piece {text : String} (hd : d.tokens.toList = DirectiveToken.ofText text)
    {before taken rest : List DirectiveToken}
    (htokens : d.tokens.toList = before ++ (taken ++ rest))
    (hpiece : DirectiveGrammar.Piece before taken t) (hone : d.newlinesIn t = 0) :
    (d.rangeOf t).line = 1 + newlines (Token.textOf before) ∧
      (d.rangeOf t).endLine = 1 + newlines (Token.textOf before) := by
  rw [newlinesIn_of_piece hd htokens hpiece] at hone
  have hleaf : ∀ i ∈ t.leaves, ∃ token, d.tokens[i]? = some token ∧
      token.line = 1 + newlines (Token.textOf before) ∧
      token.endLine = 1 + newlines (Token.textOf before) := by
    intro i hi
    have hsub := hpiece.leaves.sublist.subset hi
    rw [DirectiveGrammar.map_fst_numbered, List.mem_range'_1] at hsub
    obtain ⟨k, rfl⟩ := Nat.exists_eq_add_of_le hsub.1
    have hk : k < taken.length := by omega
    have hsplit : taken = taken.take k ++ taken[k] :: taken.drop (k + 1) := by
      rw [List.getElem_cons_drop, List.take_append_drop]
    have hcut : DirectiveKind.lexicon.tokens text =
        (before ++ taken.take k) ++ taken[k] :: (taken.drop (k + 1) ++ rest) := by
      rw [← DirectiveToken.ofText, ← hd, htokens, List.append_assoc, ← List.cons_append,
        ← List.append_assoc (taken.take k), ← hsplit]
    have hplaced := Lexicon.eq_placed hcut
    -- what stands before the token in the piece, and the token itself, are on one line
    rw [hsplit, Token.textOf_append, Token.textOf_cons, newlines_append, newlines_append] at hone
    refine ⟨taken[k], ?_, ?_, ?_⟩
    · rw [← Array.getElem?_toList, htokens, List.getElem?_append_right (Nat.le_add_right _ _),
        Nat.add_sub_cancel_left, List.getElem?_append_left hk, List.getElem?_eq_getElem hk]
    · rw [hplaced, Token.placed]
      dsimp only
      rw [Position.line_advanceBy, Token.textOf_append, newlines_append]
      change 1 + _ = _
      omega
    · rw [hplaced, Token.placed]
      dsimp only
      rw [Position.line_advanceBy, Position.line_advanceBy, Token.textOf_append, newlines_append]
      change 1 + _ + _ = _
      omega
  have hlast : t.leaves.getLast? = some (before.length + taken.length - 1) :=
    t.last?_eq.symm.trans hpiece.last
  obtain ⟨first, hfirst⟩ : ∃ first, t.leaves.head? = some first := by
    cases hleaves : t.leaves with
    | nil => simp [hleaves] at hlast
    | cons i is => exact ⟨i, rfl⟩
  obtain ⟨u, hu, huline, -⟩ := hleaf first (List.mem_of_head? hfirst)
  obtain ⟨v, hv, -, hvline⟩ := hleaf _ (List.mem_of_getLast? hlast)
  rw [rangeOf, t.first?_eq, t.last?_eq, hfirst, hlast]
  simp only [Option.bind_some, hu, hv]
  exact ⟨huline, hvline⟩

/-! ### Pieces -/

theorem exists_of_kind {kind : NodeKind} (h : t.kind? = some kind) : ∃ ts, t = .node kind ts := by
  cases t with
  | leaf i => cases h
  | node k ts => exact ⟨ts, by rw [Option.some.inj h]⟩

/-- Does a directive state a place, tell one, or go on elsewhere? -/
def placing : NodeKind → Bool
  | .ppLineDirective | .ppIncludeDirective | .ppSvFileDirective | .ppSvLineDirective => true
  | _ => false

/-- The sections behind the name of a file that is included; it may be given by a macro. -/
def linesBehindName (d : DirectiveText) (v : Visit) : LineMap :=
  (Ending.state (d.includedName expandText v.piece (d.begun true v.piece v.before))).lines

/-- **Is a visit one whose lines are reckoned alike** by the scan and by the line map? Files are
named on one line. The text of a macro states no lines. A directive that has to do with places is on
one line, and where it tells the place or goes on elsewhere the lines are settled: its line is not
that of a line directive, and no line is said to be line zero. -/
structure Reckoned (d : DirectiveText) (v : Visit) : Prop where
  oneLine : d.OnOneLine v.scope
  used : v.scope.conditions.active = true → v.piece.kind?.any (·.isMacroUse) →
    v.after.lines = v.before.lines
  named : v.scope.conditions.active = true → v.piece.kind? = some .ppIncludeDirective →
    d.linesBehindName v = v.before.lines
  straight : v.scope.conditions.active = true → v.piece.kind?.any placing → d.newlinesIn v.piece = 0
  settled : v.scope.conditions.active = true →
    v.piece.kind?.any (fun kind => placing kind && kind != .ppLineDirective) → v.before.Settled

instance (d : DirectiveText) (v : Visit) : Decidable (d.Reckoned v) :=
  decidable_of_iff (d.OnOneLine v.scope ∧ _ ∧ _ ∧ _ ∧ _)
    ⟨fun h => ⟨h.1, h.2.1, h.2.2.1, h.2.2.2.1, h.2.2.2.2⟩,
      fun h => ⟨h.oneLine, h.used, h.named, h.straight, h.settled⟩⟩

/-- Only a line directive changes what the scan reckons. -/
theorem keepsOrigin_scanPiece
    (hk : scope.conditions.active = true → t.kind? ≠ some .ppLineDirective) :
    Gives (fun scope' => scope'.origin = scope.origin) (d.scanPiece expand includer scope t) := by
  cases t with
  | leaf i => exact .andThen fun _ => .pure rfl
  | node kind ts =>
    unfold scanPiece
    dsimp only
    split
    · rw [scanDirective_eq]
      refine .andThen fun node => .bind ?_ fun scope' hs => .andThen fun _ => .pure hs
      rw [doDirective]
      split
      · exact .andThen fun _ => .pure rfl
      · split
        · rename_i hactive
          have hline : kind ≠ .ppLineDirective := fun h => hk hactive (congrArg some h)
          unfold act
          split
          · exact .andThen fun _ => .pure rfl
          · exact .andThen fun _ => .pure rfl
          · exact .andThen fun _ => .pure rfl
          · exact absurd rfl hline
          · exact .andThen fun _ => .pure rfl
          · exact .andThen fun _ => .pure rfl
          · exact .andThen fun _ => .pure rfl
          · exact .andThen fun _ => .pure rfl
          · exact .andThen fun _ => .pure rfl
          · dsimp only
            split
            · exact .andThen fun _ => .pure rfl
            · exact .pure rfl
        · exact .pure rfl
    · split
      · exact .andThen fun _ => .pure rfl
      · exact .andThen fun _ => .pure rfl

/-- A directive that neither states lines nor goes on elsewhere starts no section. -/
theorem sameOrigins_doDirective {F : Session → Session → Prop} {kind : NodeKind}
    (hk : scope.conditions.active = true → kind ≠ .ppLineDirective ∧ kind ≠ .ppIncludeDirective)
    (node : NodeId) :
    Composed F SameOrigins (d.doDirective expand includer scope kind t node) := by
  rw [doDirective]
  split
  · exact ((composed_stepConditions _ _).mono fun _ _ h => h.lines).bind fun _ => .pure _
  · split
    · rename_i hactive
      obtain ⟨hline, hinclude⟩ := hk hactive
      exact composed_act (fun h => h.lines) (fun h => absurd h hline) (fun h => absurd h hinclude)
        (fun _ => rfl) fun _ _ => rfl
    · exact .pure _

/-- **Other pieces start no sections**, if what a macro use stands for does not. -/
theorem lines_scanPiece (hr : d.recording = true) (hk : scope.conditions.active = true →
      t.kind? ≠ some .ppLineDirective ∧ t.kind? ≠ some .ppIncludeDirective)
    (huse : scope.conditions.active = true → t.kind?.any (·.isMacroUse) → after.lines = st.lines)
    (h : d.scanPiece expand includer scope t st = .ok scope' after) : after.lines = st.lines := by
  have hkeeps {α : Type} {x : Preprocessing α} {a : α} {st mid : PreprocessState}
      (hx : Composed Session.UpToStopping SameOrigins x) (h : x st = .ok a mid) :
      mid.lines = st.lines := hx.keeps_of_ok frame_sameOrigins h
  have hcopy (i : Nat) : Composed Session.UpToStopping SameOrigins (d.copyToken scope i) :=
    composed_copyToken (fun _ _ => rfl) scope i
  cases t with
  | leaf i => exact hkeeps ((hcopy i).bind fun _ => .pure _) h
  | node kind ts =>
    cases hdirective : kind.isDirective with
    | true =>
      rw [scanPiece_directive hr hdirective] at h
      dsimp only at h
      split at h
      · rename_i hdo
        obtain ⟨-, rfl⟩ := EStateM.Result.ok.inj h
        have hmid := hkeeps (sameOrigins_doDirective (fun hactive =>
          ⟨fun hkind => (hk hactive).1 (congrArg some hkind),
            fun hkind => (hk hactive).2 (congrArg some hkind)⟩) _) hdo
        exact hmid
      · cases h
    | false =>
      cases hkind : kind.isMacroUse with
      | true =>
        cases hactive : scope.conditions.active with
        | true => exact huse hactive hkind
        | false =>
          rw [scanPiece_use hr hkind, hactive] at h
          obtain ⟨-, rfl⟩ := EStateM.Result.ok.inj h
          rfl
      | false =>
        refine hkeeps ?_ h
        unfold scanPiece
        simp only [hdirective, hkind, Bool.false_eq_true, if_false]
        exact (Composed.forM fun i _ => hcopy i).bind fun _ => .pure _

/-! ### Line directives -/

/-- What a line directive does: it is reported, or starts a section in the next line. -/
theorem exists_of_renumber (h : d.renumber scope t st = .ok scope' mid) :
    (scope' = scope ∧ mid.lines = st.lines) ∨ ∃ file : String, ∃ target : Nat,
      scope'.origin = some (some file, (target : Int) - ((d.rangeOf t).endLine + 1)) ∧
      mid.lines = st.lines.push ⟨st.line + 1, some file, target⟩ := by
  have hreport {fault : DirectiveFault} {token : Option Nat}
      (h : (do d.report fault token; return scope : Preprocessing ScanScope) st = .ok scope' mid) :
      scope' = scope ∧ mid.lines = st.lines := by
    obtain ⟨u, next, hnext, h⟩ := exists_of_bind h
    obtain ⟨rfl, rfl⟩ := EStateM.Result.ok.inj h
    have hreported : Composed Session.UpToStopping SameOrigins (d.report fault token) :=
      composed_report _ _
    exact ⟨rfl, hreported.keeps_of_ok frame_sameOrigins hnext⟩
  unfold renumber at h
  generalize (t.children.filter (·.isNode .ppNumber)).map _ = numbers, t.find? .ppString = path at h
  split at h
  · split at h
    · exact .inl (hreport h)
    · obtain ⟨rfl, rfl⟩ := EStateM.Result.ok.inj h
      exact .inr ⟨_, _, rfl, rfl⟩
  · exact .inl (hreport h)

/-- A piece adds to the text. -/
theorem lengthens_scanPiece
    (hi : Including Session.UpToStopping (fun _ => Lengthens) includer)
    (h : d.scanPiece expandText includer scope t st = .ok scope' after) : Lengthens st after := by
  have hexpands : Expanding Session.UpToStopping expandText := expanding_expandWithin _
  exact (composed_scanPiece allows_lengthens (fun _ => hangs_lengthens d t)
    hexpands hi scope).keeps_of_ok (allows_lengthens.frame d.parent) h

/-- Behind a directive something stands in its line. -/
theorem begun_ended (node : NodeId) (hone : d.newlinesIn t = 0) :
    (d.ended true node t st).Begun (d.ended true node t st).line := by
  refine .inr ⟨rfl, ?_⟩
  simp [ended, hone, endMark]
  decide

/-- **A line directive** leaves lines where they are reckoned. -/
theorem tracks_scanPiece_line (hr : d.recording = true) (hactive : scope.conditions.active = true)
    {ts : List ParseTree} (hst : Tracks d scope st line)
    (hone : d.newlinesIn (.node .ppLineDirective ts) = 0)
    (hend : (d.rangeOf (.node .ppLineDirective ts)).endLine = line)
    (hlengthens : Lengthens st after)
    (h : d.scanPiece expand includer scope (.node .ppLineDirective ts) st = .ok scope' after) :
    Tracks d scope' after line ∧ Later st after := by
  rw [scanPiece_directive hr rfl] at h
  dsimp only at h
  split at h
  · rename_i mid hdo
    obtain ⟨rfl, hafter⟩ := EStateM.Result.ok.inj h
    rw [doDirective, if_neg (by decide), if_pos hactive] at hdo
    have hrenumber : d.renumber scope (.node .ppLineDirective ts)
        (d.begun true (.node .ppLineDirective ts) st) = _ := hdo
    have hquiet : Quiet _ _ :=
      (composed_renumber (F := Session.UpToStopping) scope).keeps_of_ok frame_quiet hrenumber
    have hline : after.line = st.line := by
      rw [← hafter, ended, hone]
      exact hquiet.line
    have hmid : after.lines = mid.lines := by
      rw [← hafter]
      rfl
    obtain ⟨rfl, hlines⟩ | ⟨file, target, hscope, hlines⟩ := exists_of_renumber hrenumber
    · have hsame : after.lines = st.lines := hmid.trans hlines
      exact ⟨hst.on (n := 0) hlengthens hline hsame rfl, .of_eq hlengthens hsame⟩
    · have hpush : after.lines = st.lines.push ⟨st.line + 1, some file, target⟩ :=
        hmid.trans hlines
      have hbehind {j : Nat} (hj : ∀ s ∈ after.lines.sections, s.start ≤ after.line + j) :
          st.line + 1 ≤ after.line + j :=
        -- no line from here on comes before the section
        hj _ (by rw [hpush]; exact LineMap.mem_insert_self _ _)
      refine ⟨⟨⟨?_, fun s hs => ?_, fun _ _ _ => ?_⟩, fun j hj => ?_, fun j hj => ?_⟩,
        .push hlengthens hpush fun l hl => ?_⟩
      · rw [hpush]
        exact hst.sectioned.sorted.push _
      · rw [hline]
        obtain rfl | hs := LineMap.mem_insert (hpush ▸ hs)
        · exact Nat.le_refl _
        · exact hst.sectioned.start_le s hs
      · exact hafter ▸ begun_ended _ hone
      · have hle := hbehind hj
        rw [hpush, LineMap.origin_push_of_le hst.sectioned.sorted hst.sectioned.start_le hle,
          ScanScope.fileOf, ScanScope.shift, hscope]
        refine ⟨rfl, ?_⟩
        change ((wrapLine (target + (after.line + j - (st.line + 1))) : Nat) : Int) =
          (line + j + (target - _)) % 4294967296
        rw [hend, wrapLine]
        omega
      · have hle := hbehind fun s hs => (hj s hs).1
        have htarget : 0 < target :=
          (hj _ (by rw [hpush]; exact LineMap.mem_insert_self _ _)).2
        rw [ScanScope.shift, hscope]
        change 1 ≤ (line : Int) + j + (target - _)
        rw [hend]
        omega
      · obtain hlt | ⟨rfl, -⟩ := hl
        · exact Nat.lt_succ_of_lt hlt
        · exact Nat.lt_succ_self _
  · cases h

/-! ### Inclusions -/

/-- When an inclusion is over, its lines are whole lines: those with sections have been reached. -/
theorem resumed_reached (scope : ScanScope) (t : ParseTree) {back : PreprocessState}
    (hback : back.Sectioned) (edge : Nat) (resolved : Option String) :
    let next := d.resumed scope t edge resolved back
    Lengthens back next ∧ (∀ s ∈ back.lines.sections, s.start ≤ next.line) ∧
      ∀ l, back.Begun l → l < next.line := by
  intro next
  have hlengthens : Lengthens back next := ⟨_, String.toList_append, rfl⟩
  have hline : next.line = back.line + newlines (missingFeed back.text).toList := rfl
  refine ⟨hlengthens, fun s hs => ?_, fun l hl => ?_⟩
  · have hle := hback.start_le s hs
    by_cases hlast : back.text.toList.getLast? = some '\n'
    · -- no section is of a line that has not been begun
      by_contra hgt
      obtain hlt | ⟨-, hne⟩ := hback.begun s hs (by omega)
      · exact Nat.lt_irrefl _ hlt
      · exact hne hlast
    · rw [missingFeed, if_neg (mt endsWith_newline.mp hlast)] at hline
      exact hline ▸ hle
  · obtain hlt | ⟨rfl, hne⟩ := hl
    · exact Nat.lt_of_lt_of_le hlt hlengthens.line_le
    · rw [missingFeed, if_neg (mt endsWith_newline.mp hne)] at hline
      exact hline ▸ Nat.lt_succ_self _

/-- An inclusion begins on a line of its own. -/
theorem lengthens_asking (hmid : Quiet (d.begun true t st) mid) (node : NodeId) (name : String) :
    Lengthens st (d.asking t node name mid) := by
  refine ⟨beginMark ++ ['\n'], by simp [asking, hmid.text, begun], ?_⟩
  have hmark : newlines (beginMark ++ ['\n']) = 1 := by decide
  rw [hmark]
  exact congrArg (· + 1) hmid.line

/-- **An inclusion**, however the included text is scanned, leaves lines where they are reckoned. -/
theorem tracks_included (edge : Nat) (resolved : Option String) (hst : Tracks d scope st line)
    (hset : st.Settled) (hone : d.newlinesIn t = 0)
    (hend : (d.rangeOf t).endLine = line) {back : PreprocessState} {name : String} {node : NodeId}
    (hmid : Quiet (d.begun true t st) mid) (hlines : mid.lines = st.lines)
    (hback : back.Sectioned) (hlater : Later (d.asking t node name mid) back) :
    let after := d.ended true node t (d.resumed scope t edge resolved back)
    Tracks d scope after line ∧ Later st after ∧ Later back after := by
  intro after
  let next := d.resumed scope t edge resolved back
  obtain ⟨hnext, hreached, hbegun⟩ :=
    d.resumed_reached scope t hback edge resolved
  have hplace := scope.fst_sourcePlace d.file (d.rangeOf t).endLine
  have hone_le := hst.one_le_of_settled hset
  have hnumber := scope.snd_sourcePlace d.file (hend ▸ hone_le)
  have hline : after.line = next.line := by
    change next.line + d.newlinesIn t = _
    rw [hone, Nat.add_zero]
  have hpush : after.lines = back.lines.push
      ⟨next.line, (scope.sourcePlace d.file (d.rangeOf t).endLine).1,
        (scope.sourcePlace d.file (d.rangeOf t).endLine).2⟩ := rfl
  have hasking : Lengthens st (d.asking t node name mid) := lengthens_asking hmid node name
  have hended : Lengthens next after := by
    refine ⟨endMark node, ?_, ?_⟩
    · simp [after, ended, hone, next]
    · rw [hline, newlines_endMark, Nat.add_zero]
  have hbehind : Later back after := (Later.push hnext rfl hbegun).trans (.of_eq hended rfl)
  refine ⟨⟨.of_reached ?_ fun s hs => ?_, fun j _ => ?_, fun j _ => by omega⟩,
    (Later.of_eq hasking hlines).trans (hlater.trans hbehind), hbehind⟩
  · rw [hpush]
    exact hback.sorted.push _
  · rw [hline]
    obtain rfl | hs := LineMap.mem_insert (hpush ▸ hs)
    · exact Nat.le_refl _
    · exact hreached s hs
  · rw [hpush, hline, LineMap.origin_push_of_le hback.sorted hreached (Nat.le_add_right _ _)]
    refine ⟨hplace, ?_⟩
    dsimp only
    rw [Nat.add_sub_cancel_left, wrapLine]
    rw [hend] at hnumber ⊢
    omega

/-! ### What is told -/

/-- What a predefined text tells of a place. -/
def toldOf (kind : NodeKind) (place : Option String × Nat) : String :=
  if kind = .ppSvFileDirective then "\"" ++ nameText place.1 ++ "\"" else toString place.2

/-- **Does a text tell what the line map says?** If the visit is that of an active use of a
predefined text, then behind what came before there stands, between marks, the file or line that the
line comes from. -/
def Tells (final : PreprocessState) (v : Visit) : Prop :=
  v.scope.conditions.active = true → ∀ kind, v.piece.kind? = some kind →
    kind = .ppSvFileDirective ∨ kind = .ppSvLineDirective →
    let line := 1 + newlines v.before.text.toList
    final.Begun line ∧ ∃ node rest, final.text.toList = v.before.text.toList ++
      (beginMark ++ (toldOf kind (final.lines.origin line)).toList ++ endMark node ++ rest)

theorem Tells.mono {before final : PreprocessState} {v : Visit} (h : Tells before v)
    (hl : Later before final) : Tells final v := by
  intro hactive kind hkind htold
  obtain ⟨hbegun, node, rest, htext⟩ := h hactive kind hkind htold
  obtain ⟨s, hs, -⟩ := hl.lengthens
  refine ⟨hbegun.of_lengthens hl.lengthens, node, rest ++ s, ?_⟩
  rw [hs, htext, hl.origin _ hbegun]
  simp

/-- **A use of a predefined text tells where its line comes from.** -/
theorem tells_scanPiece (hr : d.recording = true) (hst : Tracks d scope st line)
    (hset : st.Settled) (hin : st.InStep) (hone : d.newlinesIn t = 0)
    (hline : (d.rangeOf t).line = line)
    (h : d.scanPiece expand includer scope t st = .ok scope' after)
    (hlines : after.lines = st.lines) : Tells after ⟨t, scope, st, after⟩ := by
  intro hactive kind hkind htold
  dsimp only at hactive hkind ⊢
  cases t with
  | leaf i => cases hkind
  | node k ts =>
    obtain rfl : k = kind := Option.some.inj hkind
    have horigin : st.lines.origin st.line = scope.sourcePlace d.file
      (d.rangeOf (.node k ts)).line :=
      hline ▸ hst.origin_eq hset
    have hdo (node : NodeId) (st : PreprocessState) :
        d.doDirective expand includer scope k (.node k ts) node st =
          .ok scope (written (toldOf k
            (scope.sourcePlace d.file (d.rangeOf (.node k ts)).line)) st) := by
      obtain rfl | rfl := htold
      · rw [doDirective, if_neg (by decide), if_pos hactive, toldOf, if_pos rfl,
          scope.fst_sourcePlace, ← scope.fst_sourcePlace d.file 0]
        rfl
      · rw [doDirective, if_neg (by decide), if_pos hactive, toldOf, if_neg (by decide)]
        rfl
    have hdirective : k.isDirective = true := by
      obtain rfl | rfl := htold <;> rfl
    rw [scanPiece_directive hr hdirective] at h
    dsimp only at h
    rw [hdo] at h
    obtain ⟨-, hafter⟩ := EStateM.Result.ok.inj h
    have hhere : 1 + newlines st.text.toList = st.line := Eq.symm hin
    have hbegun : after.Begun after.line := hafter ▸ begun_ended _ hone
    have hle : st.line ≤ after.line := by
      rw [← hafter]
      exact Nat.le_trans (Nat.le_add_right _ _) (Nat.le_add_right _ _)
    rw [hhere, hlines, horigin]
    refine ⟨?_, (d.record st.nodes d.parent (.node k ts)).1, [], ?_⟩
    · obtain hlt | heq := Nat.lt_or_eq_of_le hle
      · exact .inl hlt
      · exact heq ▸ hbegun
    · simp [← hafter, ended, written, begun, hone]

/-- A piece that is not a use of a predefined text tells nothing. -/
theorem tells_of_other {final : PreprocessState} {v : Visit} (h : v.scope.conditions.active = true →
      v.piece.kind? ≠ some .ppSvFileDirective ∧ v.piece.kind? ≠ some .ppSvLineDirective) :
    Tells final v := by
  intro hactive kind hkind htold
  obtain rfl | rfl := htold
  · exact absurd hkind (h hactive).1
  · exact absurd hkind (h hactive).2

/-- Where a file is asked for, all lines with sections have been reached. -/
theorem asking_reached (hst : st.Sectioned) (hmid : Quiet (d.begun true t st) mid)
    (hlines : mid.lines = st.lines) (node : NodeId) (name : String) :
    (d.asking t node name mid).Sectioned ∧
      ∀ s ∈ (d.asking t node name mid).lines.sections,
        s.start ≤ (d.asking t node name mid).line := by
  have hasking : (d.asking t node name mid).lines = st.lines := hlines
  have hreached : ∀ s ∈ (d.asking t node name mid).lines.sections,
      s.start ≤ (d.asking t node name mid).line := by
    intro s hs
    have hline : (d.asking t node name mid).line = st.line + 1 := congrArg (· + 1) hmid.line
    rw [hline]
    exact hst.start_le s (hasking ▸ hs)
  exact ⟨.of_reached (hasking ▸ hst.sorted) hreached, hreached⟩

/-- **An include directive that includes no text** leaves lines where they are reckoned. -/
theorem tracks_scanPiece_include (hr : d.recording = true)
    (hactive : scope.conditions.active = true) {ts : List ParseTree} (hst : Tracks d scope st line)
    (hset : st.Settled) (hone : d.newlinesIn (.node .ppIncludeDirective ts) = 0)
    (hend : (d.rangeOf (.node .ppIncludeDirective ts)).endLine = line)
    (hnamed : d.linesBehindName ⟨.node .ppIncludeDirective ts, scope, st, after⟩ = st.lines)
    (hi : ∀ r st resolved back, includer r st = .ok resolved back → Still st back)
    (hlengthens : Lengthens st after)
    (h : d.scanPiece expandText includer scope (.node .ppIncludeDirective ts) st =
      .ok scope' after) : Tracks d scope' after line ∧ Later st after := by
  have hexpands : Expanding Session.UpToStopping expandText := expanding_expandWithin _
  have hquiet := (composed_includedName (d := d) (t := .node .ppIncludeDirective ts)
    hexpands).keeps frame_quiet (d.begun true (.node .ppIncludeDirective ts) st)
  rw [linesBehindName] at hnamed
  rw [scanPiece_include hr hactive] at h
  dsimp only at hnamed h
  generalize d.includedName expandText (.node .ppIncludeDirective ts) (d.begun true _ st) = r
    at h hnamed hquiet
  rcases r with ⟨name | name, mid⟩ | ⟨e, mid⟩
  · -- no file is asked for
    obtain ⟨rfl, hafter⟩ := EStateM.Result.ok.inj h
    have hlines : after.lines = st.lines := hafter ▸ hnamed
    refine ⟨hst.on (n := 0) hlengthens ?_ hlines rfl, .of_eq hlengthens hlines⟩
    rw [← hafter, ended, hone]
    exact hquiet.line
  · dsimp only at h
    split at h
    · cases h
    · rename_i resolved back hback
      obtain ⟨rfl, rfl⟩ := EStateM.Result.ok.inj h
      have hstill := hi _ _ _ _ hback
      have hadded := Lengthens.of_eq hstill.text hstill.line
      have hasking := (asking_reached hst.sectioned hquiet hnamed
        (d.record st.nodes d.parent (.node .ppIncludeDirective ts)).1 name).1
      obtain ⟨htracks, hlater, -⟩ := tracks_included mid.includes.size resolved hst hset hone hend
        hquiet hnamed (hasking.of_lengthens hadded hstill.lines) (.of_eq hadded hstill.lines)
      exact ⟨htracks, hlater⟩
  · cases h

/-- **A piece that includes no text** leaves lines where they are reckoned, and tells where its line
comes from. -/
theorem tracks_scanPiece (hc : d.Continues) (hr : d.recording = true)
    (hi : ∀ r st resolved back, includer r st = .ok resolved back → Still st back)
    (hst : Tracks d scope st line) (hin : st.InStep)
    (hline : d.newlinesIn t = 0 → (d.rangeOf t).line = line ∧ (d.rangeOf t).endLine = line)
    (hv : d.Reckoned ⟨t, scope, st, after⟩) (hlengthens : Lengthens st after)
    (h : d.scanPiece expandText includer scope t st = .ok scope' after) :
    Tracks d scope' after (line + d.newlinesIn t) ∧ Later st after ∧
      Tells after ⟨t, scope, st, after⟩ := by
  have hexpands : Expanding Session.UpToStopping expandText := expanding_expandWithin _
  by_cases hstates : scope.conditions.active = true ∧ t.kind? = some .ppLineDirective
  · obtain ⟨hactive, hkind⟩ := hstates
    have hone : d.newlinesIn t = 0 := hv.straight hactive (by rw [hkind]; rfl)
    rw [hone]
    obtain ⟨ts, rfl⟩ := exists_of_kind hkind
    obtain ⟨htracks, hlater⟩ :=
      tracks_scanPiece_line hr hactive hst hone (hline hone).2 hlengthens h
    exact ⟨htracks, hlater, tells_of_other fun _ => by simp [ParseTree.kind?]⟩
  by_cases hincludes : scope.conditions.active = true ∧ t.kind? = some .ppIncludeDirective
  · obtain ⟨hactive, hkind⟩ := hincludes
    have hone : d.newlinesIn t = 0 := hv.straight hactive (by rw [hkind]; rfl)
    have hset : st.Settled := hv.settled hactive (by rw [hkind]; rfl)
    have hnamed := hv.named hactive hkind
    rw [hone]
    obtain ⟨ts, rfl⟩ := exists_of_kind hkind
    obtain ⟨htracks, hlater⟩ := tracks_scanPiece_include hr hactive hst hset hone
      (hline hone).2 hnamed hi hlengthens h
    exact ⟨htracks, hlater, tells_of_other fun _ => by simp [ParseTree.kind?]⟩
  -- otherwise the lines go on, and no section is started
  have hfeeds := feeds_scanPiece hc hexpands hv.oneLine
    (fun hactive hkind => hincludes ⟨hactive, hkind⟩) st scope' after h
  have hlines := lines_scanPiece hr (fun hactive => ⟨fun hkind => hstates ⟨hactive, hkind⟩,
    fun hkind => hincludes ⟨hactive, hkind⟩⟩) hv.used h
  have hscope := keepsOrigin_scanPiece (fun hactive hkind => hstates ⟨hactive, hkind⟩) _ _ _ h
  have hon : after.line = st.line + d.newlinesIn t := by
    obtain ⟨s, hs, hline⟩ := hlengthens
    rw [hs, newlines_append] at hfeeds
    omega
  refine ⟨hst.on hlengthens hon hlines hscope, .of_eq hlengthens hlines, ?_⟩
  by_cases htold : scope.conditions.active = true ∧
      (t.kind? = some .ppSvFileDirective ∨ t.kind? = some .ppSvLineDirective)
  · obtain ⟨hactive, hkind⟩ := htold
    have hone : d.newlinesIn t = 0 := hv.straight hactive (by
      obtain hkind | hkind := hkind <;> simp [hkind, placing])
    have hset : st.Settled := hv.settled hactive (by
      obtain hkind | hkind := hkind <;> simp [hkind, placing])
    exact tells_scanPiece hr hst hset hin hone (hline hone).1 h hlines
  · exact tells_of_other fun hactive =>
      ⟨fun hkind => htold ⟨hactive, .inl hkind⟩, fun hkind => htold ⟨hactive, .inr hkind⟩⟩

/-! ### All texts that are reached -/

/-- The visits that a visit leads to, with the texts they are visits of: itself, and those of the
pieces of the text that it includes, where inclusions nest so deep. -/
def reachedBy (includeDirs : List String) : Nat → DirectiveText → Visit →
    List (DirectiveText × Visit)
  | 0, d, v => [(d, v)]
  | depth + 1, d, v => (d, v) :: match d.inclusion? includeDirs v with
    | none => []
    | some (d', st) =>
      (d'.visits expandText (includeWithin includeDirs depth) d'.pieces {} st).flatMap
        (reachedBy includeDirs depth d')

/-- What refuses to include leaves the text and the lines alone. -/
theorem still_of_refusing {includeDirs : List String} {r : IncludeRequest}
    {back : PreprocessState} {resolved : Option String}
    (h : refusing includeDirs r st = .ok resolved back) : Still st back := by
  rw [refusing, bind_get] at h
  cases hout : r.outcome includeDirs st with
  | error fault =>
    rw [hout] at h
    have hrefuse : Composed Session.UpToStopping Still (r.refuse fault) :=
      (Preprocessing.composed_report _).bind fun _ => .pure _
    exact hrefuse.keeps_of_ok frame_still h
  | ok x =>
    rw [hout] at h
    obtain ⟨-, rfl⟩ := EStateM.Result.ok.inj h
    exact frame_still.refl st

end DirectiveText

/-- Do the lines of every text go along whose inclusions nest so deep? -/
def TracksAll (includeDirs : List String) (depth : Nat) : Prop :=
  ∀ (text : String) (file : Option String) (parent : NodeId) {before rest : List DirectiveToken}
    {ts : List ParseTree} {scope scope' : ScanScope} {st after : PreprocessState},
    let d := DirectiveText.ofText text file parent true
    let vs := d.visits expandText (includeWithin includeDirs depth) ts scope st
    let reached := vs.flatMap (d.reachedBy includeDirs depth)
    DirectiveGrammar.Tiles before ts rest → DirectiveToken.ofText text = before ++ rest →
    Tracks d scope st (1 + newlines (Token.textOf before)) → st.InStep →
    ts.foldlM (d.scanPiece expandText (includeWithin includeDirs depth)) scope st =
      .ok scope' after →
    (∀ r ∈ reached, r.1.Reckoned r.2) →
    after.Sectioned ∧ Later st after ∧ ∀ r ∈ reached, DirectiveText.Tells after r.2

section

variable {includeDirs : List String} {depth : Nat} {d d' : DirectiveText} {t : ParseTree}
  {scope scope' : ScanScope} {st inner after : PreprocessState} {line : Nat}

/-- The text that is included, and the state in which its scan begins. -/
theorem IncludeRequest.exists_of_outcome {r : IncludeRequest}
    (h : r.outcome includeDirs st = .ok (d', inner)) : ∃ text path,
      d' = .ofText text (some path) r.node true ∧ inner = { st with
        lines := st.lines.push ⟨st.line, some path, 1⟩, including := path :: st.including } := by
  rw [outcome] at h
  split at h
  · cases h
  · split at h
    · cases h
    · split at h
      · cases h
      · obtain ⟨rfl, rfl⟩ := Prod.mk.inj (Except.ok.inj h)
        exact ⟨_, _, rfl, rfl⟩

/-- **An inclusion begins** with the first line of the included text, in a line of its own. -/
theorem tracks_inner {r : IncludeRequest} (hsorted : st.lines.Sorted)
    (hreached : ∀ s ∈ st.lines.sections, s.start ≤ st.line)
    (hfeed : st.text.toList.getLast? = some '\n')
    (h : r.outcome includeDirs st = .ok (d', inner)) :
    Tracks d' {} inner 1 ∧ Later st inner := by
  obtain ⟨text, path, rfl, rfl⟩ := IncludeRequest.exists_of_outcome h
  refine ⟨⟨.of_reached (hsorted.push _) fun s hs => ?_, fun j _ => ?_, fun j _ => ?_⟩,
    .push (.of_eq rfl rfl) rfl fun l hl => ?_⟩
  · obtain rfl | hs := LineMap.mem_insert hs
    · exact Nat.le_refl _
    · exact hreached s hs
  · dsimp only
    rw [LineMap.origin_push_of_le hsorted hreached (Nat.le_add_right _ _)]
    refine ⟨rfl, ?_⟩
    dsimp only
    rw [Nat.add_sub_cancel_left, ScanScope.shift]
    simp [wrapLine]
  · change (1 : Int) ≤ 1 + j + 0
    omega
  · exact hl.resolve_right fun h => h.2 hfeed

/-- **A piece that includes a text** leaves lines where they are reckoned, and what is told in the
text is what the line map says. -/
theorem tracks_scanPiece_inclusion (hall : TracksAll includeDirs depth) (hr : d.recording = true)
    (hst : Tracks d scope st line) (hin : st.InStep)
    (hinc : d.inclusion? includeDirs ⟨t, scope, st, after⟩ = some (d', inner))
    (hline : d.newlinesIn t = 0 → (d.rangeOf t).line = line ∧ (d.rangeOf t).endLine = line)
    (hreckoned : ∀ r ∈ d.reachedBy includeDirs (depth + 1) ⟨t, scope, st, after⟩,
      r.1.Reckoned r.2)
    (h : d.scanPiece expandText (includeWithin includeDirs (depth + 1)) scope t st =
      .ok scope' after) :
    Tracks d scope' after (line + d.newlinesIn t) ∧ Later st after ∧
      ∀ r ∈ d.reachedBy includeDirs (depth + 1) ⟨t, scope, st, after⟩,
        DirectiveText.Tells after r.2 := by
  have hexpands : Expanding Session.UpToStopping expandText :=
    DirectiveText.expanding_expandWithin _
  obtain ⟨ts, name, mid, rfl, hactive, hname, hout, hrun⟩ :=
    DirectiveText.scanPiece_of_inclusion hr hinc
  rw [DirectiveText.reachedBy, hinc, List.forall_mem_cons] at hreckoned
  obtain ⟨hv, hreckoned⟩ := hreckoned
  have hone : d.newlinesIn (.node .ppIncludeDirective ts) = 0 := hv.straight hactive rfl
  have hset : st.Settled := hv.settled hactive rfl
  rw [hone]
  have hnamed : mid.lines = st.lines := by
    have := hv.named hactive rfl
    rwa [DirectiveText.linesBehindName, hname] at this
  have hquiet : Quiet _ mid :=
    (DirectiveText.composed_includedName hexpands).keeps_of_ok frame_quiet hname
  rw [hrun] at h
  split at h
  · rename_i back hscan
    obtain ⟨rfl, hafter⟩ := EStateM.Result.ok.inj h
    obtain ⟨hasking, hreached⟩ := DirectiveText.asking_reached hst.sectioned hquiet hnamed
      (d.record st.nodes d.parent (.node .ppIncludeDirective ts)).1 name
    obtain ⟨hinner, hbegin⟩ := tracks_inner hasking.sorted hreached
      (by simp [DirectiveText.asking]) hout
    have hinStep : inner.InStep :=
      hbegin.lengthens.inStep ((DirectiveText.lengthens_asking hquiet _ name).inStep hin)
    -- the included text is scanned to its end
    obtain ⟨text, path, rfl, -⟩ := IncludeRequest.exists_of_outcome hout
    have htokens : (DirectiveText.ofText text (some path)
        (d.record st.nodes d.parent (.node .ppIncludeDirective ts)).1 true).tokens.toList =
        DirectiveToken.ofText text := by simp [DirectiveText.ofText]
    obtain ⟨last, behind, hfold, hopen⟩ := DirectiveText.scan_eq_ok hscan
    obtain ⟨hbehind, hscanned, htells⟩ := hall text (some path) _
      (DirectiveGrammar.tiles_parse _) htokens.symm hinner hinStep hfold hreckoned
    have hchains : Still behind back :=
      (DirectiveText.composed_reportOpenChains (F := Session.UpToStopping) _).keeps_of_ok
        frame_still hopen
    let restored : PreprocessState := { back with including := mid.including }
    have hrestored : Lengthens behind restored := .of_eq hchains.text hchains.line
    have hover : Later behind restored := .of_eq hrestored hchains.lines
    obtain ⟨htracks, hlater, hend⟩ := DirectiveText.tracks_included mid.includes.size
      (some path) hst hset hone (hline hone).2 hquiet hnamed
      (hbehind.of_lengthens hrestored hchains.lines) (hbegin.trans (hscanned.trans hover))
    refine ⟨hafter ▸ htracks, hafter ▸ hlater, ?_⟩
    rw [DirectiveText.reachedBy, hinc, List.forall_mem_cons]
    exact ⟨DirectiveText.tells_of_other fun _ => by simp [ParseTree.kind?],
      fun r hr => (htells r hr).mono (hover.trans (hafter ▸ hend))⟩
  · cases h

/-- **A piece of a text**, whether it includes a text or not. -/
theorem tracks_piece (hall : ∀ less, depth = less + 1 → TracksAll includeDirs less)
    (hc : d.Continues) (hr : d.recording = true) (hst : Tracks d scope st line) (hin : st.InStep)
    (hline : d.newlinesIn t = 0 → (d.rangeOf t).line = line ∧ (d.rangeOf t).endLine = line)
    (hreckoned : ∀ r ∈ d.reachedBy includeDirs depth ⟨t, scope, st, after⟩, r.1.Reckoned r.2)
    (h : d.scanPiece expandText (includeWithin includeDirs depth) scope t st = .ok scope' after) :
    Tracks d scope' after (line + d.newlinesIn t) ∧ Later st after ∧
      ∀ r ∈ d.reachedBy includeDirs depth ⟨t, scope, st, after⟩, DirectiveText.Tells after r.2 := by
  have hincludes : Including Session.UpToStopping (fun _ => Lengthens)
      (includeWithin includeDirs depth) :=
    DirectiveText.including_includeWithin allows_lengthens
      (fun _ _ _ _ _ => hangs_lengthens _ _) (fun _ _ ⟨_, h⟩ => h ▸ rfl) _ _
  have hlengthens := DirectiveText.lengthens_scanPiece hincludes h
  cases depth with
  | zero =>
    have hv : d.Reckoned ⟨t, scope, st, after⟩ := hreckoned (d, _) List.mem_cons_self
    obtain ⟨htracks, hlater, htells⟩ := DirectiveText.tracks_scanPiece hc hr
      (fun r st resolved back hrun => (EStateM.Result.ok.inj hrun).2 ▸ frame_still.refl st)
      hst hin hline hv hlengthens h
    exact ⟨htracks, hlater, List.forall_mem_singleton.mpr htells⟩
  | succ depth =>
    have hv : d.Reckoned ⟨t, scope, st, after⟩ := hreckoned (d, _) List.mem_cons_self
    cases hinc : d.inclusion? includeDirs ⟨t, scope, st, after⟩ with
    | none =>
      rw [DirectiveText.scanPiece_of_no_inclusion hr hinc] at h
      obtain ⟨htracks, hlater, htells⟩ := DirectiveText.tracks_scanPiece hc hr
        (fun _ _ _ _ => DirectiveText.still_of_refusing) hst hin hline hv hlengthens h
      rw [DirectiveText.reachedBy, hinc]
      exact ⟨htracks, hlater, List.forall_mem_singleton.mpr htells⟩
    | some x =>
      exact tracks_scanPiece_inclusion (hall depth rfl) hr hst hin hinc hline hreckoned h

end

/-- **The lines of all texts go along**, however deep inclusions nest. -/
theorem tracksAll (includeDirs : List String) (depth : Nat) : TracksAll includeDirs depth := by
  induction depth using Nat.strong_induction_on with
  | _ depth ih =>
    intro text file parent before rest ts scope scope' st after d vs reached htiles htext hst hin
      hrun hreckoned
    -- the induction is on the pieces, each of which goes on from the line behind those before it
    induction htiles generalizing scope st with
    | nil before =>
      obtain ⟨rfl, rfl⟩ := EStateM.Result.ok.inj hrun
      exact ⟨hst.sectioned,
        .of_eq (.of_eq rfl rfl) rfl, by simp [reached, vs, DirectiveText.visits]⟩
    | @cons before taken rest t ts hpiece _ ihts =>
      have htokens : d.tokens.toList = before ++ (taken ++ rest) := by
        simpa [d, DirectiveText.ofText] using htext
      have hd : d.tokens.toList = DirectiveToken.ofText text := by simp [d, DirectiveText.ofText]
      rw [List.foldlM_cons] at hrun
      obtain ⟨next, mid, hmid, hrest⟩ := exists_of_bind hrun
      have hvs : vs = ⟨t, scope, st, mid⟩ ::
          d.visits expandText (includeWithin includeDirs depth) ts next mid := by
        simp only [vs, DirectiveText.visits]
        rw [hmid]
      simp only [reached, hvs, List.flatMap_cons, List.forall_mem_append] at hreckoned ⊢
      obtain ⟨hpart, hparts⟩ := hreckoned
      obtain ⟨htracks, hlater, htells⟩ := tracks_piece
        (fun less hless => ih less (by omega)) (DirectiveText.continues_ofText text _ _ _) rfl hst
        hin (DirectiveText.line_of_piece hd htokens hpiece) hpart hmid
      have hline : 1 + newlines (Token.textOf before) + d.newlinesIn t =
          1 + newlines (Token.textOf (before ++ taken)) := by
        rw [DirectiveText.newlinesIn_of_piece hd htokens hpiece, Token.textOf_append,
          newlines_append, Nat.add_assoc]
      obtain ⟨hsectioned, hlaters, hmore⟩ := ihts (by simpa using htext) (hline ▸ htracks)
        (hlater.lengthens.inStep hin) hrest hparts
      exact ⟨hsectioned, hlater.trans hlaters, fun r hr => (htells r hr).mono hlaters, hmore⟩

/-! ### A run -/

/-- The visits of all pieces of a text and of the texts it includes, with the texts they are visits
of. -/
def reached (path text : String) (s : Session) : List (DirectiveText × Visit) :=
  (mainVisits path text s).flatMap ((DirectiveText.ofText text (some path) 1 true).reachedBy
    s.config.includeDirs (s.files.entries.length + 1))

/-- **A text tells what the line map says.** If the lines of all pieces that are reached are
reckoned alike, then each of the two predefined texts that stands in active text, in the main text
or in one that is included at whatever depth, tells the file or the line which the line map in the
end gives for the line it comes out in. All pieces of the main text are visited. -/
theorem tells_origins (path text : String) (s : Session) {p : PreprocessedText} {s' : Session}
    (h : preprocessText path text s = .ok p s')
    (hall : ∀ r ∈ reached path text s, r.1.Reckoned r.2) :
    (mainVisits path text s).map (·.piece) = (DirectiveText.ofText text (some path) 1 true).pieces ∧
    ∀ r ∈ reached path text s, r.2.scope.conditions.active = true →
      ∀ kind, r.2.piece.kind? = some kind →
        kind = .ppSvFileDirective ∨ kind = .ppSvLineDirective →
        let line := 1 + newlines r.2.before.text.toList
        ∃ node rest, p.text.toList = r.2.before.text.toList ++ (beginMark ++
          (DirectiveText.toldOf kind (p.lines.origin line)).toList ++ endMark node ++ rest) := by
  obtain ⟨after, hscan, -, rfl⟩ := scanFile_of_preprocessText h
  obtain ⟨scope, mid, hfold, hopen⟩ := DirectiveText.scan_eq_ok hscan
  have hstart : Tracks (.ofText text (some path) 1 true) {} (.start path text s) 1 := by
    refine ⟨.of_reached (LineMap.sorted_ofFile _) fun t ht => ?_, fun j _ => ?_, fun j _ => ?_⟩
    · obtain rfl := List.mem_singleton.mp ht
      exact Nat.le_refl _
    · have horigin : (LineMap.ofFile (some path)).origin (1 + j) = (some path, wrapLine (1 + j)) :=
        LineMap.origin_ofFile _ (by omega)
      change ((LineMap.ofFile (some path)).origin (1 + j)).1 = _ ∧
        (((LineMap.ofFile (some path)).origin (1 + j)).2 : Int) = _
      rw [horigin, ScanScope.fileOf, ScanScope.shift]
      exact ⟨rfl, by simp [wrapLine]⟩
    · change (1 : Int) ≤ 1 + j + 0
      omega
  have htokens : (DirectiveText.ofText text (some path) 1 true).tokens.toList =
      DirectiveToken.ofText text := by simp [DirectiveText.ofText]
  obtain ⟨-, -, htells⟩ := tracksAll s.config.includeDirs (s.files.entries.length + 1) text
    (some path) 1 (DirectiveGrammar.tiles_parse _) htokens.symm hstart rfl hfold hall
  have hchains : Still mid after :=
    (DirectiveText.composed_reportOpenChains (F := Session.UpToStopping) _).keeps_of_ok
      frame_still hopen
  refine ⟨DirectiveText.map_piece_visits hfold, fun r hr hactive kind hkind htold => ?_⟩
  obtain ⟨-, node, rest, htext⟩ := htells r hr hactive kind hkind htold
  exact ⟨node, rest, by rw [hchains.text, hchains.lines, htext]⟩

/-- A file that tells its name and its lines. -/
def linedSession : Session :=
  .start {} (FileStore.empty.insert "a.svh" "`__FILE__\n`__LINE__\n".toUTF8)

/-- A text that includes this file, and has lines that count as those of another one. -/
def linedText : String := "`include \"a.svh\"\n`__LINE__\n`line 7 \"x.v\" 0\n`__FILE__ `__LINE__\n"

theorem tells_origins_linedText :
    (∀ r ∈ reached "test.sv" linedText linedSession, r.1.Reckoned r.2) ∧
    ∃ p s', preprocessText "test.sv" linedText linedSession = .ok p s' ∧
      p.stripped = "\n\"a.svh\"\n2\n\n2\n\n\"x.v\" 7\n" ∧
      ∀ r ∈ reached "test.sv" linedText linedSession, r.2.scope.conditions.active = true →
        ∀ kind, r.2.piece.kind? = some kind →
          kind = .ppSvFileDirective ∨ kind = .ppSvLineDirective →
          let line := 1 + newlines r.2.before.text.toList
          ∃ node rest, p.text.toList = r.2.before.text.toList ++ (beginMark ++
            (DirectiveText.toldOf kind (p.lines.origin line)).toList ++ endMark node ++ rest) := by
  have hall : ∀ r ∈ reached "test.sv" linedText linedSession, r.1.Reckoned r.2 := by
    decide +kernel
  obtain ⟨p, s', hpre, htest⟩ := exists_of_preprocessesIn linedSession linedText
    (fun p => decide (p.stripped = "\n\"a.svh\"\n2\n\n2\n\n\"x.v\" 7\n"))
    (by decide +kernel)
  have htells := (tells_origins "test.sv" linedText linedSession hpre hall).2
  exact ⟨hall, p, s', hpre, of_decide_eq_true htest, htells⟩

end Verilog
