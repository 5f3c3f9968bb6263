import Verilog.Proofs.Directive.Definition
import Verilog.Proofs.Preprocess.Textual

/-!
# Macros that are there from the start

A macro that a text is preprocessed with from the start might as well be defined on a line before
the text: up to the line, the same is written, the same is reported and the same macros are in force
in the end (`seeds_as_defined`). The two tables of macros are not the same: on the line a blank
before the text belongs to the body of the macro. But the two bodies cannot be told apart
(`alike_definitionOf`), and behind the line the two runs go abreast.

The line is a piece of text, though, and where the texts hold the delimiter of marks themselves, or
include the log of messages, it shows in what is written (`seeded_apart`).
-/

namespace Verilog

open Preprocessing Step

/-! ### The line -/

namespace DirectiveText

variable {d : DirectiveText} {t : ParseTree} {name value text : String} {st : PreprocessState}

/-- A macro is defined whose name is neither reserved nor in use. -/
theorem define_eq (hname : d.macroNameOf t = some name) (hreserved : name ∉ reservedMacroNames)
    (hfree : st.macros.get? name = none) (node : NodeId) :
    d.define node t st =
      .ok () { st with macros := st.macros.define (d.definitionOf name node t) } := by
  have hlook : ((st.macros.get? name).any (redefines · (d.definitionOf name node t))) = false := by
    rw [hfree, Option.any_none]
  rw [define, hname]
  dsimp only
  rw [if_neg (by simpa using hreserved), bind_eq]
  change (if (st.macros.get? name).any _ = true then _ else _ : Preprocessing Unit) st = _
  rw [hlook]
  rfl

/-- **The line defines the macro** and writes nothing but marks and a line feed. -/
theorem exists_of_definitionLine (expand : Expander) (includer : Includer) (st : PreprocessState)
    (hd : ∀ i, d.sign? i = (signs (definitionLine name value ++ text))[i]?)
    (hr : d.recording = true) (hname : isWord name.toList = true)
    (hreserved : name ∉ reservedMacroNames) (hvalue : OnLine value.toList)
    (hfree : st.macros.get? name = none) :
    ∃ node after, [firstDefinition value, .leaf (moreInBody value + 4)].foldlM
        (d.scanPiece expand includer) {} st = .ok {} after ∧
      after.text.toList = st.text.toList ++ (beginMark ++ (endMark node ++ ['\n'])) ∧
      after.macros = st.macros.define (d.definitionOf name node (firstDefinition value)) ∧
      after.session = st.session ∧ after.expanding = st.expanding ∧
      after.including = st.including := by
  set t := firstDefinition value with ht
  have hline : d.newlinesIn t = 0 := newlinesIn_firstDefinition hd hname hvalue
  have hdefine (st : PreprocessState) (hfree : st.macros.get? name = none) (node : NodeId) :
      d.doDirective expand includer {} .ppSimpleNoArgsMacroDefinition t node st =
        .ok {} { st with macros := st.macros.define (d.definitionOf name node t) } :=
    bind_of_ok (define_eq (macroNameOf_firstDefinition hd hname hvalue) hreserved hfree node)
  set node := (d.record st.nodes d.parent t).1
  set defined : PreprocessState := d.ended true node t
    { d.begun true t st with macros := st.macros.define (d.definitionOf name node t) } with hdefined
  have hpiece : d.scanPiece expand includer {} t st = .ok {} defined := by
    change d.scanDirective expand includer {} .ppSimpleNoArgsMacroDefinition t st = _
    rw [scanDirective_eq, between_eq hr, hdefine (d.begun true t st) hfree]
    rfl
  have hsign : ∀ i < (signs "\n").length,
      d.sign? (moreInBody value + 4 + i) = (signs "\n")[i]? := by
    intro i hi
    rw [signs_newline] at hi ⊢
    obtain rfl : i = 0 := by simpa using hi
    rw [hd, signs_definitionLine_append hname hvalue]
    simp [length_signs_blank]
  have hfeed : ((piecesOf "\n").map (·.rename (moreInBody value + 4 + ·))).foldlM
      (d.scanPiece expand includer) {} defined = .ok {} (written "\n" defined) :=
    foldlM_feed (.inr rfl) hsign rfl defined
  rw [piecesOf_newline] at hfeed
  refine ⟨node, written "\n" defined, ?_, ?_, rfl, rfl, rfl, rfl⟩
  · rw [List.foldlM_cons, bind_of_ok hpiece]
    exact hfeed
  · simp [hdefined, written, ended, begun, hline]

end DirectiveText

/-! ### Two runs -/

/-- Nothing is to be spared but the file that messages are logged to. -/
def sparesNothing : Sparing := fun _ _ => false

/-- Is no file that is included while a text is preprocessed the one that messages are logged to? -/
def IncludesNoLog (path text : String) (s : Session) : Prop :=
  NoLapse (scanFileSparing sparesNothing path text s) (.start path text s)

instance (path text : String) (s : Session) : Decidable (IncludesNoLog path text s) :=
  inferInstanceAs (Decidable (NoLapse _ _))

/-- Two runs of which the second one defines a macro that the first one begins with. -/
def Preprocessing.PeerSetting.seeded (s : Session) (path : String) (clean : Prop) :
    PeerSetting where
  session := s
  defines := {}
  including₁ := [path]
  including₂ := [path]
  macros := .upToBlanks
  reporting := True
  clean

/-- Is the delimiter of marks nowhere in what a text behind a line is preprocessed from? -/
structure FreeOfMarks (path value text : String) (s : Session) : Prop where
  path : Unmarked path.toList
  value : Unmarked value.toList
  text : Unmarked text.toList
  session : (s.seeding {}).Unmarked

section

open DirectiveText

variable {path name value text : String} {s : Session}

theorem unmarked_of_isWord (hname : isWord name.toList = true) : Unmarked name.toList := fun hc =>
  absurd (isNameRest_of_isWord hname _ hc) (by decide)

theorem FreeOfMarks.unmarked_ofText (h : FreeOfMarks path value text s)
    (hname : isWord name.toList = true) :
    (DirectiveText.ofText (definitionLine name value ++ text) (some path) 1 true).Unmarked := by
  refine DirectiveText.unmarked_ofText 1 true ?_ (Unmarked.InSome.some h.path).nameText
  simp only [definitionLine, String.toList_append, Unmarked.append]
  exact ⟨⟨⟨⟨⟨by decide, unmarked_of_isWord hname⟩, by decide⟩, h.value⟩, by decide⟩, h.text⟩

/-- Marks before a line feed leave a line feed. -/
theorem withoutMarks_marked_line (node : NodeId) (s : List Char) :
    withoutMarks (beginMark ++ (endMark node ++ ['\n']) ++ s) = '\n' :: withoutMarks s := by
  rw [List.append_assoc, List.append_assoc,
    withoutMarks_mark (m := (.preprocBegin, beginMark)) (.inl rfl),
    withoutMarks_mark (m := (.preprocEnd, endMark node)) (.inr ⟨node, rfl⟩), List.singleton_append,
    withoutMarks_cons (by decide)]

/-- **The line leads to where the other run begins.** -/
theorem exists_filePeers (path text : String) (s : Session) (hname : isWord name.toList = true)
    (hreserved : name ∉ reservedMacroNames) (hvalue : OnLine value.toList) (includer : Includer) :
    ∃ node mid, [firstDefinition value, .leaf (moreInBody value + 4)].foldlM
      ((DirectiveText.ofText (definitionLine name value ++ text) (some path) 1 true).scanPiece
        expandText includer) {} (.start path (definitionLine name value ++ text) (s.seeding {})) =
        .ok {} mid ∧
    mid.text.toList = beginMark ++ (endMark node ++ ['\n']) ∧
    FilePeers (.seeded (s.seeding ⟨[(name, value)]⟩) path (FreeOfMarks path value text s))
      (.start path text (s.seeding ⟨[(name, value)]⟩)) mid := by
  set whole := definitionLine name value ++ text with hwhole
  have hsign (i : Nat) : (DirectiveText.ofText whole (some path) 1 true).sign? i =
      (signs whole)[i]? := sign?_ofText _ _ _ _ _
  obtain ⟨node, mid, hrun, htext, hmacros, hsession, hexpanding, hincluding⟩ :=
    exists_of_definitionLine expandText includer (.start path whole (s.seeding {})) hsign rfl hname
      hreserved hvalue rfl
  refine ⟨node, mid, hrun, htext, ⟨⟨[], rfl⟩, ⟨[], hsession⟩, fun _ => ?_, ?_, hexpanding.symm, rfl,
    hincluding⟩, fun hc => ⟨?_, ?_⟩⟩
  · rw [hsession]
    rfl
  · rw [hmacros]
    exact .cons (alike_definitionOf hsign hname hvalue node) .nil
  · rw [hsession]
    exact hc.session
  · rw [hmacros]
    have hnone : MacroTable.Unmarked {} := by simp [MacroTable.Unmarked]
    exact hnone.define ((hc.unmarked_ofText hname).definitionOf node (unmarked_of_isWord hname))

/-- **Both scans**: behind the line of the definition they do the same. -/
theorem endAbreast_seeded (path : String) (hs : s.Settled) (hname : isWord name.toList = true)
    (hreserved : name ∉ reservedMacroNames) (hvalue : OnLine value.toList)
    (hline : ∀ t ∈ DirectiveToken.ofText text, t.kind ≠ .currentLine) :
    EndAbreast (PeerSetting.seeded (s.seeding ⟨[(name, value)]⟩) path
        (FreeOfMarks path value text s)).Fails
      (fun _ after₁ _ after₂ => List.Forall₂ MacroDefinition.Alike after₁.macros.macros
          after₂.macros.macros ∧ after₁.session.sayings = after₂.session.sayings ∧
        (FreeOfMarks path value text s →
          withoutMarks after₂.text.toList = '\n' :: withoutMarks after₁.text.toList))
      (scanFileSparing sparesNothing path text (s.seeding ⟨[(name, value)]⟩)
        (.start path text (s.seeding ⟨[(name, value)]⟩)))
      (scanFile path (definitionLine name value ++ text) (s.seeding {})
        (.start path (definitionLine name value ++ text) (s.seeding {}))) := by
  set c := PeerSetting.seeded (s.seeding ⟨[(name, value)]⟩) path (FreeOfMarks path value text s)
  set whole := definitionLine name value ++ text with hwhole
  set d₁ := DirectiveText.ofText text (some path) 1 true
  set d₂ := DirectiveText.ofText whole (some path) 1 true
  set depth := s.files.entries.length + 1
  have hi : IncludersAbreast c (includeSparing sparesNothing s.config.includeDirs depth)
      (includeWithin s.config.includeDirs depth) :=
    includersAbreast (fun hc : FreeOfMarks path value text s => hc.session.includeDirs) hs rfl _
  have hf : FilesAbreast c sparesNothing d₁ d₂ :=
    { recording₁ := rfl, recording₂ := rfl, file := .inl rfl
      unmarked := fun hc : FreeOfMarks path value text s => hc.unmarked_ofText hname }
  -- Behind the line every piece stands one line further down, which only ``__LINE__`` could tell.
  have hmay : ∀ t ∈ piecesOf text, MayShare c sparesNothing ⟨true, false⟩ d₁ d₂
      (includeSparing sparesNothing s.config.includeDirs depth)
      (includeWithin s.config.includeDirs depth) t := fun t ht =>
    ⟨fun _ => ⟨rfl, hi⟩, fun _ => rfl,
      fun hk => absurd hk (DirectiveGrammar.tellsNoLine_parse hline t ht)⟩
  obtain ⟨node, mid, hrun, htext, hstart⟩ :=
    exists_filePeers path text s hname hreserved hvalue (includeWithin s.config.includeDirs depth)
  -- The line has been read by the second run alone: from here on the two read the same pieces.
  have hend := ((abreast_part (holds_self text) (holds_definitionLine_append hname hvalue text) hf
    rfl hmay (.start c ⟨true, false⟩ fun _ => rfl) (.inl rfl)).bind joins_texts
      fun last₁ last₂ hlast => abreast_openChains hf hlast.1.conditions.length_eq) _ _ hstart
  rw [map_rename_zero] at hend
  have hpieces : piecesOf whole = [firstDefinition value, .leaf (moreInBody value + 4)] ++
      (piecesOf text).map (·.rename (moreInBody value + 5 + ·)) :=
    piecesOf_definitionLine_append hname hvalue text
  rw [scanFileSparing_eq_pieces, scanFile_eq_pieces, hpieces, List.foldlM_append, bind_assoc,
    Session.includeDirs_seeding, Session.files_seeding, Session.includeDirs_seeding,
    Session.files_seeding, bind_of_ok hrun]
  refine hend.mono fun _ after₁ _ after₂ _ _ h => ?_
  obtain ⟨-, hlast, u, v, hu, hv, huv⟩ := h
  refine ⟨hlast.macros, hlast.reports trivial, fun hc => ?_⟩
  have hu : after₁.text.toList = u := hu
  rw [hv, htext, hu, withoutMarks_marked_line, (huv hc).withoutMarks_eq]

end

namespace PreprocessedText

/-- **Do two runs end alike**, the second one a line further on? The macros in force cannot be told
apart one by one, the diagnostics say the same, and if the delimiter of marks is nowhere, the
second text is the first one behind an empty line. Or both runs stop at first errors that say the
same. -/
inductive EndBehindLine (clean : Prop) : EStateM.Result Failure Session PreprocessedText →
    EStateM.Result Failure Session PreprocessedText → Prop
  | ok {p₁ p₂ : PreprocessedText} {s₁ s₂ : Session}
    (macros : List.Forall₂ MacroDefinition.Alike p₁.macros.macros p₂.macros.macros)
    (sayings : s₁.sayings = s₂.sayings) (stripped : clean → p₂.stripped = "\n" ++ p₁.stripped) :
    EndBehindLine clean (.ok p₁ s₁) (.ok p₂ s₂)
  | error {e₁ e₂ : Failure} {s₁ s₂ : Session} (stops : e₁.StopsAlike e₂)
    (sayings : s₁.sayings = s₂.sayings) : EndBehindLine clean (.error e₁ s₁) (.error e₂ s₂)

end PreprocessedText

/-- **A macro from the start is one defined before the text**: a text that does not tell its lines
is preprocessed with a macro as it is behind the line that defines the macro. -/
theorem seeds_as_defined (path name value text : String) (s : Session) (hs : s.Settled)
    (hname : isWord name.toList = true) (hreserved : name ∉ reservedMacroNames)
    (hvalue : OnLine value.toList)
    (hline : ∀ t ∈ DirectiveToken.ofText text, t.kind ≠ .currentLine)
    (hlog : IncludesNoLog path text (s.seeding ⟨[(name, value)]⟩)) :
    PreprocessedText.EndBehindLine (FreeOfMarks path value text s)
      (preprocessText path text (s.seeding ⟨[(name, value)]⟩))
      (preprocessText path (definitionLine name value ++ text) (s.seeding {})) := by
  have hend := endAbreast_seeded path hs hname hreserved hvalue hline
  have hsame := (spares_scanFile sparesNothing path text
    (s.seeding ⟨[(name, value)]⟩)).eq_of_noLapse hlog
  rw [hsame] at hend
  rw [preprocessText_eq, preprocessText_eq]
  cases hscan : scanFile path text (s.seeding ⟨[(name, value)]⟩)
      (.start path text (s.seeding ⟨[(name, value)]⟩)) <;>
    cases hscan₂ : scanFile path (definitionLine name value ++ text) (s.seeding {})
      (.start path (definitionLine name value ++ text) (s.seeding {})) <;>
        rw [hscan, hscan₂] at hend
  · obtain ⟨hmacros, hsays, hstripped⟩ := hend
    refine .ok hmacros hsays fun hc => String.toList_injective ?_
    simpa [PreprocessedText.stripped] using hstripped hc
  · exact hend.elim
  · obtain rfl := hend
    exact absurd (hsame.trans hscan) (hlog _)
  · rcases hend with rfl | hfails
    · exact absurd (hsame.trans hscan) (hlog _)
    · obtain ⟨hstops, hsays⟩ := hfails trivial
      exact .error hstops hsays

/-- A text that includes a file where a macro is defined, and says something unknown. -/
def guardedInclusion : String := "`ifdef W\n`include \"w.svh\"\n`endif\n`NOPE\n"

/-- A session with this file, which uses the macro. -/
def guardedSession : Session :=
  .start {} (FileStore.empty.insert "w.svh" "wire [`W:0] a;\n".toUTF8)

theorem seeds_as_defined_guardedInclusion :
    guardedSession.Settled ∧ isWord "W".toList = true ∧ "W" ∉ reservedMacroNames ∧
      OnLine " 7 + A ".toList ∧
      (∀ t ∈ DirectiveToken.ofText guardedInclusion, t.kind ≠ .currentLine) ∧
      IncludesNoLog "test.sv" guardedInclusion (guardedSession.seeding ⟨[("W", " 7 + A ")]⟩) ∧
      PreprocessedText.EndBehindLine
        (FreeOfMarks "test.sv" " 7 + A " guardedInclusion guardedSession)
        (preprocessText "test.sv" guardedInclusion
          (guardedSession.seeding ⟨[("W", " 7 + A ")]⟩))
        (preprocessText "test.sv" (definitionLine "W" " 7 + A " ++ guardedInclusion)
          (guardedSession.seeding {})) := by
  have hs : guardedSession.Settled := Session.settled_start _ _
  have hreserved : "W" ∉ reservedMacroNames := by decide
  have hvalue : OnLine " 7 + A ".toList :=
    ⟨by decide, by decide, by decide, by decide, by decide⟩
  have hline : ∀ t ∈ DirectiveToken.ofText guardedInclusion, t.kind ≠ .currentLine :=
    DirectiveToken.kind_ne_currentLine (by decide)
  have hlog : IncludesNoLog "test.sv" guardedInclusion
      (guardedSession.seeding ⟨[("W", " 7 + A ")]⟩) := by decide +kernel
  exact ⟨hs, by decide, hreserved, hvalue, hline, hlog,
    seeds_as_defined _ _ _ _ _ hs (by decide) hreserved hvalue hline hlog⟩

/-- A text with a delimiter of marks, and a chain of conditional directives behind it. -/
def delimitedChain : String := "\u0001\n`ifdef A\n`endif\n"

/-- A text that is reported on, and includes the file that messages are logged to. Then it uses a
macro, for a name of a file too. -/
def includedLog : String := "`NOPE\n`include \"out.log\"\n`Z\n`include `Z\n"

/-- A session that logs to this file. -/
def loggedSession : Session := .start { logFile := some "out.log" } .empty

/-- What of a run shows the places in messages that it includes: the bodies of the macros in force,
the messages and the text without marks. -/
def shownOf (p : PreprocessedText) (s : Session) : List String × List String × String :=
  (p.macros.macros.map (·.bodyText), s.sayings.map (·.2), p.stripped)

/-- **Where a line before makes a difference.** Behind a delimiter of marks in the text, the numbers
of nodes are left of the marks, and the line is a node too. And where the messages are included, the
places in them are those of the text: if the file of the text is named so that a message defines a
macro, the place is the body of the macro. -/
theorem seeded_apart :
    (isWord "X".toList = true ∧ "X" ∉ reservedMacroNames ∧ OnLine "1".toList) ∧
    (¬ "`__LINE__".toList <:+: delimitedChain.toList ∧
      ∃ p₁ s₁ p₂ s₂,
        preprocessText "test.sv" delimitedChain (bareSession.seeding ⟨[("X", "1")]⟩) = .ok p₁ s₁ ∧
        preprocessText "test.sv" (definitionLine "X" "1" ++ delimitedChain)
          (bareSession.seeding {}) = .ok p₂ s₂ ∧
        p₁.stripped = "PPBPPE2PPBPPE4\n" ∧ p₂.stripped = "\nPPBPPE5PPBPPE7\n" ∧
        p₂.stripped ≠ "\n" ++ p₁.stripped) ∧
    (¬ "`__LINE__".toList <:+: includedLog.toList ∧
      ∃ p₁ s₁ p₂ s₂,
        preprocessText "`define Z " includedLog (loggedSession.seeding ⟨[("X", "1")]⟩) = .ok p₁ s₁ ∧
        preprocessText "`define Z " (definitionLine "X" "1" ++ includedLog)
          (loggedSession.seeding {}) = .ok p₂ s₂ ∧
        p₁.macros.macros.map (·.bodyText) = ["1", ":1:1: unknown macro NOPE"] ∧
        p₂.macros.macros.map (·.bodyText) = ["1", ":2:1: unknown macro NOPE"] ∧
        s₁.sayings ≠ s₂.sayings ∧ p₂.stripped ≠ "\n" ++ p₁.stripped) := by
  refine ⟨⟨by decide, by decide, ⟨by decide, by decide, by decide, by decide, by decide⟩⟩,
    ⟨by decide, ?_⟩, by decide, ?_⟩
  · obtain ⟨p₁, s₁, hp₁, h₁⟩ := exists_of_preprocessesIn (bareSession.seeding ⟨[("X", "1")]⟩)
      delimitedChain (·.stripped == "PPBPPE2PPBPPE4\n") (by decide +kernel)
    obtain ⟨p₂, s₂, hp₂, h₂⟩ := exists_of_preprocessesIn (bareSession.seeding {})
      (definitionLine "X" "1" ++ delimitedChain) (·.stripped == "\nPPBPPE5PPBPPE7\n")
      (by decide +kernel)
    rw [beq_iff_eq] at h₁ h₂
    exact ⟨p₁, s₁, p₂, s₂, hp₁, hp₂, h₁, h₂, by rw [h₁, h₂]; decide⟩
  · have hrun₁ : (preprocessText "`define Z " includedLog).endsIn (fun p s => shownOf p s ==
        (["1", ":1:1: unknown macro NOPE"],
          ["unknown macro NOPE", "cannot find include file :1:1: unknown macro NOPE"],
          "\n\n[ERR:PP0105] \n\n:1:1: unknown macro NOPE\n\n\n"))
        (loggedSession.seeding ⟨[("X", "1")]⟩) = true := by decide +kernel
    have hrun₂ : (preprocessText "`define Z " (definitionLine "X" "1" ++ includedLog)).endsIn
        (fun p s => shownOf p s == (["1", ":2:1: unknown macro NOPE"],
          ["unknown macro NOPE", "cannot find include file :2:1: unknown macro NOPE"],
          "\n\n\n[ERR:PP0105] \n\n:2:1: unknown macro NOPE\n\n\n"))
        (loggedSession.seeding {}) = true := by decide +kernel
    obtain ⟨p₁, s₁, hp₁, h₁⟩ := exists_of_endsIn hrun₁
    obtain ⟨p₂, s₂, hp₂, h₂⟩ := exists_of_endsIn hrun₂
    simp only [shownOf, beq_iff_eq, Prod.mk.injEq] at h₁ h₂
    refine ⟨p₁, s₁, p₂, s₂, hp₁, hp₂, h₁.1, h₂.1, fun hsame => ?_, ?_⟩
    · exact absurd (h₁.2.1.symm.trans ((congrArg _ hsame).trans h₂.2.1)) (by decide)
    · rw [h₁.2.2, h₂.2.2]
      decide

end Verilog
