import Verilog.Proofs.Source.Mark
import Verilog.Proofs.Syntax.Steps

/-!
# Marks that are lost

The marks that the preprocessor writes are those of nested stretches, so if all of them are read
they can be paired, and no text is refused for its marks. They are read unless a comment, a string
or an escaped identifier goes past one. That does happen: the text a macro stands for is put between
marks as it is, and an escaped identifier at its end, which only a blank would end, takes in the
closing mark.
-/

namespace Verilog

open Session Step Stretch

/-! ### Pairing the marks of stretches -/

/-- Do marks nest, where so many are open before them, and do the closing ones carry numbers? -/
def Nested : List (SourceKind × List Char) → Nat → Prop
  | [], opened => opened = 0
  | (.preprocBegin, _) :: ms, opened => Nested ms (opened + 1)
  | (.preprocEnd, s) :: ms, opened =>
    (∃ node, (readEndMark? s).filter (· != 0) = some node) ∧ 0 < opened ∧ Nested ms (opened - 1)
  | _ :: ms, opened => Nested ms opened

mutual

theorem nested_marks {limit opened : Nat} (hlimit : limit < wordCount markLimitBits) :
    {w : Stretch} → w.Sound true limit → ∀ {ms}, Nested ms opened → Nested (w.marks ++ ms) opened
  | .text _, _, _, h => h
  | .region node inner, ⟨_, hpos, hle, hin⟩, ms, h => by
    have hread : (readEndMark? (endMark node)).filter (· != 0) = some node := by
      rw [readEndMark?_endMark (Nat.lt_of_le_of_lt hle hlimit), Option.filter_some_pos]
      simpa using Nat.ne_of_gt hpos
    rw [marks, List.cons_append, List.cons_append, List.append_assoc]
    exact nested_marksAll hlimit hin ⟨⟨node, hread⟩, Nat.succ_pos _, h⟩

/-- **The marks of stretches nest.** -/
theorem nested_marksAll {limit opened : Nat} (hlimit : limit < wordCount markLimitBits) :
    {ws : List Stretch} → SoundAll true limit ws →
      ∀ {ms}, Nested ms opened → Nested (marksAll ws ++ ms) opened
  | [], _, _, h => h
  | _ :: _, ⟨hw, hws⟩, ms, h => by
    rw [marksAll, List.append_assoc]
    exact nested_marks hlimit hw (nested_marksAll hlimit hws h)

end

/-- The marks among tokens, by kind and text. -/
def marksAmong (tokens : List (SourceToken × Nat)) : List (SourceKind × List Char) :=
  (tokens.map fun t => kindText t.1).filter fun x => x.1.isMark

theorem marksAmong_cons {token : SourceToken} {i : Nat} {rest : List (SourceToken × Nat)} :
    marksAmong ((token, i) :: rest) =
      if token.kind.isMark then (token.kind, token.text.toList) :: marksAmong rest
      else marksAmong rest := by
  rw [marksAmong, List.map_cons, List.filter_cons]
  rfl

/-- **Marks can be paired exactly where they nest.** -/
theorem pairMarks_iff {rest opened : List (SourceToken × Nat)} :
    (∃ pairs, pairMarks rest opened = .ok pairs) ↔ Nested (marksAmong rest) opened.length := by
  induction rest generalizing opened with
  | nil => cases opened <;> simp [pairMarks, marksAmong, Nested]
  | cons t rest ih =>
    obtain ⟨token, i⟩ := t
    rw [marksAmong_cons]
    unfold pairMarks
    split
    · rename_i hk
      rw [hk, if_pos (by rfl), Nested]
      exact ih
    · rename_i hk
      rw [hk, if_pos (by rfl), Nested]
      cases opened with
      | nil => simp
      | cons begin opened =>
        have ih := @ih opened
        dsimp only
        cases hread : (readEndMark? token.text.toList).filter (· != 0) with
        | none => simp
        | some node =>
          dsimp only
          cases hpairs : pairMarks rest opened <;>
            simp_all [bind, Except.bind, pure, Except.pure]
    · rename_i hb he
      rw [SourceKind.isMark_eq_false hb he]
      exact ih

mutual

theorem markedBy_written {limit : Nat} : {w : Stretch} → w.Sound true limit →
    MarkedBy w.written w.marks
  | .text _, h => .of_unmarked h
  | .region node inner, ⟨_, _, _, hin⟩ => by
    rw [written, marks, List.append_assoc]
    refine .mark (.inl rfl) ((markedBy_writtenAll hin).append ?_)
    simpa using MarkedBy.mark (m := (.preprocEnd, endMark node)) (.inr ⟨node, rfl⟩) .nil

/-- **Stretches are marked by their marks** and by nothing else. -/
theorem markedBy_writtenAll {limit : Nat} : {ws : List Stretch} → SoundAll true limit ws →
    MarkedBy (writtenAll ws) (marksAll ws)
  | [], _ => .nil
  | _ :: _, ⟨hw, hws⟩ => (markedBy_written hw).append (markedBy_writtenAll hws)

end

/-! ### Texts that are refused -/

theorem marksAmong_zipIdx (text : String) :
    marksAmong (SourceToken.ofText text).zipIdx = marksRead text := by
  rw [marksRead, marksAmong]
  congr 1
  have hmap := List.map_map (f := Prod.fst) (g := kindText) (l := (SourceToken.ofText text).zipIdx)
  rw [List.zipIdx_map_fst] at hmap
  exact hmap.symm

/-- The marks of a text can be paired exactly where those that are read nest. -/
theorem ofText_iff (p : PreprocessedText) :
    (∃ m, MarkedText.ofText p = .ok m) ↔ Nested (marksRead p.text) 0 := by
  rw [← marksAmong_zipIdx]
  constructor
  · rintro ⟨m, hm⟩
    obtain ⟨-, -, pairs, hpairs, -⟩ := MarkedText.ofText_eq hm
    exact pairMarks_iff.mp ⟨pairs, hpairs⟩
  · intro h
    obtain ⟨pairs, hpairs⟩ := (@pairMarks_iff _ []).mpr h
    rw [MarkedText.ofText, hpairs]
    exact ⟨_, rfl⟩

/-- **A text whose marks can be paired is not refused for its marks**: its tree is grown without a
fault, so whatever else is wrong with it, it is refused only where a run stops at the first
error. -/
theorem stops_ofPreprocessed {p : PreprocessedText} {m : MarkedText}
    (hm : MarkedText.ofText p = .ok m) {s s' : Session} {e : Failure}
    (h : SourceFile.ofPreprocessed p s = .error e s') : ∃ d, e = .firstError d := by
  have hreports := (composed_ofPreprocessed hm).reports alike_upToStopping
  exact ((hreports.failure UpToStopping.refl h).resolve_right id).2

/-- Is the reading of a text refused since its marks are not balanced? -/
def Refused (r : EStateM.Result Failure Session SourceFile) : Prop :=
  ∃ file fault s, r = .error (.unbalancedMarks file fault) s

/-- **A preprocessed text is refused exactly where the marks that are read do not nest.** -/
theorem refused_ofPreprocessed (p : PreprocessedText) (s : Session) :
    Refused (SourceFile.ofPreprocessed p s) ↔ ¬ Nested (marksRead p.text) 0 := by
  rw [← ofText_iff]
  constructor
  · rintro ⟨file, fault, s', h⟩ ⟨m, hm⟩
    obtain ⟨d, hd⟩ := stops_ofPreprocessed hm h
    cases hd
  · intro h
    cases hm : MarkedText.ofText p with
    | ok m => exact absurd ⟨m, hm⟩ h
    | error fault =>
      refine ⟨nameText p.file, fault, s, ?_⟩
      unfold SourceFile.ofPreprocessed
      rw [hm]
      rfl

/-- A text is refused where it can be preprocessed, and what comes out is refused. -/
theorem refused_ofText {path text : String} {s : Session} (hs : s.Unmarked)
    (hp : Unmarked path.toList) (ht : Unmarked text.toList) :
    Refused (SourceFile.ofText path text s) ↔ ∃ p s', preprocessText path text s = .ok p s' ∧
      ¬ Nested (marksRead p.text) 0 := by
  have hspec := preprocessText_spec hs hp ht
  rw [SourceFile.ofText, Step.bind_eq]
  cases hpre : preprocessText path text s with
  | ok p s' =>
    simp only [refused_ofPreprocessed, EStateM.Result.ok.injEq]
    constructor
    · exact fun h => ⟨p, s', ⟨rfl, rfl⟩, h⟩
    · rintro ⟨_, _, ⟨rfl, rfl⟩, h⟩
      exact h
  | error e s' =>
    rw [hpre] at hspec
    obtain ⟨d, rfl⟩ := hspec
    constructor
    · rintro ⟨_, _, _, h⟩
      cases h
    · rintro ⟨_, _, h, -⟩
      cases h

theorem preprocessFile_eq (path : String) (s : Session) :
    preprocessFile path s = match s.files.text? path with
      | none => .error (.unreadable path) s
      | some content => preprocessText path content s := by
  change (match s.files.text? path with
    | none => throw (.unreadable path)
    | some content => preprocessText path content : Reporting PreprocessedText) s = _
  cases s.files.text? path <;> rfl

/-- A file is refused where it is a text and the text is refused. -/
theorem refused_ofFile (path : String) (s : Session) :
    Refused (SourceFile.ofFile path s) ↔
      ∃ content, s.files.text? path = some content ∧
        Refused (SourceFile.ofText path content s) := by
  rw [SourceFile.ofFile, Step.bind_eq, preprocessFile_eq]
  cases s.files.text? path with
  | none =>
    constructor
    · rintro ⟨_, _, _, h⟩
      cases h
    · rintro ⟨_, h, -⟩
      cases h
  | some content => simp [SourceFile.ofText, Step.bind_eq]

/-- **When marks are lost.** Of a text in which the delimiter stands nowhere, the marks that are
written are those of nested stretches. All of them are read exactly where no comment, string or
escaped identifier of the preprocessed text has the delimiter in it. The text is refused for its
marks exactly where those that are read do not nest, and those that were written do, as long as the
numbers of nodes fit in a mark. A file is refused exactly where its text is. -/
theorem marks_kept_iff (path text : String) (s : Session) (hs : s.Unmarked)
    (hp : Unmarked path.toList) (ht : Unmarked text.toList) :
    (∀ p s', preprocessText path text s = .ok p s' → ∃ ws,
      p.text.toList = writtenAll ws ∧ SoundAll true p.nodes.size ws ∧
      (marksRead p.text = marksAll ws ↔
        ∀ t ∈ SourceToken.ofText p.text, t.kind.isVerbatim = true → Unmarked t.text.toList) ∧
      (p.nodes.size < wordCount markLimitBits → Nested (marksAll ws) 0)) ∧
    (Refused (SourceFile.ofText path text s) ↔ ∃ p s', preprocessText path text s = .ok p s' ∧
      ¬ Nested (marksRead p.text) 0) ∧
    (Refused (SourceFile.ofFile path s) ↔
      ∃ content, s.files.text? path = some content ∧
        Refused (SourceFile.ofText path content s)) := by
  refine ⟨fun p s' hpre => ?_, refused_ofText hs hp ht, refused_ofFile path s⟩
  have hspec := preprocessText_spec hs hp ht
  rw [hpre] at hspec
  obtain ⟨ws, hws, hsound⟩ := hspec
  refine ⟨ws, hws, hsound, marksRead_eq_iff (hws ▸ markedBy_writtenAll hsound), fun hlimit => ?_⟩
  have hnil : Nested [] 0 := rfl
  simpa using nested_marksAll hlimit hsound hnil

/-- A text whose macro stands for an escaped identifier. -/
def escapedBody : String := "`define W \\foo\nmodule `W ; endmodule\n"

/-- A run with nothing set and no files. -/
def bareSession : Session := .start {} .empty

theorem unmarked_bareSession : bareSession.Unmarked := by
  refine ⟨?_, ?_, ?_, ?_⟩
  · intro loc content h
    simp [bareSession, Session.start, FileStore.empty] at h
  · intro m h
    simp [bareSession, Session.start] at h
  · intro d h
    simp [bareSession, Session.start] at h
  · intro dir h
    simp [bareSession, Session.start] at h

theorem marks_kept_iff_escapedBody :
    bareSession.Unmarked ∧ Unmarked "test.sv".toList ∧ Unmarked escapedBody.toList ∧
      (Refused (SourceFile.ofText "test.sv" escapedBody bareSession) ↔
        ∃ p s', preprocessText "test.sv" escapedBody bareSession = .ok p s' ∧
          ¬ Nested (marksRead p.text) 0) :=
  have ht : Unmarked escapedBody.toList := by decide
  have hp : Unmarked "test.sv".toList := by decide
  ⟨unmarked_bareSession, hp, ht, (marks_kept_iff _ _ _ unmarked_bareSession hp ht).2.1⟩

/-- Is the reading of a text refused since its marks are not balanced? (`Refused`, decided) -/
def isRefused : EStateM.Result Failure Session SourceFile → Bool
  | .error (.unbalancedMarks _ _) _ => true
  | _ => false

/-- **Marks do get lost**: the mark that closes the use of the macro is read as part of the escaped
identifier. -/
theorem refused_escapedBody : Unmarked escapedBody.toList ∧
    Refused (SourceFile.ofText "test.sv" escapedBody bareSession) := by
  refine ⟨by decide, ?_⟩
  have h : isRefused (SourceFile.ofText "test.sv" escapedBody bareSession) = true := by
    decide +kernel
  revert h
  cases SourceFile.ofText "test.sv" escapedBody bareSession with
  | ok f s => exact fun h => nomatch h
  | error e s =>
    cases e with
    | unbalancedMarks file fault => exact fun _ => ⟨file, fault, s, rfl⟩
    | _ => exact fun h => nomatch h

end Verilog
