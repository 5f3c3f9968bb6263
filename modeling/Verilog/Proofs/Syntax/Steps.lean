import Verilog.Proofs.Preprocess.Plain
import Verilog.Proofs.Preprocess.Steps
import Verilog.Proofs.Syntax.Tree
import Verilog.Syntax.File

/-!
# The steps of reading files

A file is read by preprocessing its text, pairing the marks of what comes out and growing the syntax
tree. Of these programs too it is shown how they are put together: they do nothing with the session
but report, and whether a run is to stop at the first error makes no difference to them but that it
stops. Growing the tree never fails (`syntaxTree_of_parse`), so the only other failures are a file
that is not there and marks that cannot be paired.
-/

namespace Verilog

open Step Session

theorem syntaxTree_of_parse {text : PreprocessedText} {s : GrowthSource} {tree : ParseTree}
    (m : LocationMapper) (hm : MarkedText.ofText text = .ok s.marked)
    (ht : (SourceGrammar.parse s.marked.tokens.toList).1 = some tree) :
    ∃ t, syntaxTree s m tree = .ok t := by
  obtain ⟨-, g, -, -, hg, -⟩ := Growth.ofTree_of_parse hm ht
  rw [syntaxTree, hg]
  exact ⟨_, rfl⟩

theorem Reporting.composed_report {F : Session → Session → Prop} {Q : Session → Session → Prop}
    (d : Diagnostic) : Composed F Q (report d) := by
  have heq : report d = onPart sessionOf putSession (report d) := by
    funext s
    have hs : sessionOf s = s := rfl
    rw [onPart, hs]
    cases report d s <;> rfl
  rw [heq]
  exact .report d

/-- Does a failure say that the marks of a preprocessed text cannot be paired? -/
def Failure.Unpaired (e : Failure) : Prop := ∃ file fault, e = .unbalancedMarks file fault

theorem reports_preprocessText {X : Failure → Prop} (path text : String) :
    Reports UpToStopping X (preprocessText path text) := by
  have heq : preprocessText path text = get >>= fun s => elsewhere (PreprocessState.start path text)
      (fun _ st => st.session)
      (fun _ st => (⟨some path, st.text, st.nodes, st.lines, st.includes.toList, st.macros,
        st.states.toList⟩ : PreprocessedText)) (scanFile path text s) := by
    funext s
    rw [preprocessText_eq, bind_eq]
    change _ = elsewhere (.start path text) _ _ (scanFile path text s) s
    rw [elsewhere]
    cases scanFile path text s (.start path text s) <;> rfl
  rw [heq]
  refine .look (by rintro s _ ⟨_, rfl⟩; rfl) fun s => .elsewhere ?_ ?_
  · exact ⟨fun _ => rfl, by rintro _ _ ⟨_, rfl⟩; rfl, fun _ _ _ _ _ => rfl, fun _ _ _ => rfl⟩
  · refine Reports.mono (Composed.reports alike_upToStopping (Q := Preprocessing.KeepsOpen) ?_)
      fun _ => False.elim
    have hopen := Preprocessing.allows_keepsOpen
    have hhangs := Preprocessing.hangs_keepsOpen
    exact DirectiveText.composed_scan hopen (fun _ t _ => hhangs _ t)
      (DirectiveText.expanding_expandWithin _)
      (DirectiveText.including_includeWithin hopen (fun _ _ _ t _ => hhangs _ t)
        (by rintro _ _ ⟨_, rfl⟩; rfl) _ _)

/-- A preprocessed text whose marks can be paired becomes a file. -/
theorem composed_ofPreprocessed {p : PreprocessedText} {m : MarkedText}
    (hm : MarkedText.ofText p = .ok m) :
    Composed UpToStopping (fun _ _ => True) (SourceFile.ofPreprocessed p) := by
  unfold SourceFile.ofPreprocessed
  refine .look (fun s _ ⟨_, h⟩ => h ▸ rfl) fun s => ?_
  rw [hm]
  refine Composed.bind (Composed.forIn fun d => Reporting.composed_report d) fun _ => ?_
  split
  · exact .pure _
  · rename_i tree ht
    obtain ⟨t, hgrown⟩ := syntaxTree_of_parse (s := ⟨m, s.config.library, s.config.keepBlanks⟩)
      ⟨m.offsets, p.lines, p.file, s.config.preprocessedPlaces⟩ hm ht
    dsimp only
    rw [hgrown]
    exact .pure _

theorem reports_ofPreprocessed (p : PreprocessedText) :
    Reports UpToStopping Failure.Unpaired (SourceFile.ofPreprocessed p) := by
  cases hm : MarkedText.ofText p with
  | ok m =>
    exact ((composed_ofPreprocessed hm).reports alike_upToStopping).mono fun _ => False.elim
  | error fault =>
    unfold SourceFile.ofPreprocessed
    refine .look (fun s _ ⟨_, h⟩ => h ▸ rfl) fun s => ?_
    rw [hm]
    exact .throw ⟨_, fault, rfl⟩

theorem reports_ofText (path text : String) :
    Reports UpToStopping Failure.Unpaired (SourceFile.ofText path text) :=
  (reports_preprocessText path text).bind alike_upToStopping reports_ofPreprocessed

/-- A text without directives is read as it stands. -/
theorem SourceFile.ofText_of_plain {text : String} (h : IsPlain text.toList) (path : String)
    (s : Session) :
    SourceFile.ofText path text s = SourceFile.ofPreprocessed (.plain path text s) s :=
  bind_of_ok (preprocessText_plain h path s)

theorem reports_ofFile (path : String) :
    Reports UpToStopping (fun _ => True) (SourceFile.ofFile path) := by
  refine Reports.bind alike_upToStopping (.look (fun s _ ⟨_, h⟩ => h ▸ rfl) fun s => ?_)
    fun p => (reports_ofPreprocessed p).mono fun _ _ => trivial
  split
  · exact .throw trivial
  · exact reports_preprocessText _ _

end Verilog
