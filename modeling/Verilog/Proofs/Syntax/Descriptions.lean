import Verilog.Proofs.Grammar.Progress
import Verilog.Proofs.Syntax.Declarations
import Verilog.Proofs.Syntax.Marks

/-!
# Which descriptions a text keeps

A text is read description by description. Where none can be read, tokens are skipped until one can,
whatever they are; but where none can be read any more, nothing is skipped, and the text is not
read to its end. There is no tree then, and with it all descriptions are lost that were read before
(`keeps_descriptions`).
-/

namespace Verilog

namespace SourceGrammar

open Grammar Runner

/-- A description that is read where it stands, with nothing skipped before it. -/
def oneDescription : SourceGrammar :=
  match description with
  | .retry _ a => a
  | a => a

/-- A description may also be read further on. -/
theorem description_eq : description = .retry [] oneDescription := rfl

/-- The run of one description of a text. -/
def readOne (tokens : List SourceToken) : Runner SourceKind :=
  oneDescription.run (runRef rules ((visible tokens).length + 1))

/-- Where a text begins. -/
def beginning (tokens : List SourceToken) : Cursor SourceKind := ⟨0, visible tokens⟩

/-- The tree of a text, from the trees of its descriptions. -/
def treeOf (descriptions : List ParseTree) : ParseTree :=
  .node .paTopLevelRule [.node .paSourceText descriptions]

/-- **Is the rest of a text lost?** There are tokens left, and from none of the places further on
can a description be read. -/
structure Lost (tokens : List SourceToken) (c : Cursor SourceKind) : Prop where
  left : c.rest ≠ []
  fails : ∀ d, c.Precedes d → (readOne tokens).Fails d

variable {tokens : List SourceToken}

theorem progresses_readOne (tokens : List SourceToken) :
    (retry [] (readOne tokens)).Progresses := by
  have hshapely : Shapely description := shapely_text.2.2
  exact progresses_run (reads_runRef shapely_rules _) hshapely rfl

/-- **How a text is read**: turn by turn, up to where no description can be read any more. There is
a tree if that is the end. -/
theorem parse_spec (tokens : List SourceToken) : ∃ descriptions next,
    Turns (retry [] (readOne tokens)).Succeeds (beginning tokens) descriptions next ∧
      (retry [] (readOne tokens)).Fails next ∧
      (parse tokens).1 = if next.rest.isEmpty then some (treeOf descriptions) else none := by
  obtain ⟨recovered, trees, next, beyond, hrun, hturns, hfails⟩ :=
    exists_turns_of_many (progresses_readOne tokens) (beginning tokens)
  refine ⟨trees, next, hturns, hfails, ?_⟩
  have htext : text.run (runRef rules ((visible tokens).length + 1)) ⟨0, visible tokens⟩ =
      .ok recovered [treeOf trees] next beyond := by
    rw [text, Grammar.run, Grammar.run, Runner.map, Runner.map]
    have hmany : (Grammar.many 0 description).run (runRef rules ((visible tokens).length + 1))
        ⟨0, visible tokens⟩ = .ok recovered trees next beyond := by
      rw [description_eq]
      exact hrun
    rw [hmany]
    rfl
  rw [parse, Grammar.parse, htext]
  dsimp only
  split <;> rfl

/-- Do the turns from some place on lead to where the rest of the text is lost? -/
def Loses (tokens : List SourceToken) (c : Cursor SourceKind) : Prop :=
  ∃ more d, Turns (retry [] (readOne tokens)).Succeeds c more d ∧ Lost tokens d

/-- **Descriptions that are read one after the other** from the beginning of a text are the first
ones of its tree, if it has one; and it has none just if a later turn loses the rest. -/
theorem parse_of_turns {ts : List ParseTree} {c : Cursor SourceKind}
    (h : Turns (readOne tokens).Succeeds (beginning tokens) ts c) :
    (∃ more, (parse tokens).1 = some (treeOf (ts ++ more)) ∧ ¬Loses tokens c) ∨
      (parse tokens).1 = none ∧ Loses tokens c := by
  obtain ⟨descriptions, next, hturns, hfails, hparse⟩ := parse_spec tokens
  obtain ⟨more, rfl, hmore⟩ := (h.mono fun _ _ _ hone => hone.retry []).split hturns hfails
  by_cases hend : next.rest.isEmpty = true
  · refine .inl ⟨more, by rw [hparse, if_pos hend], ?_⟩
    rintro ⟨others, d, hothers, hlost⟩
    -- both ways to go on end at the same place, and there is nothing left
    have hsame := hmore.unique hfails hothers (fails_retry.mpr hlost.fails)
    exact hlost.left (hsame ▸ List.isEmpty_iff.mp hend)
  · refine .inr ⟨by rw [hparse, if_neg hend], more, next, hmore, ?_, fails_retry.mp hfails⟩
    exact fun hnil => hend (List.isEmpty_iff.mpr hnil)

end SourceGrammar

open SourceGrammar Runner

/-! ### The elements of a file -/

theorem declarations_treeOf (tokens : Array SourceToken) (ts : List ParseTree) :
    (treeOf ts).declarations tokens none = ParseTree.declarationsAll tokens none ts := by
  rw [treeOf, ParseTree.declarations_singleton rfl (by decide), ParseTree.declarations,
    ParseTree.ownDeclaration?_eq_none rfl]
  rfl

/-- A text that is read as a file has marks that can be paired. -/
theorem SourceFile.exists_marked {p : PreprocessedText} {f : SourceFile} {s s' : Session}
    (hf : ofPreprocessed p s = .ok f s') : ∃ m, MarkedText.ofText p = .ok m := by
  unfold ofPreprocessed at hf
  obtain ⟨s₁, _, hget, hf⟩ := Step.exists_of_bind hf
  cases hm : MarkedText.ofText p with
  | error fault =>
    rw [hm] at hf
    cases hf
  | ok m => exact ⟨m, rfl⟩

/-- **The elements of a file that has been read** are what its tree declares, if it has one, each
with the settings on the line on which it begins. -/
theorem SourceFile.snapshots_ofPreprocessed {p : PreprocessedText} {m : MarkedText} {f : SourceFile}
    {s s' : Session} (hm : MarkedText.ofText p = .ok m) (hf : ofPreprocessed p s = .ok f s') :
    f.nodes.snapshots = match (SourceGrammar.parse m.tokens.toList).1 with
      | some tree => snapshotsIn s.config.library (tree.snapshots m.tokens m.settingsOf none)
      | none => [] := by
  unfold ofPreprocessed at hf
  obtain ⟨s₁, _, hget, hf⟩ := Step.exists_of_bind hf
  obtain ⟨rfl, rfl⟩ := EStateM.Result.ok.inj hget
  rw [hm] at hf
  dsimp only at hf
  obtain ⟨⟨tree, faults⟩, hparse⟩ : ∃ r, SourceGrammar.parse m.tokens.toList = r := ⟨_, rfl⟩
  rw [hparse] at hf ⊢
  obtain ⟨_, s₂, -, hf⟩ := Step.exists_of_bind hf
  cases tree with
  | none =>
    obtain ⟨rfl, -⟩ := EStateM.Result.ok.inj hf
    rfl
  | some tree =>
    have htree : (SourceGrammar.parse m.tokens.toList).1 = some tree := by rw [hparse]
    obtain ⟨hkind, -⟩ := tree_of_parse htree
    obtain ⟨t, ht⟩ := syntaxTree_of_parse (s := ⟨m, s.config.library, s.config.keepBlanks⟩)
      ⟨m.offsets, p.lines, p.file, s.config.preprocessedPlaces⟩ hm htree
    dsimp only at hf
    rw [ht] at hf
    obtain ⟨rfl, -⟩ := EStateM.Result.ok.inj hf
    cases tree with
    | leaf i => cases hkind
    | node kind ts =>
      obtain rfl := Option.some.inj hkind
      exact NodeTable.snapshots_syntaxTree (by decide) ht

/-- By kind and name the elements of the file are the declarations of its tree. -/
theorem SourceFile.declared_ofPreprocessed {p : PreprocessedText} {m : MarkedText} {f : SourceFile}
    {s s' : Session} (hm : MarkedText.ofText p = .ok m) (hf : ofPreprocessed p s = .ok f s') :
    f.nodes.declared = match (SourceGrammar.parse m.tokens.toList).1 with
      | some tree => inLibrary s.config.library (tree.declarations m.tokens none)
      | none => [] := by
  have hrecorded := snapshots_ofPreprocessed hm hf
  split at hrecorded
  · rw [NodeTable.declared_of_snapshots hrecorded, ParseTree.map_fst_snapshots]
  · have hnone : f.nodes.snapshots = snapshotsIn s.config.library [] := hrecorded
    exact NodeTable.declared_of_snapshots hnone

/-- **Which descriptions a text keeps.** Let descriptions be read one after the other from the
beginning of a text, with nothing skipped between them. If going on from there, past faults where
there are some, leads to the end of the text, then the tree of the text begins with their trees, and
the elements of the file with those they declare. If it leads to tokens among which no description
begins, there is no tree, and the file has no elements at all. -/
theorem keeps_descriptions (p : PreprocessedText) (m : MarkedText) (f : SourceFile) (s s' : Session)
    (ts : List ParseTree) (c : Cursor SourceKind) (hm : MarkedText.ofText p = .ok m)
    (hf : SourceFile.ofPreprocessed p s = .ok f s')
    (hturns : Turns (readOne m.tokens.toList).Succeeds (beginning m.tokens.toList) ts c) :
    (¬Loses m.tokens.toList c ∧ ∃ more,
      (SourceGrammar.parse m.tokens.toList).1 = some (treeOf (ts ++ more)) ∧
      f.nodes.declared =
        inLibrary s.config.library (ParseTree.declarationsAll m.tokens none ts) ++
          inLibrary s.config.library (ParseTree.declarationsAll m.tokens none more)) ∨
    (Loses m.tokens.toList c ∧ (SourceGrammar.parse m.tokens.toList).1 = none ∧
      f.nodes.declared = []) := by
  have hdeclared := SourceFile.declared_ofPreprocessed hm hf
  rcases parse_of_turns hturns with ⟨more, hparse, hkept⟩ | ⟨hparse, hlost⟩
  · refine .inl ⟨hkept, more, hparse, ?_⟩
    rw [hdeclared, hparse]
    dsimp only
    rw [declarations_treeOf, ParseTree.declarationsAll_append, inLibrary, List.map_append]
    rfl
  · exact .inr ⟨hlost, hparse, by rw [hdeclared, hparse]⟩

/-- A module, and behind it a closing word that closes nothing. -/
def strayClosing : PreprocessedText where
  file := some "top.sv"
  text := "module a; endmodule endmodule\n"
  nodes := { file := some "top.sv", library := "work" }
  lines := {}
  includes := []
  macros := {}
  states := []

theorem reads_strayClosing : ∃ m trees next beyond, MarkedText.ofText strayClosing = .ok m ∧
    m.tokens.toList = SourceToken.ofText strayClosing.text ∧
    readOne m.tokens.toList (beginning m.tokens.toList) = .ok [] trees next beyond ∧
    trees ≠ [] := by
  have hok : (MarkedText.ofText strayClosing).toBool = true := by decide +kernel
  have hread : (match readOne (SourceToken.ofText strayClosing.text)
        (beginning (SourceToken.ofText strayClosing.text)) with
      | .ok recovered trees _ _ => recovered.isEmpty && !trees.isEmpty
      | .fail _ _ => false) = true := by decide +kernel
  cases hm : MarkedText.ofText strayClosing with
  | error fault => simp [hm, Except.toBool] at hok
  | ok m =>
    obtain ⟨-, htokens, -⟩ := MarkedText.ofText_eq hm
    refine ⟨m, ?_⟩
    rw [htokens]
    cases heq : readOne (SourceToken.ofText strayClosing.text)
        (beginning (SourceToken.ofText strayClosing.text)) with
    | fail recovered fault => simp [heq] at hread
    | ok recovered trees next beyond =>
      simp only [heq, Bool.and_eq_true, List.isEmpty_iff, Bool.not_eq_true',
        List.isEmpty_eq_false_iff] at hread
      obtain ⟨rfl, htrees⟩ := hread
      exact ⟨trees, next, beyond, rfl, rfl, rfl, htrees⟩

theorem parse_strayClosing :
    (SourceGrammar.parse (SourceToken.ofText strayClosing.text)).1 = none :=
  Option.isNone_iff_eq_none.mp (by decide +kernel)

theorem keeps_descriptions_strayClosing : ∃ m f s' ts c,
    MarkedText.ofText strayClosing = .ok m ∧
      SourceFile.ofPreprocessed strayClosing bareSession = .ok f s' ∧
      Turns (readOne m.tokens.toList).Succeeds (beginning m.tokens.toList) ts c ∧ ts ≠ [] ∧
      Loses m.tokens.toList c ∧ f.nodes.declared = [] := by
  obtain ⟨m, trees, next, beyond, hm, htokens, hread, htrees⟩ := reads_strayClosing
  have hlenient : bareSession.config.failFast = false := rfl
  obtain ⟨f, s', hf, -⟩ := (composed_ofPreprocessed hm).succeeds Step.alike_upToStopping
    Session.UpToStopping.refl hlenient
  have hturns : Turns (readOne m.tokens.toList).Succeeds (beginning m.tokens.toList)
      (trees ++ []) next := .cons ⟨[], beyond, hread⟩ (.nil next)
  have hnone : (SourceGrammar.parse m.tokens.toList).1 = none := htokens ▸ parse_strayClosing
  rcases keeps_descriptions strayClosing m f bareSession s' _ next hm hf hturns with
    ⟨-, more, hsome, -⟩ | ⟨hloses, -, hdeclared⟩
  · rw [hnone] at hsome
    cases hsome
  · exact ⟨m, f, s', _, next, hm, hf, hturns, by simpa using htrees, hloses, hdeclared⟩

/-- The module is read without a fault, and yet the text has no tree. -/
theorem loses_strayClosing : ∃ m trees next beyond, MarkedText.ofText strayClosing = .ok m ∧
    readOne m.tokens.toList (beginning m.tokens.toList) = .ok [] trees next beyond ∧
      trees ≠ [] ∧ (SourceGrammar.parse m.tokens.toList).1 = none := by
  obtain ⟨m, trees, next, beyond, hm, htokens, hread, htrees⟩ := reads_strayClosing
  exact ⟨m, trees, next, beyond, hm, hread, htrees, htokens ▸ parse_strayClosing⟩

end Verilog
