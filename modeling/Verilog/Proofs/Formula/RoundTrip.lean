import Verilog.Proofs.Design.Stopping
import Verilog.Proofs.Formula.Design
import Verilog.Proofs.Preprocess.Plain
import Verilog.Proofs.Syntax.Marks

/-!
# From a formula to a design and back

A module that assigns a formula is written down, preprocessed, cut into tokens, read, made a syntax
tree and compiled, and what comes out shows the formula (`Formula.compile_moduleText`). Each stage
hands on what the next one needs:

| stage | what is known behind it | theorem |
|---|---|---|
| preprocessing | the text is the same | `preprocessText_of_plain` |
| tokens | they spell the words of the formula | `Formula.visible_moduleText` |
| grammar | the tree reads the formula, without a fault | `Formula.parse_moduleText` |
| syntax tree | the module holds one assignment, which means the formula | `Formula.holdsAssign` |
| design | its definition assigns the formula | `compileDesign_of_holdsAssign` |

No stage reports anything, so the session is as before; nor does it matter what was configured or
defined in it.

The tokens around the formula shape the tree and leave no node but the name of the module and that
of the net. So the module is the only element of the table, its one assignment is all that is to be
compiled, and the right side of that is the formula.
-/

namespace Verilog

namespace ParseTree

variable {tokens : Array SourceToken}

mutual

/-- A tree without declarations declares nothing. -/
theorem declarations_eq_nil (outer : Option String) :
    (t : ParseTree) → t.Every (fun k _ => ElementKind.ofNode? k = none) →
      t.declarations tokens outer = []
  | leaf _, _ => rfl
  | node k ts, h => by
    rw [declarations, ownDeclaration?_eq_none h.1]
    simp only [Option.toList_none, List.nil_append, ite_eq_left_iff]
    exact fun _ => declarationsAll_eq_nil _ ts h.2

theorem declarationsAll_eq_nil (outer : Option String) :
    (ts : List ParseTree) → EveryOf (fun k _ => ElementKind.ofNode? k = none) ts →
      declarationsAll tokens outer ts = []
  | [], _ => rfl
  | t :: ts, h => by
    rw [declarationsAll, declarations_eq_nil outer t h.1, declarationsAll_eq_nil outer ts h.2,
      List.append_nil]

end

end ParseTree

open ParseTree

/-! ### The tree of a formula -/

/-- Is a production an operand, an expression or a literal of a single token? -/
def IsFormulaPart (k : NodeKind) (ts : List ParseTree) : Prop :=
  k = .paPrimary ∨ k = .paExpression ∨ k = .paPrimaryLiteral ∧ ∃ i, ts = [.leaf i]

/-- The tree of a formula is made of nothing else. -/
theorem Formula.Reads.every {stands : Nat → FormulaWord → Prop} {f : Formula} {t : ParseTree}
    (h : f.Reads stands t) : t.Every IsFormulaPart := by
  induction h with
  | name | number => simp [Every, EveryOf, IsFormulaPart]
  | group _ _ _ ih | operand _ ih | unary _ _ ih => simpa [Every, EveryOf, IsFormulaPart] using ih
  | parens _ ih => exact ih
  | binary _ _ _ ihl ihr => simpa [Every, EveryOf, IsFormulaPart] using ⟨ihl, ihr⟩
  | choose _ _ _ _ _ ihc ihy ihn => simpa [Every, EveryOf, IsFormulaPart] using ⟨ihc, ihy, ihn⟩

/-- What holds of the parts of formulas and of the productions around them holds in all parts of the
module. -/
theorem everyOf_assignParts {V : NodeKind → List ParseTree → Prop} {t : ParseTree} (n : Nat)
    (ht : t.Every IsFormulaPart) (hpart : ∀ k ts, IsFormulaPart k ts → V k ts)
    (hframe : ∀ k ∈ [NodeKind.paModuleKeyword, .paContinuousAssign, .paNetAssignment, .paNetLvalue],
      ∀ ts, V k ts) :
    EveryOf V (assignParts t n) := by
  simp only [List.forall_mem_cons] at hframe
  simp [assignParts, Every, EveryOf, hframe, ht.imp hpart]

/-! ### The tokens around it -/

section Leaves

variable {tokens : Array SourceToken} {i : Nat} {k : SourceKind} {kind : NodeKind}
    {ts : List ParseTree}
  (h : (i, k) ∈ SourceGrammar.visible tokens.toList)

include h

/-- A token of a kind that is no leaf in a production. -/
theorem leafLabel?_eq_none (hk : ∀ front, leafKindIn? k kind front = none) :
    (ParseTree.node kind ts).leafLabel? tokens i = none := by
  obtain ⟨token, ht, rfl⟩ := exists_token_of_visible h
  simp [leafLabel?, ht, ParseTree.kind?, hk]

/-- A token of a kind that is a leaf. -/
theorem exists_leafLabel {leaf : NodeKind} (hk : ∀ front, leafKindIn? k kind front = some leaf) :
    ∃ name, (ParseTree.node kind ts).leafLabel? tokens i = some (leaf, name) := by
  obtain ⟨token, ht, rfl⟩ := exists_token_of_visible h
  exact ⟨leafName? leaf token.text, by simp [leafLabel?, ht, ParseTree.kind?, hk]⟩

end Leaves

/-! ### The table -/

namespace NodeTable

variable {t : NodeTable}

/-- The children of a kind that gives the tree its shape. -/
theorem childrenOf_eq {k : NodeKind} (hk : k.isTrivia = false) (id : NodeId) :
    t.childrenOf id k = (t.shape id).filter fun q => t.kind q == k := by
  rw [childrenOf, shape, List.filter_filter]
  refine List.filter_congr fun q _ => ?_
  cases hq : t.kind q == k
  · rfl
  · rw [beq_iff_eq.mp hq, hk]
    rfl

/-- The node of an assignment of one net. -/
theorem netAssigns_eq {id net left right : NodeId} (hid : t.shape id = [net])
    (hnet : t.kind net = .paNetAssignment) (hsides : t.shape net = [left, right]) :
    t.netAssigns id =
      [{ left := t.expr? left, right := t.expr? right, range := t.range? net net }] := by
  rw [netAssigns, childrenOf_eq rfl, hid, List.filter_cons_of_pos (by simp [hnet]), List.filter_nil,
    List.map_singleton, hsides]
  rfl

end NodeTable

namespace Formula

open NodeTable Outline

variable {t : NodeTable} {tokens : Array SourceToken} {value : ParseTree} {n : Nat}

/-- **The nodes of a module** with one assignment: the words around the assigned value are gone but
for the name of the module. -/
theorem exists_shape_of_assignParts {id : NodeId}
    (hframe : frame n ⊆ SourceGrammar.visible tokens.toList) {kind : NodeKind} {ts : List ParseTree}
    (hvalue : value = .node kind ts)
    (hat : AllAt t.skeleton (outlineAll tokens (.node .paModuleDeclaration (assignParts value n))
      (assignParts value n)) (t.shape id)) :
    ∃ word name assign net left right, t.shape id = [word, name, assign] ∧
      t.kind word = .paModuleKeyword ∧ t.kind name = .slStringConst ∧
      t.kind assign = .paContinuousAssign ∧ t.shape assign = [net] ∧
      t.kind net = .paNetAssignment ∧ t.shape net = [left, right] ∧
      ∃ production, AllAt t.skeleton (outline tokens production value) [right] := by
  subst hvalue
  simp only [frame, List.cons_subset] at hframe
  obtain ⟨-, h2, h3, h5, -, h9, hn, hend, -⟩ := hframe
  -- The parts of the module.
  obtain ⟨word, rest, hid, hword, hat⟩ := at_production hat
  obtain ⟨label, hl⟩ := exists_leafLabel h2 fun _ => rfl
  obtain ⟨name, rest, rfl, hname, -, hat⟩ := at_leaf hl hat
  have hat := at_token (leafLabel?_eq_none h3 fun _ => rfl) hat
  obtain ⟨assign, rest, rfl, hassign, hat⟩ := at_production hat
  rw [at_end (at_token (leafLabel?_eq_none hend fun _ => rfl) hat)] at hid
  -- The parts of the assignment.
  obtain ⟨hka, hat⟩ := below_of_at hassign (by decide)
  have hat := at_token (leafLabel?_eq_none h5 fun _ => rfl) hat
  obtain ⟨net, rest, hshape, hnet, hat⟩ := at_production hat
  rw [at_end (at_token (leafLabel?_eq_none hn fun _ => rfl) hat)] at hshape
  -- Its two sides.
  obtain ⟨hkn, hat⟩ := below_of_at hnet (by decide)
  obtain ⟨left, rest, hsides, -, hat⟩ := at_production hat
  have hat := at_token (leafLabel?_eq_none h9 fun _ => rfl) hat
  obtain ⟨right, rest, rfl, hright, hat⟩ := at_production hat
  rw [at_end hat] at hsides
  exact ⟨word, name, assign, net, left, right, hid, (below_of_at hword (by decide)).1, hname, hka,
    hshape, hkn, hsides, _, hright⟩

/-- **A module with one assignment** has nothing else to be compiled, and the formula stands on its
right side. -/
theorem items_of_assignParts {f : Formula} {id : NodeId} (ht : t.Legible)
    (hf : f.Reads (FormulaWord.Stands tokens) value) (hid : t.Below t.root id)
    (hframe : frame n ⊆ SourceGrammar.visible tokens.toList)
    (hat : AllAt t.skeleton (outlineAll tokens (.node .paModuleDeclaration (assignParts value n))
      (assignParts value n)) (t.shape id)) :
    ((t.shape id).filter fun q => (t.kind q).isGenerate) = [] ∧
      ∃ a e, ((t.shape id).filter fun q => t.kind q == .paContinuousAssign).flatMap t.netAssigns =
      [a] ∧
        a.right = some e ∧ e.Means f := by
  obtain ⟨kind, ts, hvalue, -⟩ := hf.exists_node
  obtain ⟨word, name, assign, net, left, right, hs, hkw, hkn, hka, hsa, hknet, hsn, production,
    hright⟩ :=
    exists_shape_of_assignParts hframe hvalue hat
  have hbelow : t.Below t.root right :=
    ((hid.child (q := assign) (by simp [hs])).child (q := net) (by simp [hsa])).child
    (by simp [hsn])
  obtain ⟨h0, -⟩ := contains_iff.mp (ht.grounded net right (children_of_shape (by simp [hsn]))).2
  have hdepth : t.size < t.size + 1 + right := by omega
  obtain ⟨e, he, hm⟩ := exists_expr ht hf hbelow hright hdepth
  refine ⟨by simp [hs, hkw, hkn, hka, NodeKind.isGenerate],
    { left := t.expr? left, right := t.expr? right, range := t.range? net net }, e, ?_, he, hm⟩
  have hitems : ((t.shape id).filter fun q => t.kind q == .paContinuousAssign) = [assign] := by
    simp [hs, hkw, hkn, hka]
  rw [hitems, List.flatMap_singleton, netAssigns_eq hsa hknet hsn]

/-! ### The module -/

/-- The module is called by its name. -/
theorem declaredName?_moduleText (f : Formula) (value : ParseTree) (n : Nat) :
    declaredName? (SourceToken.ofText f.moduleText).toArray
      (.node .paModuleDeclaration (assignParts value n)) = some "m" := by
  obtain ⟨token, ht, hk, htext⟩ := exists_token_of_piece (s := f.moduleText) (i := 2)
    (p := (.identifier, ['m'])) (by rw [sourcePieces_moduleText]; rfl)
  have hm : token.text = "m" := String.toList_inj.mp htext
  have hname : isNameAt (SourceToken.ofText f.moduleText).toArray 2 = true := by
    rw [isNameAt, kindAt, ht, Option.map_some, hk]
    rfl
  have htoken : nameToken? (SourceToken.ofText f.moduleText).toArray
      (.node .paModuleDeclaration (assignParts value n)) = some 2 :=
    List.find?_cons_of_pos hname
  rw [declaredName?, htoken, Option.bind_some, ht, Option.map_some, hm]
  rfl

/-- **The module is all that its tree declares.** -/
theorem declarations_assignTree (f : Formula) {value : ParseTree}
    (hvalue : value.Every IsFormulaPart)
    (n : Nat) : (assignTree value n).declarations (SourceToken.ofText f.moduleText).toArray none =
      [(.module, "m")] := by
  have hparts : EveryOf (fun k _ => ElementKind.ofNode? k = none) (assignParts value n) := by
    refine everyOf_assignParts n hvalue ?_ (by simp [ElementKind.ofNode?])
    rintro k ts (rfl | rfl | ⟨rfl, -⟩) <;> rfl
  have hown : ownDeclaration? (SourceToken.ofText f.moduleText).toArray none
      (.node .paModuleDeclaration (assignParts value n)) = some (.module, "m") := by
    simp [ownDeclaration?, declaredName?_moduleText, ParseTree.kind?, ElementKind.ofNode?,
      dottedName]
  have hmodule : (ParseTree.node .paModuleDeclaration (assignParts value n)).declarations
      (SourceToken.ofText f.moduleText).toArray none = [(.module, "m")] := by
    rw [declarations, hown, if_neg (by decide), declarationsAll_eq_nil _ _ hparts]
    rfl
  rw [assignTree, declarations_singleton rfl (by decide), declarations_singleton rfl (by decide),
    hmodule]

/-- **The nodes of every module** of the tree are those of the assignment. -/
theorem allAt_assignParts (hvalue : value.Every IsFormulaPart)
    (hat : ∀ production, AllAt t.skeleton (outline tokens production (assignTree value n)) [t.root])
    {id : NodeId} (hid : t.Below t.root id) (hk : t.kind id = .paModuleDeclaration) :
    AllAt t.skeleton (outlineAll tokens (.node .paModuleDeclaration (assignParts value n))
      (assignParts value n)) (t.shape id) := by
  have hparts : ParseTree.EveryOf (fun kind _ => kind ≠ .paModuleDeclaration)
    (assignParts value n) := by
    refine everyOf_assignParts n hvalue ?_ (by simp)
    rintro k ts (rfl | rfl | ⟨rfl, -⟩) <;> simp
  have hevery : (assignTree value n).Every fun kind ts => kind = .paModuleDeclaration →
      outlineBelow tokens kind ts = outlineBelow tokens .paModuleDeclaration
      (assignParts value n) :=
    ⟨nofun, ⟨nofun, ⟨fun _ => rfl, hparts.imp fun _ _ h hm => absurd hm h⟩, trivial⟩, trivial⟩
  obtain ⟨⟨a, below⟩, ⟨rfl, hbelow⟩, heq, -⟩ := exists_outline_of_below (hat (.leaf 0))
    (V := fun a os => a.1 = .paModuleDeclaration →
      os = outlineBelow tokens .paModuleDeclaration (assignParts value n))
    (everyOf_outline (fun a ha hm => by rw [hm] at ha; cases ha) _ _ hevery) hid
  rw [heq hk, outlineBelow, if_neg (by decide)] at hbelow
  exact hbelow

/-- Formulas can be read off the syntax tree of a module with one assignment. -/
theorem legible_syntaxTree {s : GrowthSource} {m : LocationMapper} {text : PreprocessedText}
    (hm : MarkedText.ofText text = .ok s.marked)
    (hparse : (SourceGrammar.parse s.marked.tokens.toList).1 = some (assignTree value n))
    (h : syntaxTree s m (assignTree value n) = .ok t) (hvalue : value.Every IsFormulaPart) :
    t.Legible := by
  have hparts : ParseTree.EveryOf (OfOneToken .paPrimaryLiteral) (assignParts value n) := by
    refine everyOf_assignParts n hvalue ?_ (by simp [OfOneToken])
    rintro k ts (rfl | rfl | ⟨rfl, hts⟩)
    · exact nofun
    · exact nofun
    · obtain ⟨i, rfl⟩ := hts
      exact fun _ => ⟨i, _, rfl, .leaf⟩
  have hevery : (assignTree value n).Every (OfOneToken .paPrimaryLiteral) :=
    ⟨nofun, ⟨nofun, ⟨nofun, hparts⟩, trivial⟩, trivial⟩
  obtain ⟨-, g, rows, -, he, hg, ha, -⟩ := Growth.ofTree_of_parse hm hparse
  have hsound := (finished_syntaxTree h he hg ha).sound
  refine ⟨fun p q hq => ⟨(hsound.grounded p q hq).1, hsound.linked.contains p q hq⟩, fun id => ?_⟩
  exact children_of_spared hm hparse h (by decide) hevery

/-- **The table of the module** holds its assignment. -/
theorem holdsAssign {f : Formula} {value : ParseTree} {s : GrowthSource} {m : LocationMapper}
    {text : PreprocessedText} (hm : MarkedText.ofText text = .ok s.marked)
    (htokens : s.marked.tokens = (SourceToken.ofText f.moduleText).toArray)
    (hparse : (SourceGrammar.parse s.marked.tokens.toList).1 = some (assignTree value n))
    (hf : f.Reads (FormulaWord.Stands (SourceToken.ofText f.moduleText).toArray) value)
    (hframe : frame n ⊆ SourceGrammar.visible (SourceToken.ofText f.moduleText))
    (h : syntaxTree s m (assignTree value n) = .ok t) :
    t.HoldsAssign (s.library ++ "@" ++ "m") f := by
  have hshape := htokens ▸ allAt_syntaxTree hm hparse h
  have hlegible := legible_syntaxTree hm hparse h hf.every
  refine ⟨?_, fun id hid hk => items_of_assignParts hlegible hf hid hframe
    (allAt_assignParts hf.every hshape hid hk)⟩
  have hdeclared := declared_syntaxTree (by decide) h
  rw [htokens] at hdeclared
  exact hdeclared.trans (congrArg (inLibrary s.library) (declarations_assignTree f hf.every n))

end Formula

/-! ### From the text to the design -/

/-- A text without marks can be paired. -/
theorem exists_ofText_of_unmarked {p : PreprocessedText}
    (h : ∀ token ∈ SourceToken.ofText p.text, token.kind.isMark = false) :
    ∃ m, MarkedText.ofText p = .ok m := by
  rw [ofText_iff]
  have hnone : marksRead p.text = [] := by
    rw [marksRead, List.filter_eq_nil_iff, List.forall_mem_map]
    exact fun token htoken => by simp [kindText, h token htoken]
  rw [hnone]
  exact rfl

/-- Where all tokens are known and the grammar met no fault, there is nothing to report. -/
theorem sourceDiagnostics_eq_nil {m : LocationMapper} {tokens : Array SourceToken}
    {visible : List (Nat × SourceKind)} (h : ∀ token ∈ tokens.toList, token.kind ≠ .unknown) :
    sourceDiagnostics m tokens visible [] = [] := by
  have hknown : tokens.toList.zipIdx.filter (fun t => t.1.kind == .unknown) = [] := by
    rw [List.filter_eq_nil_iff]
    exact fun t ht => by simpa using h t.1 (List.fst_mem_of_mem_zipIdx ht)
  simp [sourceDiagnostics, hknown]

/-- **A text that is read without a fault** becomes a file whose nodes are its syntax tree, and
nothing is reported. -/
theorem SourceFile.ofPreprocessed_of_parse {p : PreprocessedText} {marked : MarkedText}
    {tree : ParseTree} {t : NodeTable} {s : Session} (hm : MarkedText.ofText p = .ok marked)
    (hknown : ∀ token ∈ marked.tokens.toList, token.kind ≠ .unknown)
    (hparse : SourceGrammar.parse marked.tokens.toList = (some tree, []))
    (ht : syntaxTree ⟨marked, s.config.library, s.config.keepBlanks⟩
      ⟨marked.offsets, p.lines, p.file, s.config.preprocessedPlaces⟩ tree = .ok t) :
    ∃ file, ofPreprocessed p s = .ok file s ∧ file.nodes = t := by
  refine ⟨⟨p.file, t, p, marked.offsets⟩, ?_, rfl⟩
  unfold ofPreprocessed
  rw [hm]
  dsimp only
  rw [Step.bind_get]
  simp only [hparse, sourceDiagnostics_eq_nil hknown, List.forIn_nil, pure_bind, ht]
  rfl

namespace Formula

/-- **Whatever formula a module assigns, it comes back from the compiled design**: nothing is
reported on the way, and the right side of the only assignment shows the formula. -/
theorem compile_moduleText (f : Formula) (path : String) (s : Session) :
    ∃ file design ir d, SourceFile.ofText path f.moduleText s = .ok file s ∧
      compileDesign [file] s = .ok (design, ir) s ∧
      design.definitions.get? (s.config.library ++ "@" ++ "m") = some d ∧
      Compiling.OnlyAssigns f d ir := by
  obtain ⟨p, hp, htext⟩ := preprocessText_of_plain f.isPlain_moduleText path s
  obtain ⟨marked, hm⟩ := exists_ofText_of_unmarked (p := p) fun token htoken =>
    (f.kinds_moduleText token (htext ▸ htoken)).1
  have htokens : marked.tokens = (SourceToken.ofText f.moduleText).toArray := by
    rw [(MarkedText.ofText_eq hm).2.1, htext]
  obtain ⟨value, n, hparse, hreads, hframe⟩ := f.parse_moduleText
  have hparse' : SourceGrammar.parse marked.tokens.toList = (some (assignTree value n), []) := by
    rw [htokens, List.toList_toArray, hparse]
  have htree : (SourceGrammar.parse marked.tokens.toList).1 = some (assignTree value n) :=
    congrArg Prod.fst hparse'
  obtain ⟨t, ht⟩ := syntaxTree_of_parse (s := ⟨marked, s.config.library, s.config.keepBlanks⟩)
    ⟨marked.offsets, p.lines, p.file, s.config.preprocessedPlaces⟩ hm htree
  have hknown : ∀ token ∈ marked.tokens.toList, token.kind ≠ .unknown := by
    rw [htokens]
    exact fun token htoken => (f.kinds_moduleText token htoken).2
  obtain ⟨file, hfile, rfl⟩ := SourceFile.ofPreprocessed_of_parse hm hknown hparse' ht
  obtain ⟨design, ir, d, hdesign, hd, ha⟩ := compileDesign_of_holdsAssign s
    (declares_syntaxTree (s := ⟨marked, _, _⟩) hm htree ht)
    (holdsAssign (s := ⟨marked, _, _⟩) hm htokens htree hreads hframe ht)
  exact ⟨file, design, ir, d, SourceFile.ofText_of_ofPreprocessed hp hfile, hdesign, hd, ha⟩

end Formula

end Verilog
