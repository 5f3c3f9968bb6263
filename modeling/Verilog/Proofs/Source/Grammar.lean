import Verilog.Proofs.Grammar.Leaves
import Verilog.Source.Grammar.Text
import Verilog.Source.Lexicon

/-!
# What the trees of source text are made of

The grammar of source text is orderly: the functions that it applies to trees, which group operands
by their operators and the ports of a modport by their directions, put nodes around trees and never
move a leaf. So the leaves of its trees are tokens that the grammar sees, each at most once and in
the order of the text (`SourceGrammar.leaves_of_parse`), and no node is labelled as a comment, a
blank or a mark.
-/

namespace Verilog

namespace SourceGrammar

open Grammar ParseTree

/-- A grammar that is orderly and names no kinds of comments, blanks and marks. -/
abbrev Shapely (g : SourceGrammar) : Prop := g.Orderly fun k => k.isTrivia = false

/-! ### Functions on trees -/

theorem leavesAll_groupLeft (kind : NodeKind) (ts : List ParseTree) :
    leavesAll (groupLeft kind ts) = leavesAll ts := by
  induction ts using groupLeft.induct kind with
  | case1 left operator right more ih =>
    rw [groupLeft, ih]
    simp [leavesAll, leaves]
  | case2 ts h => rw [groupLeft.eq_2 _ _ h]

theorem kindsAll_groupLeft {P : NodeKind → Prop} {kind : NodeKind} (hk : P kind)
    (ts : List ParseTree) (hts : ∀ k ∈ kindsAll ts, P k) :
    ∀ k ∈ kindsAll (groupLeft kind ts), P k := by
  induction ts using groupLeft.induct kind with
  | case1 left operator right more ih =>
    rw [groupLeft]
    refine ih fun k h => ?_
    simp only [kindsAll, kinds, List.cons_append, List.append_nil, List.mem_cons,
      List.mem_append] at h hts
    rcases h with rfl | (h | h | h) | h
    · exact hk
    all_goals exact hts k (by simp [h])
  | case2 ts h => rwa [groupLeft.eq_2 _ _ h]

theorem leavesAll_wrapConditional (kind : NodeKind) (ts : List ParseTree) :
    leavesAll (wrapConditional kind ts) = leavesAll ts := by
  unfold wrapConditional
  split <;> simp [leavesAll, leaves]

theorem kindsAll_wrapConditional {P : NodeKind → Prop} {kind : NodeKind} (hk : P kind)
    (ts : List ParseTree) (hts : ∀ k ∈ kindsAll ts, P k) :
    ∀ k ∈ kindsAll (wrapConditional kind ts), P k := by
  unfold wrapConditional
  split
  · exact hts
  · intro k h
    rcases List.mem_cons.mp (by simpa [kindsAll, kinds] using h) with rfl | h
    · exact hk
    · exact hts k h

theorem takeWhile_append_drop (p : ParseTree → Bool) (ts : List ParseTree) :
    ts.takeWhile p ++ ts.drop (ts.takeWhile p).length = ts :=
  List.prefix_iff_eq_append.mp (List.takeWhile_prefix p)

theorem leavesAll_groupModportEntries (ts : List ParseTree) :
    leavesAll (groupModportEntries ts) = leavesAll ts := by
  induction ts using groupModportEntries.induct with
  | case1 => rw [groupModportEntries]
  | case2 k n more ih =>
    rw [groupModportEntries]
    simp [leavesAll, leaves, ih]
  | case3 d more h ports ih =>
    rw [groupModportEntries.eq_3 _ _ h]
    simp only [leavesAll, leaves, List.append_nil]
    rw [ih, List.append_assoc, ← leavesAll_append, takeWhile_append_drop]
  | case4 port more h h' ports ih =>
    rw [groupModportEntries.eq_4 _ _ h h']
    simp only [leavesAll, leaves, List.append_nil]
    rw [ih, List.append_assoc, ← leavesAll_append, takeWhile_append_drop]

/-- The kinds in a list of trees are those in the front of it and in the rest. -/
theorem forall_kindsAll_split {P : NodeKind → Prop} (p : ParseTree → Bool) (ts : List ParseTree) :
    (∀ k ∈ kindsAll ts, P k) ↔ (∀ k ∈ kindsAll (ts.takeWhile p), P k) ∧
      ∀ k ∈ kindsAll (ts.drop (ts.takeWhile p).length), P k := by
  conv_lhs => rw [← takeWhile_append_drop p ts, kindsAll_append]
  simp only [List.mem_append, or_imp, forall_and]

theorem kindsAll_groupModportEntries {P : NodeKind → Prop} (hd : P .paModportPortsDeclaration)
    (hc : P .paModportClockingDeclaration) (hs : P .paModportSimplePortsDeclaration)
    (ts : List ParseTree) (hts : ∀ k ∈ kindsAll ts, P k) :
    ∀ k ∈ kindsAll (groupModportEntries ts), P k := by
  induction ts using groupModportEntries.induct with
  | case1 => rwa [groupModportEntries]
  | case2 k n more ih =>
    rw [groupModportEntries]
    simp only [kindsAll, kinds, List.nil_append] at hts
    simpa [kindsAll, kinds] using ⟨hd, hc, ih hts⟩
  | case3 d more h ports ih =>
    rw [groupModportEntries.eq_3 _ _ h]
    simp only [kindsAll, kinds, List.nil_append] at hts
    obtain ⟨hports, hrest⟩ := (forall_kindsAll_split (·.kind?.isSome) more).mp hts
    simp only [kindsAll, kinds, List.nil_append, List.cons_append, List.append_nil,
      List.forall_mem_cons, List.forall_mem_append]
    exact ⟨hd, hs, hports, ih hrest⟩
  | case4 port more h h' ports ih =>
    rw [groupModportEntries.eq_4 _ _ h h']
    simp only [kindsAll, List.forall_mem_append] at hts
    obtain ⟨hports, hrest⟩ := (forall_kindsAll_split (·.kind?.isSome) more).mp hts.2
    simp only [kindsAll, kinds, List.cons_append, List.append_nil, List.forall_mem_cons,
      List.forall_mem_append]
    exact ⟨hd, hs, ⟨hts.1, hports⟩, ih hrest⟩

/-! ### The productions -/

theorem isTrivia_expressionKind (constant : Bool) : (expressionKind constant).isTrivia = false := by
  cases constant <;> rfl

theorem isTrivia_primaryKind (constant : Bool) : (primaryKind constant).isTrivia = false := by
  cases constant <;> rfl

theorem shapely_reference (constant : Bool) : Shapely (reference constant) := by
  simp +decide [reference, scope, select, identifier, expression]

theorem shapely_systemCall (constant : Bool) : Shapely (systemCall constant) := by
  simp +decide [systemCall, callArguments, parens, commaList, expression]

theorem shapely_primary (constant : Bool) : Shapely (primary constant) := by
  simp +decide [primary, isTrivia_primaryKind, multipleConcatenation, concatenation,
    shapely_systemCall,
    shapely_reference, callArguments, literal, identifier, parens, commaList, expression]

theorem shapely_unary (constant : Bool) : Shapely (unary constant) := by
  simp +decide [unary, isTrivia_expressionKind, shapely_primary]

theorem shapely_binary (constant : Bool) : Shapely (binary constant) := by
  refine binary_induction ?_ fun tighter operators h => ?_
  · simp +decide [operand, shapely_unary, shapely_primary, isTrivia_expressionKind]
  · refine ⟨leavesAll_groupLeft _, kindsAll_groupLeft (isTrivia_expressionKind constant), ?_⟩
    simp +decide [Orderly, h]

theorem shapely_conditional (constant : Bool) : Shapely (conditional constant) := by
  refine ⟨leavesAll_wrapConditional _,
    kindsAll_wrapConditional (isTrivia_expressionKind constant), ?_⟩
  simp +decide [shapely_binary, expression]

theorem shapely_dataType : Shapely dataType := by
  simp +decide [dataType, signing, packedDimension, constantRange, scope, identifier, expression]

theorem shapely_typed {a : SourceGrammar} (ha : Shapely a) :
    Shapely (typed a) := by
  simp +decide [typed, implicitType, shapely_dataType, signing, packedDimension, constantRange,
    expression,
    ha]

theorem shapely_unpackedDimension : Shapely unpackedDimension := by
  simp +decide [unpackedDimension, constantRange, expression]

theorem shapely_declared {kind : NodeKind} {value : SourceGrammar} (hk : kind.isTrivia = false)
    (hv : Shapely value) : Shapely (declared kind value) := by
  simp +decide [declared, shapely_unpackedDimension, identifier, hk, hv]

theorem shapely_lvalue : Shapely lvalue := by
  simp +decide [lvalue, shapely_reference, concatenation, commaList, expression]

theorem shapely_ports : Shapely ports := by
  simp +decide [ports, portNames, portDeclarations, parens, commaList, identifier, shapely_typed,
    shapely_unpackedDimension, expression]

theorem shapely_parameterPorts : Shapely parameterPorts := by
  simp +decide [parameterPorts, parens, commaList, shapely_typed, shapely_declared, expression]

theorem shapely_assignment : Shapely assignment := by
  simp +decide [assignment, variableLvalue, shapely_lvalue, expression]

theorem shapely_caseLabels (constant : Bool) : Shapely (caseLabels constant) := by
  simp +decide [caseLabels, commaList, expression]

theorem shapely_forLoop : Shapely forLoop := by
  simp +decide [forLoop, commaList, identifier, shapely_dataType, shapely_assignment, statement,
    expression]

theorem shapely_statementBody : Shapely statementBody := by
  simp +decide [statementBody, blockLabel, identifier, parens, commaList, caseStatement,
    shapely_caseLabels, shapely_forLoop, eventControl, delayControl, shapely_assignment,
    variableLvalue, shapely_lvalue, shapely_systemCall, shapely_reference, callArguments,
    statement, expression]

theorem shapely_opaqueConstruct {kind : NodeKind} {opening : List SourceGrammar}
    {close : SourceKind} (hk : kind.isTrivia = false) (ho : ∀ a ∈ opening, Shapely a) :
    Shapely (opaqueConstruct kind opening close) := by
  simpa +decide [opaqueConstruct, opaqueUntil, endLabel, identifier, hk,
    or_imp, forall_and] using ho

theorem shapely_braces : Shapely braces := by simp +decide [braces]

theorem shapely_opaqueStatement : Shapely opaqueStatement := by
  simp +decide [opaqueStatement, shapely_braces]

theorem shapely_directionDeclaration {k : SourceKind} {kind : NodeKind}
    (hk : kind.isTrivia = false) : Shapely (directionDeclaration k kind) := by
  simp +decide [directionDeclaration, commaList, identifier, shapely_typed,
    shapely_unpackedDimension, hk]

theorem shapely_parameterDeclaration {k : SourceKind} {kind : NodeKind}
    (hk : kind.isTrivia = false) : Shapely (parameterDeclaration k kind) := by
  simp +decide [parameterDeclaration, commaList, shapely_typed, shapely_declared, expression, hk]

theorem shapely_declarations : Shapely netDeclaration ∧ Shapely dataDeclaration ∧
    Shapely bareName ∧ Shapely continuousAssign := by
  simp +decide [netDeclaration, dataDeclaration, bareName, continuousAssign, commaList, identifier,
    shapely_typed, shapely_declared, shapely_dataType, shapely_lvalue, expression]

theorem shapely_instances : Shapely moduleInstantiation ∧ Shapely gateInstantiation := by
  simp +decide [moduleInstantiation, gateInstantiation, parameterValues, connections, parens,
    commaList, identifier, shapely_unpackedDimension, expression]

theorem shapely_modportDeclaration : Shapely modportDeclaration := by
  have hk := kindsAll_groupModportEntries (P := fun k => k.isTrivia = false) rfl rfl rfl
  simpa +decide [modportDeclaration, modportPort, parens, commaList, identifier, expression,
     orderly_map, leavesAll_groupModportEntries] using hk

theorem shapely_generate : Shapely ifGenerate ∧ Shapely caseGenerate ∧ Shapely loopGenerate ∧
    Shapely generateRegion := by
  simp +decide [ifGenerate, caseGenerate, loopGenerate, generateRegion, generateBlock,
    generateBeginEnd, blockLabel, endLabel, parens, identifier, shapely_caseLabels, item,
    expression]

theorem shapely_itemBody : Shapely itemBody := by
  simp +decide [itemBody, soundItem, portDeclaration, shapely_directionDeclaration,
    shapely_parameterDeclaration, shapely_opaqueStatement, commaList, identifier,
    shapely_declarations, statement, shapely_generate, shapely_modportDeclaration,
    shapely_opaqueConstruct, shapely_instances]

theorem shapely_text : Shapely text := by
  simp +decide [text, description, container, header, primitive, package, opaqueUntil, endLabel,
    shapely_ports, shapely_parameterPorts, shapely_opaqueConstruct, shapely_itemBody, identifier,
    item]

theorem shapely_rules : ∀ x, Shapely (rules x)
  | .expression true => shapely_conditional true
  | .expression false => shapely_conditional false
  | .unary true => shapely_unary true
  | .unary false => shapely_unary false
  | .braces => shapely_braces
  | .statement => shapely_statementBody
  | .item => shapely_itemBody

/-! ### Trees of whole texts -/

/-- A token that the grammar sees. -/
theorem mem_visible {tokens : List SourceToken} {i : Nat} (h : i ∈ (visible tokens).map (·.1)) :
    ∃ token, tokens[i]? = some token ∧ token.kind.isHidden = false := by
  obtain ⟨⟨j, kind⟩, hmem, rfl⟩ := List.mem_map.mp h
  obtain ⟨hmem, hkind⟩ := List.mem_filter.mp hmem
  obtain ⟨⟨token, j'⟩, ht, he⟩ := List.mem_map.mp hmem
  obtain ⟨rfl, rfl⟩ := Prod.mk.inj he
  exact ⟨token, List.mk_mem_zipIdx_iff_getElem?.mp ht, by simpa using hkind⟩

theorem pairwise_visible (tokens : List SourceToken) :
    ((visible tokens).map (·.1)).Pairwise (· < ·) := by
  have h : ((visible tokens).map (·.1)).Sublist (List.range tokens.length) := by
    refine ((List.filter_sublist).map _).trans ?_
    simp [List.map_map, Function.comp_def, List.range_eq_range']
  exact List.pairwise_lt_range.sublist h

/-- **The tree of a text**: a node for the whole of it, whose leaves are tokens that the grammar
sees, in the order of the text, and whose nodes are no comments, blanks and marks. -/
theorem tree_of_parse {tokens : List SourceToken} {tree : ParseTree}
    (h : (parse tokens).1 = some tree) :
    tree.kind? = some .paTopLevelRule ∧ tree.leaves.Pairwise (· < ·) ∧
      (∀ i ∈ tree.leaves, ∃ token, tokens[i]? = some token ∧ token.kind.isHidden = false) ∧
      ∀ k ∈ tree.kinds, k.isTrivia = false := by
  simp only [parse] at h
  obtain ⟨trees, htrees, hhead⟩ := Option.bind_eq_some_iff.mp h
  obtain ⟨hl, hk⟩ := sublist_of_parse shapely_rules shapely_text htrees
  obtain ⟨ts, rfl⟩ := eq_node_of_parse htrees
  obtain rfl : ParseTree.node .paTopLevelRule ts = tree := by simpa using hhead
  simp only [leavesAll, List.append_nil] at hl
  simp only [kindsAll, List.append_nil] at hk
  exact ⟨rfl, (pairwise_visible tokens).sublist hl, fun i hi => mem_visible (hl.subset hi), hk⟩

end SourceGrammar

end Verilog
