import Verilog.Proofs.Expr.Total
import Verilog.Proofs.Generate.Read

/-!
# The parts of generate constructs

In a table that is made as the grammar says it is known what stands below each node of a generate
construct: the parts that a reader looks for are there, in this order, and there are no others.
-/

namespace Verilog

open SourceGrammar Grammar

/-! ### Rows of parts of one kind -/

/-- Turns of one part each are parts of one kind. -/
theorem eq_of_mem_turns {k k' : NodeKind} {turns : List (List NodeKind)}
    (h : ∀ us ∈ turns, us = [k]) (hk : k' ∈ turns.flatten) : k' = k := by
  obtain ⟨us, hus, hk⟩ := List.mem_flatten.mp hk
  rw [h us hus] at hk
  exact List.mem_singleton.mp hk

theorem isStep_of_mem {k : SourceKind} (hk : k ∈ stepOperators) (front : Bool) :
    ∃ kind, leafKindIn? k .paGenvarIteration front = some kind ∧
      (kind = .paIncDecPlusPlus ∨ kind = .paIncDecMinusMinus) := by
  simp only [stepOperators, List.mem_cons, List.not_mem_nil, or_false] at hk
  rcases hk with rfl | rfl
  · exact ⟨_, rfl, .inl rfl⟩
  · exact ⟨_, rfl, .inr rfl⟩

/-- Every operator after the variable of a loop assigns something. -/
theorem exists_assignmentOperator {k : SourceKind} (hk : k ∈ assignmentOperators) (front : Bool) :
    ∃ kind o, leafKindIn? k .paGenvarIteration front = some kind ∧
      kind.assignmentOperator? = some o := by
  simp only [assignmentOperators, List.mem_cons, List.not_mem_nil, or_false] at hk
  rcases hk with rfl | rfl | rfl | rfl | rfl | rfl | rfl | rfl | rfl | rfl | rfl | rfl | rfl <;>
    exact ⟨_, _, rfl, rfl⟩

/-- The word before the instances of a gate names it. -/
theorem exists_gateName {k : SourceKind} (hk : k ∈ gates) (front : Bool) :
    ∃ kind name, leafKindIn? k .paGateInstantiation front = some kind ∧
      NodeTable.gateName? kind = some name := by
  simp only [gates, List.mem_cons, List.not_mem_nil, or_false] at hk
  rcases hk with rfl | rfl | rfl | rfl | rfl | rfl <;> exact ⟨_, _, rfl, rfl⟩

namespace NodeTable

namespace WellMade

variable {t : NodeTable} {id : NodeId} (ht : t.WellMade) (hid : t.Below t.root id)

include ht hid

/-! ### Constructs -/

theorem kinds_conditional (hk : t.kind id = .paConditionalGenerateConstruct) :
    (t.shape id).map t.kind = [.paIfGenerateConstruct] ∨
      (t.shape id).map t.kind = [.paCaseGenerateConstruct] :=
  ht.parts id hid (alt ifGenerate caseGenerate) (by rw [hk]; rfl)

theorem kinds_ifGenerate (hk : t.kind id = .paIfGenerateConstruct) :
    (t.shape id).map t.kind = [.paIf, .paConstantExpression, .paGenerateBlock] ∨
      (t.shape id).map t.kind =
        [.paIf, .paConstantExpression, .paGenerateBlock, .paElse, .paGenerateBlock] := by
  have hparts := ht.parts id hid (inside ifGenerate) (by rw [hk]; rfl)
  rw [hk] at hparts
  simpa [inside, ifGenerate, rule, all, parens, generateBlock, expression, expressionKind, Parts,
    shows, leafKindIn?, SourceKind.leafKind?, NodeKind.isExpression] using hparts

theorem kinds_caseGenerate (hk : t.kind id = .paCaseGenerateConstruct) :
    ∃ items, (t.shape id).map t.kind = .paConstantExpression :: items ∧
      ∀ k ∈ items, k = .paCaseGenerateItem := by
  have hparts := ht.parts id hid (inside caseGenerate) (by rw [hk]; rfl)
  rw [hk] at hparts
  obtain ⟨turns, hturns, hrow⟩ : ∃ turns : List (List NodeKind),
      (∀ us ∈ turns, us = [.paCaseGenerateItem]) ∧
        (t.shape id).map t.kind = .paConstantExpression :: turns.flatten := by
    simpa [inside, caseGenerate, rule, all, parens, expression, expressionKind, Parts, shows,
      leafKindIn?, SourceKind.leafKind?, NodeKind.isExpression] using hparts
  exact ⟨_, hrow, fun k hk => eq_of_mem_turns hturns hk⟩

theorem kinds_caseItem (hk : t.kind id = .paCaseGenerateItem) :
    ∃ labels, (t.shape id).map t.kind = labels ++ [.paGenerateBlock] ∧
      ∀ k ∈ labels, k = .paConstantExpression := by
  have hparts := ht.parts id hid (inside caseItem) (by rw [hk]; rfl)
  rw [hk] at hparts
  have hrow : (∃ turns : List (List NodeKind), (∀ us ∈ turns, us = [.paConstantExpression]) ∧
      (t.shape id).map t.kind = turns.flatten ++ [.paGenerateBlock]) ∨
        (t.shape id).map t.kind = [.paGenerateBlock] := by
    simpa [inside, caseItem, caseLabels, commaList, generateBlock, rule, all, expression,
      expressionKind, Parts, shows, leafKindIn?, SourceKind.leafKind?,
      NodeKind.isExpression] using hparts
  rcases hrow with ⟨turns, hturns, hrow⟩ | hrow
  · exact ⟨_, hrow, fun k hk => eq_of_mem_turns hturns hk⟩
  · exact ⟨[], hrow, by simp⟩

theorem kinds_loop (hk : t.kind id = .paLoopGenerateConstruct) :
    ∃ start, (start = .paGenvarDeclAssignment ∨ start = .paGenvarInitialization) ∧
      (t.shape id).map t.kind =
        [start, .paConstantExpression, .paGenvarIteration, .paGenerateBlock] := by
  have hparts := ht.parts id hid (inside loopGenerate) (by rw [hk]; rfl)
  rw [hk] at hparts
  have hrow : (t.shape id).map t.kind =
        [.paGenvarDeclAssignment, .paConstantExpression, .paGenvarIteration, .paGenerateBlock] ∨
      (t.shape id).map t.kind =
        [.paGenvarInitialization, .paConstantExpression, .paGenvarIteration, .paGenerateBlock] := by
    simpa [inside, loopGenerate, generateBlock, rule, all, expression, expressionKind, Parts,
      shows, leafKindIn?, SourceKind.leafKind?, NodeKind.isExpression] using hparts
  rcases hrow with hrow | hrow
  · exact ⟨_, .inl rfl, hrow⟩
  · exact ⟨_, .inr rfl, hrow⟩

theorem kinds_loopStart
    (hk : t.kind id = .paGenvarDeclAssignment ∨ t.kind id = .paGenvarInitialization) :
    (t.shape id).map t.kind = [.slStringConst, .paConstantExpression] := by
  rcases hk with hk | hk
  · have hparts := ht.parts id hid (inside genvarDeclAssignment) (by rw [hk]; rfl)
    rw [hk] at hparts
    obtain ⟨_, _, rfl, ⟨_, _, ⟨k, hname, rfl⟩, ⟨_, _, rfl, rfl, rfl⟩, rfl⟩, heq⟩ := hparts
    simp only [leafKindIn?_identifier hname] at heq
    exact heq
  · have hparts := ht.parts id hid (inside genvarInitialization) (by rw [hk]; rfl)
    rw [hk] at hparts
    obtain ⟨_, _, ⟨k, hname, rfl⟩, ⟨_, _, rfl, rfl, rfl⟩, heq⟩ := hparts
    simp only [leafKindIn?_identifier hname] at heq
    exact heq

theorem kinds_loopStep (hk : t.kind id = .paGenvarIteration) :
    (∃ op o, op.assignmentOperator? = some o ∧
      (t.shape id).map t.kind = [.slStringConst, op, .paConstantExpression]) ∨
    ∃ step, (step = .paIncDecPlusPlus ∨ step = .paIncDecMinusMinus) ∧
      ((t.shape id).map t.kind = [.slStringConst, step] ∨
        (t.shape id).map t.kind = [step, .slStringConst]) := by
  have hparts := ht.parts id hid (inside genvarIteration) (by rw [hk]; rfl)
  rw [hk] at hparts
  rcases hparts with ⟨_, _, ⟨k, hname, rfl⟩, ⟨_, _, ⟨k', hop, rfl⟩, rfl, rfl⟩, heq⟩ |
    ⟨_, _, ⟨k, hname, rfl⟩, ⟨k', hop, rfl⟩, heq⟩ | ⟨_, _, ⟨k', hop, rfl⟩, ⟨k, hname, rfl⟩, heq⟩
  · obtain ⟨op, o, hleaf, ho⟩ := exists_assignmentOperator (by simpa using hop) false
    simp only [leafKindIn?_identifier hname, hleaf] at heq
    exact .inl ⟨op, o, ho, heq⟩
  · obtain ⟨step, hleaf, hstep⟩ := isStep_of_mem (by simpa using hop) false
    simp only [leafKindIn?_identifier hname, hleaf] at heq
    exact .inr ⟨step, hstep, .inl heq⟩
  · obtain ⟨step, hleaf, hstep⟩ := isStep_of_mem (by simpa using hop) false
    simp only [leafKindIn?_identifier hname, hleaf] at heq
    exact .inr ⟨step, hstep, .inr heq⟩

/-! ### Blocks -/

/-- A block is a row of items between `begin` and `end`, or made of one item at most. -/
theorem kinds_generateBlock (hk : t.kind id = .paGenerateBlock) :
    (t.shape id).map t.kind = [.paGenerateBeginEndBlock] ∨ ItemRow ((t.shape id).map t.kind) :=
  ht.block id hid hk

/-- Between the names before the items and the one after them there are items only. -/
theorem kinds_beginEnd (hk : t.kind id = .paGenerateBeginEndBlock) :
    ∃ labels items ends, (t.shape id).map t.kind = labels ++ items ++ ends ∧
      (∀ k ∈ labels, k = .slStringConst) ∧ (∀ k ∈ items, k.isBracket = false) ∧
      ∀ k ∈ ends, k = .paEndLabel := by
  have hparts := ht.parts id hid (inside generateBeginEnd) (by rw [hk]; rfl)
  rw [hk] at hparts
  obtain ⟨before, _, hbefore, ⟨_, _, rfl, ⟨label, _, hlabel, ⟨_, ends, ⟨turns, hturns, rfl⟩,
    ⟨_, _, rfl, hends, rfl⟩, rfl⟩, rfl⟩, rfl⟩, heq⟩ := hparts
  have hcolon : leafKindIn? .colon .paGenerateBeginEndBlock false = none := rfl
  have hbegin : leafKindIn? .kwBegin .paGenerateBeginEndBlock false = none := rfl
  refine ⟨before ++ label, turns.flatten, ends, ?_, fun k hmem => ?_, fun k hmem => ?_,
    fun k hmem => ?_⟩
  · simpa only [hbegin, Option.toList_none, List.nil_append, List.append_assoc] using heq
  · rcases List.mem_append.mp hmem with hmem | hmem
    · rcases hbefore with rfl | ⟨_, _, ⟨_, hname, rfl⟩, rfl, rfl⟩
      · simp at hmem
      · simp only [leafKindIn?_identifier hname, hcolon] at hmem
        simpa using hmem
    · rcases hlabel with rfl | ⟨_, _, rfl, ⟨_, hname, rfl⟩, rfl⟩
      · simp at hmem
      · simp only [leafKindIn?_identifier hname, hcolon] at hmem
        simpa using hmem
  · obtain ⟨us, hus, hmem⟩ := List.mem_flatten.mp hmem
    rcases hturns us hus with rfl | ⟨_, rfl, hitem⟩
    · simp at hmem
    · rwa [List.mem_singleton.mp hmem]
  · rcases hends with rfl | rfl
    · simp at hmem
    · exact List.mem_singleton.mp hmem

/-! ### Items -/

theorem kinds_netAssignment (hk : t.kind id = .paNetAssignment) :
    (t.shape id).map t.kind = [.paNetLvalue, .paExpression] := by
  have hparts := ht.parts id hid (inside netAssignment) (by rw [hk]; rfl)
  rw [hk] at hparts
  simpa [inside, netAssignment, rule, all, expression, expressionKind, Parts, shows, leafKindIn?,
    SourceKind.leafKind?, NodeKind.isExpression] using hparts

/-- What makes instances of a module begins with the name of the module. -/
theorem kinds_moduleInstantiation (hk : t.kind id = .paModuleInstantiation) :
    ∃ more, (t.shape id).map t.kind = .slStringConst :: more := by
  have hparts := ht.parts id hid (inside moduleInstantiation) (by rw [hk]; rfl)
  rw [hk] at hparts
  obtain ⟨_, more, ⟨k, hname, rfl⟩, -, heq⟩ := hparts
  simp only [leafKindIn?_identifier hname] at heq
  exact ⟨more, heq⟩

theorem kinds_hierarchicalInstance (hk : t.kind id = .paHierarchicalInstance) :
    ∃ more, (t.shape id).map t.kind = .paNameOfInstance :: more := by
  have hparts := ht.parts id hid (inside hierarchicalInstance) (by rw [hk]; rfl)
  obtain ⟨_, more, rfl, -, heq⟩ := hparts
  exact ⟨more, heq⟩

/-- What makes instances of a gate begins with the word for the gate. -/
theorem exists_gate (hk : t.kind id = .paGateInstantiation) :
    ∃ word more name, t.shape id = word :: more ∧ gateName? (t.kind word) = some name := by
  have hparts := ht.parts id hid (inside gateInstantiation) (by rw [hk]; rfl)
  rw [hk] at hparts
  obtain ⟨_, _, ⟨k, hgate, rfl⟩, -, heq⟩ := hparts
  obtain ⟨kind, name, hleaf, hname⟩ := exists_gateName (by simpa using hgate) false
  simp only [hleaf] at heq
  obtain ⟨word, more, hs, rfl, -⟩ := List.map_eq_cons_iff.mp heq
  exact ⟨word, more, name, hs, hname⟩

end WellMade

end NodeTable

end Verilog
