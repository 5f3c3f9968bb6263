import Verilog.Proofs.Source.Opening

/-!
# What productions of source text are made of

For many kinds all nodes are made by one production, so in a tree of source text the parts of such a
node are what the grammar of that production makes. Expressions are made by several productions, and
by functions that regroup trees, but there are only four ways in which one is put together
(`SourceGrammar.Operation`). Both are known of all nodes of a tree (`SourceGrammar.made_parse`).
-/

namespace Verilog

namespace SourceGrammar

open Grammar ParseTree

variable {tokens : List (Nat × SourceKind)} {g : SourceGrammar} {constant : Bool}

/-! ### Productions that are the only ones of their kind -/

/-- What is inside of a production. -/
def inside : SourceGrammar → SourceGrammar
  | .node _ a => a
  | a => a

/-- The items of a case construct. -/
def caseItem : SourceGrammar := rule .paCaseGenerateItem [caseLabels true, generateBlock]

/-- The assignment of one net. -/
def netAssignment : SourceGrammar :=
  rule .paNetAssignment [node .paNetLvalue lvalue, token .equals, expression false]

/-- An instance of a module. -/
def hierarchicalInstance : SourceGrammar :=
  rule .paHierarchicalInstance
    [rule .paNameOfInstance [identifier, many 0 unpackedDimension], parens [connections]]

/-- How a loop begins where its variable is declared there. -/
def genvarDeclAssignment : SourceGrammar :=
  rule .paGenvarDeclAssignment [token .kwGenvar, identifier, token .equals, expression true]

/-- How a loop begins where its variable has been declared before. -/
def genvarInitialization : SourceGrammar :=
  rule .paGenvarInitialization [identifier, token .equals, expression true]

/-- What a loop does after each turn. -/
def genvarIteration : SourceGrammar :=
  node .paGenvarIteration (choice [
    all [identifier, oneOf assignmentOperators, expression true],
    seq identifier (oneOf stepOperators),
    seq (oneOf stepOperators) identifier])

/-- What a node of a kind is made of, for kinds of which there is one production. -/
def body? : NodeKind → Option SourceGrammar
  | .paPrimary => some (inside (primary false))
  | .paConstantPrimary => some (inside (primary true))
  | .paPrimaryLiteral => some (inside literal)
  | .paStringValue => some (token .stringLiteral)
  | .paNetAssignment => some (inside netAssignment)
  | .paNetLvalue => some lvalue
  | .paHierarchicalInstance => some (inside hierarchicalInstance)
  | .paModuleInstantiation => some (inside moduleInstantiation)
  | .paGateInstantiation => some (inside gateInstantiation)
  | .paConditionalGenerateConstruct => some (alt ifGenerate caseGenerate)
  | .paIfGenerateConstruct => some (inside ifGenerate)
  | .paCaseGenerateConstruct => some (inside caseGenerate)
  | .paCaseGenerateItem => some (inside caseItem)
  | .paLoopGenerateConstruct => some (inside loopGenerate)
  | .paGenerateBeginEndBlock => some (inside generateBeginEnd)
  | .paGenvarDeclAssignment => some (inside genvarDeclAssignment)
  | .paGenvarInitialization => some (inside genvarInitialization)
  | .paGenvarIteration => some (inside genvarIteration)
  | .paVariableLvalue => some lvalue
  | .paOperatorAssignment => some (all [assignment, token .semi])
  | .paForStep => some (commaList 0 assignment)
  | _ => none

/-- What braces around expressions are made of; there is one such production for constants, and one
for others. -/
def braced? (constant : Bool) : NodeKind → Option SourceGrammar
  | .paConcatenation => some (inside (concatenation constant))
  | .paMultipleConcatenation => some (inside (multipleConcatenation constant))
  | _ => none

variable {bodies : NodeKind → Option SourceGrammar}

/-- The productions of such kinds in a grammar. -/
def shaped (bodies : NodeKind → Option SourceGrammar) (g : SourceGrammar) :
    List (NodeKind × SourceGrammar) :=
  g.productions.filter fun r => (bodies r.1).isSome

/-- Are the productions in a grammar the only ones of their kinds? -/
def OfBodies (bodies : NodeKind → Option SourceGrammar) (g : SourceGrammar) : Prop :=
  (shaped bodies g).map (fun r => bodies r.1) = (shaped bodies g).map fun r => some r.2

theorem OfBodies.eq (h : OfBodies bodies g) {r : NodeKind × SourceGrammar}
    (hr : r ∈ g.productions) {a : SourceGrammar} (ha : bodies r.1 = some a) : a = r.2 := by
  have hmem : r ∈ shaped bodies g := List.mem_filter.mpr ⟨hr, by simp [ha]⟩
  exact Option.some.inj (ha.symm.trans (List.map_inj_left.mp h r hmem))

theorem ofBodies_item : OfBodies body? itemBody ∧ OfBodies (braced? false) itemBody := by
  unfold OfBodies
  exact ⟨by with_unfolding_all rfl, by with_unfolding_all rfl⟩

theorem ofBodies_text : OfBodies body? text ∧ OfBodies (braced? false) text := by
  unfold OfBodies
  exact ⟨by with_unfolding_all rfl, by with_unfolding_all rfl⟩

theorem ofBodies_statement :
    OfBodies body? statementBody ∧ OfBodies (braced? false) statementBody := by
  unfold OfBodies
  exact ⟨by with_unfolding_all rfl, by with_unfolding_all rfl⟩

theorem ofBodies_operand :
    OfBodies body? (operand constant) ∧ OfBodies (braced? constant) (operand constant) := by
  unfold OfBodies
  cases constant <;> exact ⟨rfl, rfl⟩

/-! ### Expressions -/

/-- The ways in which an expression is put together. -/
inductive Operation (tokens : List (Nat × SourceKind)) : List ParseTree → Prop
  | operand (constant : Bool) (us : List ParseTree) :
      Operation tokens [.node (primaryKind constant) us]
  | unary {i : Nat} {op : SourceKind} {k : NodeKind} (hi : (i, op) ∈ tokens)
      (hop : op ∈ unaryOperators)
      (hk : k.isExpression ∨ ∃ constant, k = primaryKind constant) (us : List ParseTree) :
      Operation tokens [.leaf i, .node k us]
  | binary {i : Nat} {op : SourceKind} (hi : (i, op) ∈ tokens) (hop : op ∈ binaryLevels.flatten)
      (constant : Bool) (us vs : List ParseTree) :
      Operation tokens
        [.node (expressionKind constant) us, .leaf i, .node (expressionKind constant) vs]
  | choice {i j : Nat} (hi : (i, .question) ∈ tokens) (hj : (j, .colon) ∈ tokens)
      (constant : Bool) (us vs ws : List ParseTree) :
      Operation tokens [.node (expressionKind constant) us, .leaf i,
        .node (expressionKind constant) vs, .leaf j, .node (expressionKind constant) ws]

/-- Is something an expression by itself? -/
def IsExpression (constant : Bool) (ts : List ParseTree) : Prop :=
  ∃ us, ts = [.node (expressionKind constant) us]

/-- Operators and expressions by turns. -/
inductive OperandTurns (tokens : List (Nat × SourceKind)) (constant : Bool) : List ParseTree → Prop
  | nil : OperandTurns tokens constant []
  | cons {i : Nat} {op : SourceKind} {ts : List ParseTree} (hi : (i, op) ∈ tokens)
      (hop : op ∈ binaryLevels.flatten) (us : List ParseTree)
      (h : OperandTurns tokens constant ts) :
      OperandTurns tokens constant (.leaf i :: .node (expressionKind constant) us :: ts)

variable {ts : List ParseTree}

theorem yields_seq {a b : SourceGrammar} (h : Yields rules tokens (seq a b) ts) :
    ∃ us vs, Yields rules tokens a us ∧ Yields rules tokens b vs ∧ ts = us ++ vs := by
  cases h with
  | seq ha hb => exact ⟨_, _, ha, hb, rfl⟩

theorem yields_oneOf {ks : List SourceKind} (h : Yields rules tokens (oneOf ks) ts) :
    ∃ i k, (i, k) ∈ tokens ∧ k ∈ ks ∧ ts = [.leaf i] := by
  cases h with
  | tokenIn hmem hp => exact ⟨_, _, hmem, by simpa using hp, rfl⟩

theorem yields_token {k : SourceKind} (h : Yields rules tokens (token k) ts) :
    ∃ i, (i, k) ∈ tokens ∧ ts = [.leaf i] := by
  cases h with
  | token hmem => exact ⟨_, hmem, rfl⟩

theorem yields_primary (h : Yields rules tokens (primary constant) ts) :
    ∃ us, ts = [.node (primaryKind constant) us] := by
  cases h with
  | node => exact ⟨_, rfl⟩

theorem isExpression_unary (h : Yields rules tokens (unary constant) ts) :
    IsExpression constant ts := by
  cases h with
  | node => exact ⟨_, rfl⟩

theorem isExpression_operand (h : Yields rules tokens (operand constant) ts) :
    IsExpression constant ts := by
  cases h with
  | left h => exact isExpression_unary h
  | right h =>
    cases h with
    | node => exact ⟨_, rfl⟩

/-- What stands behind the first operand of a level. -/
theorem turns_many {operators : List SourceKind} (hops : operators ⊆ binaryLevels.flatten)
    (hg : ∀ ts, Yields rules tokens g ts → IsExpression constant ts)
    (h : Yields rules tokens (many 0 (seq (oneOf operators) g)) ts) :
    OperandTurns tokens constant ts := by
  generalize hm : many 0 (seq (oneOf operators) g) = a at h
  induction h with
  | manyNil => exact .nil
  | manyCons hhead _ _ ih =>
    cases hm
    obtain ⟨_, _, hop, hright, rfl⟩ := yields_seq hhead
    obtain ⟨i, op, hi, hmem, rfl⟩ := yields_oneOf hop
    obtain ⟨us, rfl⟩ := hg _ hright
    exact .cons hi (hops hmem) us (ih rfl)
  | _ => cases hm

/-- Grouping to the left leaves one expression. -/
theorem isExpression_groupLeft (h : OperandTurns tokens constant ts) (us : List ParseTree) :
    IsExpression constant
      (groupLeft (expressionKind constant) (.node (expressionKind constant) us :: ts)) := by
  induction h generalizing us with
  | nil => exact ⟨us, groupLeft.eq_2 _ _ (by simp)⟩
  | cons _ _ _ _ ih =>
    rw [groupLeft]
    exact ih _

section Regrouping

variable {W : NodeKind → List ParseTree → Prop}
  (hW : ∀ us, Operation tokens us → W (expressionKind constant) us)

include hW

/-- Grouping to the left makes operations. -/
theorem everyOf_groupLeft_turns (h : OperandTurns tokens constant ts) (us : List ParseTree)
    (hall : EveryOf W (.node (expressionKind constant) us :: ts)) :
    EveryOf W (groupLeft (expressionKind constant) (.node (expressionKind constant) us :: ts)) := by
  induction h generalizing us with
  | nil => rwa [groupLeft.eq_2 _ _ (by simp)]
  | cons hi hop us' _ ih =>
    obtain ⟨hleft, -, hright, hrest⟩ := hall
    rw [groupLeft]
    exact ih _ ⟨⟨hW _ (.binary hi hop constant us us'), hleft, trivial, hright, trivial⟩, hrest⟩

end Regrouping

/-- The operands and operators of a level. -/
theorem exists_turns {operators : List SourceKind} (hops : operators ⊆ binaryLevels.flatten)
    (hg : ∀ ts, Yields rules tokens g ts → IsExpression constant ts)
    (h : Yields rules tokens (seq g (many 0 (seq (oneOf operators) g))) ts) :
    ∃ us rest, ts = .node (expressionKind constant) us :: rest ∧
      OperandTurns tokens constant rest := by
  obtain ⟨_, rest, hfirst, hrest, rfl⟩ := yields_seq h
  obtain ⟨us, rfl⟩ := hg _ hfirst
  exact ⟨us, rest, rfl, turns_many hops hg hrest⟩

/-- What the levels keep of the operands holds of an expression; the operators of a level are binary
ones. -/
theorem binary_induction_operators {P : SourceGrammar → Prop} (operand : P (operand constant))
    (level : ∀ tighter operators, operators ⊆ binaryLevels.flatten → P tighter →
      P (binaryLevel constant tighter operators)) : P (binary constant) :=
  List.foldlRecOn binaryLevels (binaryLevel constant) operand fun tighter h operators hmem =>
    level tighter operators (fun _ hop => List.mem_flatten_of_mem hmem hop) h

theorem isExpression_binaryLevel {operators : List SourceKind}
    (hops : operators ⊆ binaryLevels.flatten)
    (hg : ∀ ts, Yields rules tokens g ts → IsExpression constant ts)
    (h : Yields rules tokens (binaryLevel constant g operators) ts) : IsExpression constant ts := by
  cases h with
  | map h =>
    obtain ⟨us, rest, rfl, hturns⟩ := exists_turns hops hg h
    exact isExpression_groupLeft hturns us

theorem isExpression_binary (h : Yields rules tokens (binary constant) ts) :
    IsExpression constant ts :=
  binary_induction_operators (P := fun g => ∀ ts, Yields rules tokens g ts →
    IsExpression constant ts) (fun _ => isExpression_operand)
    (fun _ _ hops hg _ => isExpression_binaryLevel hops hg) ts h

theorem isExpression_conditional (h : Yields rules tokens (conditional constant) ts) :
    IsExpression constant ts := by
  cases h with
  | map h =>
    obtain ⟨_, branches, hcondition, -, rfl⟩ := yields_seq h
    obtain ⟨us, rfl⟩ := isExpression_binary hcondition
    cases branches with
    | nil => exact ⟨us, rfl⟩
    | cons b bs => exact ⟨_, rfl⟩

/-- **Where an expression is asked for** there is one. -/
theorem isExpression_expression (h : Yields rules tokens (expression constant) ts) :
    IsExpression constant ts := by
  cases h with
  | ref h => cases constant <;> exact isExpression_conditional h

theorem isExpression_unary_ref (h : Yields rules tokens (ref (.unary constant)) ts) :
    IsExpression constant ts := by
  cases h with
  | ref h => cases constant <;> exact isExpression_unary h

/-- A condition with branches. -/
theorem operation_conditional {us vs : List ParseTree}
    (h : Yields rules tokens (binary constant) us)
    (h' : Yields rules tokens
      (all [token .question, expression constant, token .colon, expression constant]) vs) :
    Operation tokens (us ++ vs) := by
  obtain ⟨_, _, hmark, hbranches, rfl⟩ := yields_seq h'
  obtain ⟨_, _, hyes, hother, rfl⟩ := yields_seq hbranches
  obtain ⟨_, _, hcolon, hno, rfl⟩ := yields_seq hother
  obtain ⟨i, hi, rfl⟩ := yields_token hmark
  obtain ⟨j, hj, rfl⟩ := yields_token hcolon
  obtain ⟨us, rfl⟩ := isExpression_binary h
  obtain ⟨vs, rfl⟩ := isExpression_expression hyes
  obtain ⟨ws, rfl⟩ := isExpression_expression hno
  exact .choice hi hj constant us vs ws

/-- An operand with an operator before it. -/
theorem operation_unary (h : Yields rules tokens (inside (unary constant)) ts) :
    Operation tokens ts := by
  obtain ⟨_, _, hop, hoperand, rfl⟩ := yields_seq h
  obtain ⟨i, op, hi, hmem, rfl⟩ := yields_oneOf hop
  cases hoperand with
  | left h =>
    obtain ⟨us, rfl⟩ := isExpression_unary_ref h
    exact .unary hi hmem (.inl (by cases constant <;> rfl)) us
  | right h =>
    obtain ⟨us, rfl⟩ := yields_primary h
    exact .unary hi hmem (.inr ⟨constant, rfl⟩) us

/-! ### All nodes of a tree -/

/-- Is something one group of entries of a modport: ports, or a clocking block? -/
def IsModportGroup (ts : List ParseTree) : Prop :=
  ∃ kind us, ts = [.node kind us] ∧
    (kind = .paModportSimplePortsDeclaration ∨ kind = .paModportClockingDeclaration)

/-- **Is a node made as all of its kind are?** -/
structure Made (tokens : List (Nat × SourceKind)) (kind : NodeKind) (ts : List ParseTree) :
    Prop where
  body : ∀ a, body? kind = some a → Yields rules tokens a ts
  braced : ∃ constant, ∀ a, braced? constant kind = some a → Yields rules tokens a ts
  operation : kind.isExpression → Operation tokens ts
  name : kind = .paNameOfInstance → ∃ t us, ts = t :: us ∧ t.IsOf tokens .slStringConst
  group : kind = .paModportPortsDeclaration → IsModportGroup ts
  block : kind = .paGenerateBlock → Yields rules tokens (inside generateBlock) ts

/-- Of other kinds nothing is known. -/
theorem made_of_other {kind : NodeKind} (hbody : body? kind = none)
    (hbraced : braced? false kind = none)
    (hother : kind.isExpression = false ∧ kind ≠ .paNameOfInstance ∧
      kind ≠ .paModportPortsDeclaration ∧ kind ≠ .paGenerateBlock) : Made tokens kind ts :=
  ⟨fun a ha => (by rw [hbody] at ha; cases ha),
    ⟨false, fun a ha => (by rw [hbraced] at ha; cases ha)⟩,
    fun hk => (by rw [hother.1] at hk; cases hk), fun hk => absurd hk hother.2.1,
    fun hk => absurd hk hother.2.2.1, fun hk => absurd hk hother.2.2.2⟩

theorem made_expression (h : Operation tokens ts) : Made tokens (expressionKind constant) ts :=
  ⟨fun a ha => (by cases constant <;> cases ha),
    ⟨false, fun a ha => (by cases constant <;> cases ha)⟩, fun _ => h,
    fun hk => (by cases constant <;> cases hk), fun hk => (by cases constant <;> cases hk),
    fun hk => (by cases constant <;> cases hk)⟩

/-- Where entries of a modport are grouped, each group stands alone. -/
theorem made_group (h : IsModportGroup ts) : Made tokens .paModportPortsDeclaration ts :=
  ⟨nofun, ⟨false, nofun⟩, nofun, nofun, fun _ => h, nofun⟩

/-- A grammar all of whose nodes are made so. -/
abbrev UpholdsMade (tokens : List (Nat × SourceKind)) (g : SourceGrammar) : Prop :=
  g.Upholds rules tokens (Made tokens)

/-- The productions of names and of expressions in a grammar, and those that would make a group of
entries of a modport. -/
def others (g : SourceGrammar) : List (NodeKind × SourceGrammar) :=
  g.productions.filter fun r =>
    r.1.isExpression || r.1 == .paNameOfInstance || r.1 == .paModportPortsDeclaration

/-- What the blocks of generate constructs in a grammar are made of. -/
def blocks (g : SourceGrammar) : List SourceGrammar :=
  (g.productions.filter fun r => r.1 == .paGenerateBlock).map (·.2)

/-- Every block is one that may stand below a condition. -/
theorem yields_block {a : SourceGrammar} (ha : a = inside generateBlock ∨ a = generateBeginEnd)
    (h : Yields rules tokens a ts) : Yields rules tokens (inside generateBlock) ts := by
  rcases ha with rfl | rfl
  · exact h
  · exact .left h

/-- A grammar that groups at most the entries of modports. -/
theorem upholds_of_others (hbodies : OfBodies body? g ∧ OfBodies (braced? constant) g)
    (hothers : ∀ r ∈ others g, ∀ ts, Yields rules tokens r.2 ts → Made tokens r.1 ts)
    (hblocks : ∀ a ∈ blocks g, a = inside generateBlock ∨ a = generateBeginEnd)
    (hregroups : ∀ f ∈ g.regroupings, f = groupModportEntries)
    (hskips : ∀ kind ∈ g.skips, kind = .paOpaqueBody) : UpholdsMade tokens g := by
  refine ⟨fun r hr ts hts => ⟨fun a ha => hbodies.1.eq hr ha ▸ hts,
    ⟨constant, fun a ha => hbodies.2.eq hr ha ▸ hts⟩, fun hk => ?_, fun hk => ?_, fun hk => ?_,
    fun hk => ?_⟩, fun r hr ts _ hall => ?_, fun kind hkind is => ?_⟩
  · exact (hothers r (List.mem_filter.mpr ⟨hr, by simp [hk]⟩) ts hts).operation hk
  · exact (hothers r (List.mem_filter.mpr ⟨hr, by simp [hk]⟩) ts hts).name hk
  · exact (hothers r (List.mem_filter.mpr ⟨hr, by simp [hk]⟩) ts hts).group hk
  · have hmem : r ∈ g.productions.filter fun r => r.1 == .paGenerateBlock :=
      List.mem_filter.mpr ⟨hr, by simp [hk]⟩
    exact yields_block (hblocks r.2 (List.mem_map_of_mem hmem)) hts
  · have hmem : r.1 ∈ g.regroupings := by
      rw [← map_regrouped]
      exact List.mem_map_of_mem hr
    rw [hregroups r.1 hmem]
    exact everyOf_groupModportEntries (fun _ _ hk => made_group ⟨_, _, rfl, hk⟩)
      (fun _ => made_of_other rfl rfl (by decide)) (fun _ => made_of_other rfl rfl (by decide)) hall
  · rw [hskips kind hkind]
    exact made_of_other rfl rfl (by decide)

/-- A grammar in which there are no such productions. -/
theorem upholds_of_nil (hbodies : OfBodies body? g ∧ OfBodies (braced? constant) g)
    (hothers : others g = []) (hblocks : blocks g = []) (hregroups : g.regroupings = [])
    (hskips : ∀ kind ∈ g.skips, kind = .paOpaqueBody) : UpholdsMade tokens g :=
  upholds_of_others hbodies (by simp [hothers]) (by simp [hblocks]) (by simp [hregroups]) hskips

/-- The names of instances of modules and of gates. -/
def instanceNames : List (NodeKind × SourceGrammar) :=
  [(.paNameOfInstance, all [identifier, many 0 unpackedDimension]),
    (.paNameOfInstance, identifier)]

theorem made_instanceNames :
    ∀ r ∈ instanceNames, ∀ ts, Yields rules tokens r.2 ts → Made tokens r.1 ts := by
  have hname {a : SourceGrammar} (ha : OpensWith .slStringConst a) (ts : List ParseTree)
      (hts : Yields rules tokens a ts) : Made tokens .paNameOfInstance ts :=
    ⟨nofun, ⟨false, nofun⟩, nofun, fun _ => opens_yields hts ha, nofun, nofun⟩
  have hall : OpensWith .slStringConst (all [identifier, many 0 unpackedDimension]) :=
    opensWith_identifier
  rw [instanceNames]
  simp only [List.forall_mem_cons]
  exact ⟨hname hall, hname opensWith_identifier, by simp⟩

theorem upholds_item : UpholdsMade tokens itemBody := by
  have hothers : others itemBody = instanceNames := by with_unfolding_all rfl
  have hblocks : blocks itemBody = generateBeginEnd :: List.replicate 4 (inside generateBlock) := by
    with_unfolding_all rfl
  have hregroups : itemBody.regroupings = [groupModportEntries] := by with_unfolding_all rfl
  exact upholds_of_others ofBodies_item (hothers ▸ made_instanceNames) (by simp [hblocks])
    (by simp [hregroups]) (by decide)

set_option maxRecDepth 4000 in
theorem upholds_text : UpholdsMade tokens text := by
  have hothers : others text = instanceNames := by with_unfolding_all rfl
  have hblocks : blocks text = generateBeginEnd :: List.replicate 4 (inside generateBlock) := by
    with_unfolding_all rfl
  have hregroups : text.regroupings = [groupModportEntries] := by with_unfolding_all rfl
  exact upholds_of_others ofBodies_text (hothers ▸ made_instanceNames) (by simp [hblocks])
    (by simp [hregroups]) (by decide)

theorem upholds_unary (constant : Bool) : UpholdsMade tokens (unary constant) := by
  have hothers :
      others (unary constant) = [(expressionKind constant, inside (unary constant))] := by
    cases constant <;> rfl
  have hbodies :
      OfBodies body? (unary constant) ∧ OfBodies (braced? constant) (unary constant) := by
    unfold OfBodies
    cases constant <;> exact ⟨rfl, rfl⟩
  refine upholds_of_others hbodies ?_ (by cases constant <;> exact List.forall_mem_nil _)
    (by cases constant <;> exact List.forall_mem_nil _) (by cases constant <;> decide)
  rw [hothers]
  simp only [List.forall_mem_singleton]
  exact fun ts hts => made_expression (operation_unary hts)

theorem upholds_operand (constant : Bool) : UpholdsMade tokens (operand constant) := by
  have hothers : others (operand constant) = [(expressionKind constant, inside (unary constant)),
      (expressionKind constant, primary constant)] := by
    cases constant <;> rfl
  refine upholds_of_others ofBodies_operand ?_
    (by cases constant <;> exact List.forall_mem_nil _)
    (by cases constant <;> exact List.forall_mem_nil _) (by cases constant <;> decide)
  rw [hothers]
  simp only [List.forall_mem_cons]
  refine ⟨fun ts hts => made_expression (operation_unary hts), fun ts hts => ?_, by simp⟩
  obtain ⟨us, rfl⟩ := yields_primary hts
  exact made_expression (.operand constant us)

/-- A level of binary operators only groups its operands, into operations. -/
theorem upholds_binaryLevel {operators : List SourceKind}
    (hops : operators ⊆ binaryLevels.flatten)
    (hg : ∀ ts, Yields rules tokens g ts → IsExpression constant ts) (h : UpholdsMade tokens g) :
    UpholdsMade tokens (binaryLevel constant g operators) := by
  refine ⟨fun r hmem => h.production r ?_, fun r hmem ts hts hall => ?_,
    fun kind hmem => h.skip kind ?_⟩
  · simpa [binaryLevel, productions, oneOf] using hmem
  · have hr : r = (groupLeft (expressionKind constant), seq g (many 0 (seq (oneOf operators) g))) ∨
        r ∈ g.regrouped := by
      simpa [binaryLevel, regrouped, oneOf] using hmem
    rcases hr with rfl | hr
    · obtain ⟨us, rest, rfl, hturns⟩ := exists_turns hops hg hts
      exact everyOf_groupLeft_turns (fun _ => made_expression) hturns us hall
    · exact h.regrouping r hr ts hts hall
  · simpa [binaryLevel, skips, oneOf] using hmem

theorem upholds_binary (constant : Bool) : UpholdsMade tokens (binary constant) := by
  refine (binary_induction_operators (P := fun g => UpholdsMade tokens g ∧
    ∀ ts, Yields rules tokens g ts → IsExpression constant ts)
    ⟨upholds_operand constant, fun _ => isExpression_operand⟩ ?_).1
  rintro tighter operators hops ⟨h, hg⟩
  exact ⟨upholds_binaryLevel hops hg h, fun _ => isExpression_binaryLevel hops hg⟩

/-- A condition is left as it is, or wrapped with its branches. -/
theorem upholds_conditional (constant : Bool) : UpholdsMade tokens (conditional constant) := by
  have h : UpholdsMade tokens (binary constant) := upholds_binary constant
  refine ⟨fun r hmem => h.production r ?_, fun r hmem ts hts hall => ?_,
    fun kind hmem => h.skip kind ?_⟩
  · simpa [conditional, productions, all, expression] using hmem
  · have hr : r = (wrapConditional (expressionKind constant), seq (binary constant) (opt (all
        [token .question, expression constant, token .colon, expression constant]))) ∨
        r ∈ (binary constant).regrouped := by
      simpa [conditional, regrouped, all, expression] using hmem
    rcases hr with rfl | hr
    · obtain ⟨_, branches, hcondition, hbranches, rfl⟩ := yields_seq hts
      obtain ⟨us, rfl⟩ := isExpression_binary hcondition
      cases hbranches with
      | absent => exact hall
      | present hbranches =>
        cases branches with
        | nil => exact hall
        | cons b bs =>
          exact ⟨⟨made_expression (operation_conditional hcondition hbranches), hall⟩, trivial⟩
    · exact h.regrouping r hr ts hts hall
  · simpa [conditional, skips, all, expression] using hmem

theorem upholds_rules : ∀ x, UpholdsMade tokens (rules x)
  | .expression true => upholds_conditional true
  | .expression false => upholds_conditional false
  | .unary true => upholds_unary true
  | .unary false => upholds_unary false
  | .braces =>
    have hbodies : OfBodies body? braces ∧ OfBodies (braced? false) braces := ⟨rfl, rfl⟩
    upholds_of_nil hbodies rfl rfl rfl (by decide)
  | .statement => upholds_of_nil ofBodies_statement (by with_unfolding_all rfl)
      (by with_unfolding_all rfl) (by with_unfolding_all rfl) (by decide)
  | .item => upholds_item

/-- **In a tree of source text** every node is made as all of its kind are. -/
theorem made_parse {tokens : List (Token SourceKind)} {tree : ParseTree}
    (h : (parse tokens).1 = some tree) : tree.Every (Made (visible tokens)) := by
  obtain ⟨trees, htrees, hhead⟩ := Option.bind_eq_some_iff.mp h
  exact everyOf_iff.mp ((yields_parse htrees).every_of_upholds upholds_rules upholds_text) tree
    (List.mem_of_head? hhead)

end SourceGrammar

end Verilog
