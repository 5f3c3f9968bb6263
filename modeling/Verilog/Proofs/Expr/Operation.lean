import Verilog.Proofs.Expr.Parts

/-!
# Operations and their operands

An operation is read at a node that shows an operator and its operands, or braces around elements
(`NodeTable.Operates`). The grammar leaves no operand there that cannot be read, so an operation has
an expression for each of them, in the order in which they are written
(`NodeTable.WellMade.operates_of_tells`). Of the operators it lets stand between two operands there
are two which denote none (`NodeTable.Operates.eq_none`).
-/

namespace Verilog

open SourceGrammar Grammar

namespace NodeKind

/-- The operator that a step by one denotes before its variable. -/
def stepBefore? : NodeKind → Option Operator
  | .paIncDecPlusPlus => some .preInc
  | .paIncDecMinusMinus => some .preDec
  | _ => none

/-- The operator that a step by one denotes behind its variable. -/
def stepAfter? : NodeKind → Option Operator
  | .paIncDecPlusPlus => some .postInc
  | .paIncDecMinusMinus => some .postDec
  | _ => none

/-- Is a step by one read at a node of a kind? -/
def isStepping (k : NodeKind) : Bool :=
  k == .paGenvarIteration || k == .paOperatorAssignment || k == .paForStep

end NodeKind

namespace NodeTable

variable {t : NodeTable} {id q : NodeId} {read : NodeId → Option Expr} {op : Option Operator}
  {ids : List NodeId}

/-- **How an operation is written at a node**: its operator, as far as it denotes one, and the nodes
of its operands in order. An operator before or behind its operand has one, an operator between
operands two, a condition three, and braces have as many as there are elements in them. -/
inductive Operates (t : NodeTable) (id : NodeId) : Option Operator → List NodeId → Prop
  | unary {leaf operand : NodeId} {o : Operator} (hk : (t.kind id).isExpression)
      (hs : t.shape id = [leaf, operand]) (ho : (t.kind leaf).unaryOperator? = some o) :
      Operates t id (some o) [operand]
  | binary {left leaf right : NodeId} (hk : (t.kind id).isExpression)
      (hs : t.shape id = [left, leaf, right]) (hleaf : (t.kind leaf).isBetween) :
      Operates t id (t.kind leaf).binaryOperator? [left, right]
  | choice {condition mark yes no : NodeId} (hk : (t.kind id).isExpression)
      (hs : t.shape id = [condition, mark, yes, no]) (hmark : t.kind mark = .paQmark) :
      Operates t id (some .condition) [condition, yes, no]
  | concat (hk : t.kind id = .paConcatenation) : Operates t id (some .concat) (t.shape id)
  | multiConcat (hk : t.kind id = .paMultipleConcatenation) :
      Operates t id (some .multiConcat) (t.shape id)
  | before {leaf operand : NodeId} {o : Operator} (hk : (t.kind id).isStepping)
      (hs : t.shape id = [leaf, operand]) (ho : (t.kind leaf).stepBefore? = some o) :
      Operates t id (some o) [operand]
  | after {operand leaf : NodeId} {o : Operator} (hk : (t.kind id).isStepping)
      (hs : t.shape id = [operand, leaf]) (ho : (t.kind leaf).stepAfter? = some o) :
      Operates t id (some o) [operand]

namespace Operates

/-- The operands stand below the operation. -/
theorem subset_shape (h : t.Operates id op ids) : ids ⊆ t.shape id := by
  cases h with
  | unary _ hs | binary _ hs | choice _ hs | before _ hs | after _ hs => simp [hs]
  | concat | multiConcat => exact List.Subset.refl _

/-- **An operation without an operator** has one of two leaves between its operands. -/
theorem eq_none (h : t.Operates id op ids) (hop : op = none) : ∃ left leaf right,
    t.shape id = [left, leaf, right] ∧ ids = [left, right] ∧
      (t.kind leaf = .paBinOpReductNand ∨ t.kind leaf = .paBinOpReductNor) := by
  cases h with
  | @binary left leaf right _ hs hleaf =>
    refine ⟨left, leaf, right, hs, rfl, ?_⟩
    simpa [NodeKind.isBetween, hop] using hleaf
  | unary | choice | concat | multiConcat | before | after => cases hop

end Operates

/-! ### The rows of operands -/

section Rows

variable {constant : Bool} {kind : NodeKind} {ks : List NodeKind}

theorem isRead_primaryKind (constant : Bool) : (primaryKind constant).isRead := by
  cases constant <;> rfl

/-- Only in expressions do other tokens than words have leaves. -/
theorem leafKindIn?_of_brace {k : SourceKind} (hk : k = .leftBrace ∨ k = .rightBrace)
    (hkind : kind = .paConcatenation ∨ kind = .paMultipleConcatenation) :
    leafKindIn? k kind false = none := by
  rcases hk with rfl | rfl <;> rcases hkind with rfl | rfl <;> rfl

/-- What stands in braces is read. -/
theorem isRead_braced {g : SourceGrammar} (hg : braced? constant kind = some g)
    (h : Parts (leafKindIn? · kind false) shows g ks) : ∀ k ∈ ks, k.isRead := by
  have hbrace {k : SourceKind} (hk : k = .leftBrace ∨ k = .rightBrace) :
      (leafKindIn? k kind false).toList = [] := by
    rw [leafKindIn?_of_brace hk (by unfold braced? at hg; split at hg <;> simp at hg ⊢)]
    rfl
  have hopen := hbrace (.inl rfl)
  have hclose := hbrace (.inr rfl)
  unfold braced? at hg
  split at hg
  · cases hg
    obtain ⟨_, _, rfl, ⟨_, _, ⟨turns, hturns, rfl⟩, rfl, rfl⟩, rfl⟩ := h
    rw [hopen, hclose, List.nil_append, List.append_nil]
    intro k hk
    obtain ⟨turn, hturn, hmem⟩ := List.mem_flatten.mp hk
    obtain rfl := hturns turn hturn
    rw [List.mem_singleton.mp hmem]
    exact isRead_expressionKind constant
  · cases hg
    obtain ⟨_, _, rfl, ⟨_, _, rfl, ⟨_, _, rfl, rfl, rfl⟩, rfl⟩, rfl⟩ := h
    rw [hopen, hclose]
    simp only [List.nil_append, List.append_nil, List.cons_append, List.forall_mem_cons]
    exact ⟨isRead_expressionKind constant, rfl, by simp⟩
  · cases hg

/-! ### Steps by one -/

/-- The rows of an assignment: one with a value, or a step by one behind or before the variable. -/
inductive AssignmentRow : List NodeKind → Prop
  | value (variable_ : NodeKind) (leaf : Option NodeKind) (constant : Bool) :
      AssignmentRow ([variable_] ++ leaf.toList ++ [expressionKind constant])
  | after {variable_ leaf : NodeKind} (hv : variable_.isRead) (hleaf : leaf.stepAfter?.isSome) :
      AssignmentRow [variable_, leaf]
  | before {variable_ leaf : NodeKind} (hv : variable_.isRead) : AssignmentRow [leaf, variable_]

theorem AssignmentRow.two_le (h : AssignmentRow ks) : 2 ≤ ks.length := by
  cases h with
  | value => simp
  | after | before => exact Nat.le_refl 2

/-- What is read is no step. -/
theorem stepAfter?_of_isRead {k : NodeKind} (h : k.isRead) : k.stepAfter? = none := by
  unfold NodeKind.stepAfter?
  split <;> first | rfl | cases h

/-- **A step by one** stands beside a variable that is read. -/
theorem AssignmentRow.isRead {a b : NodeKind} (h : AssignmentRow [a, b]) :
    (b.stepAfter?.isSome → a.isRead) ∧ (b.stepAfter? = none → b.isRead) := by
  generalize hks : [a, b] = ks at h
  cases h with
  | value variable_ leaf constant =>
    have hb : b = expressionKind constant := by
      have hlast : [a, b].getLast? = _ := congrArg List.getLast? hks
      rw [List.getLast?_concat] at hlast
      exact Option.some.inj hlast
    rw [hb, stepAfter?_of_isRead (isRead_expressionKind constant)]
    exact ⟨nofun, fun _ => isRead_expressionKind constant⟩
  | after hv hleaf =>
    obtain ⟨rfl, rfl⟩ : a = _ ∧ b = _ := by simpa using hks
    exact ⟨fun _ => hv, fun hnone => by simp [hnone] at hleaf⟩
  | before hv =>
    obtain ⟨rfl, rfl⟩ : a = _ ∧ b = _ := by simpa using hks
    rw [stepAfter?_of_isRead hv]
    exact ⟨nofun, fun _ => hv⟩

/-- An assignment of any form to a variable. -/
def assigning (variable_ : SourceGrammar) (constant : Bool) : SourceGrammar :=
  choice [
    all [variable_, oneOf assignmentOperators, expression constant],
    seq variable_ (oneOf stepOperators),
    seq (oneOf stepOperators) variable_]

theorem assignmentRow_assigning (variable_ : SourceGrammar)
    (hv : ∀ us, Parts (leafKindIn? · kind false) shows variable_ us → ∃ k, us = [k] ∧ k.isRead)
    (h : Parts (leafKindIn? · kind false) shows (assigning variable_ constant) ks) :
    AssignmentRow ks := by
  have hstep {us : List NodeKind}
      (hus : Parts (leafKindIn? · kind false) shows (oneOf stepOperators) us) :
      ∃ leaf, us = [leaf] ∧ leaf.stepAfter?.isSome := by
    obtain ⟨k, hk, rfl⟩ := hus
    have hk : k ∈ stepOperators := by simpa using hk
    simp only [stepOperators, List.mem_cons, List.not_mem_nil, or_false] at hk
    rcases hk with rfl | rfl <;> exact ⟨_, rfl, rfl⟩
  rcases h with ⟨us, _, hus, ⟨_, _, ⟨k, -, rfl⟩, rfl, rfl⟩, rfl⟩ | ⟨us, vs, hus, hvs, rfl⟩ |
    ⟨us, vs, hus, hvs, rfl⟩
  · obtain ⟨v, rfl, -⟩ := hv us hus
    rw [← List.append_assoc]
    exact .value v (leafKindIn? k kind false) constant
  · obtain ⟨v, rfl, hread⟩ := hv us hus
    obtain ⟨leaf, rfl, hleaf⟩ := hstep hvs
    exact .after hread hleaf
  · obtain ⟨leaf, rfl, -⟩ := hstep hus
    obtain ⟨v, rfl, hread⟩ := hv vs hvs
    exact .before hread

theorem assignmentRow_assignment
    (h : Parts (leafKindIn? · kind false) shows assignment ks) : AssignmentRow ks := by
  refine assignmentRow_assigning variableLvalue (fun us hus => ?_) h
  obtain rfl := hus
  exact ⟨_, rfl, rfl⟩

/-- Of several assignments with commas between, only a single one has no more than two parts. -/
theorem assignmentRow_of_turns {turns : List (List NodeKind)} (h : ∀ us ∈ turns, AssignmentRow us)
    (hlength : turns.flatten.length = 2) : AssignmentRow turns.flatten := by
  match turns with
  | [] => cases hlength
  | [us] => simpa using h us (by simp)
  | us :: vs :: more =>
    have hus := (h us (by simp)).two_le
    have hvs := (h vs (by simp)).two_le
    simp only [List.flatten_cons, List.length_append] at hlength
    omega

theorem assignmentRow_step {g : SourceGrammar} (hk : kind.isStepping) (hg : body? kind = some g)
    (h : Parts (leafKindIn? · kind false) shows g ks) (hlength : ks.length = 2) :
    AssignmentRow ks := by
  simp only [NodeKind.isStepping, Bool.or_eq_true, beq_iff_eq] at hk
  rcases hk with (rfl | rfl) | rfl
  · cases hg
    refine assignmentRow_assigning identifier (fun us hus => ?_) h
    obtain ⟨k, hk, rfl⟩ := hus
    simp only [leafKindIn?_identifier hk]
    exact ⟨_, rfl, rfl⟩
  · cases hg
    obtain ⟨us, vs, hus, hvs, rfl⟩ := h
    obtain rfl : vs = [] := hvs
    rw [List.append_nil]
    exact assignmentRow_assignment hus
  · cases hg
    obtain ⟨turns, hturns, rfl⟩ := h
    exact assignmentRow_of_turns (fun us hus => assignmentRow_assignment (hturns us hus)) hlength

end Rows

/-! ### One node -/

/-- Has every operand of an operation a kind that is read? -/
def ReadsAll (t : NodeTable) (ids : List NodeId) : Prop := ∀ q ∈ ids, (t.kind q).isRead

/-- A step is read behind its variable, if a step stands there, or else before it. -/
theorem readStep_of_shape {a b : NodeId} (hs : t.shape id = [a, b]) : t.readStep read id =
    match (t.kind b).stepAfter? with
    | some o => some (.operation (some o) ([a].filterMap read) (t.range? id id))
    | none => (t.kind a).stepBefore?.map fun o =>
      .operation (some o) ([b].filterMap read) (t.range? id id) := by
  rw [readStep, hs, NodeKind.stepAfter?.eq_def, NodeKind.stepBefore?.eq_def]
  dsimp only
  generalize t.kind a = before, t.kind b = after
  by_cases hplus : after = .paIncDecPlusPlus
  · simp [hplus]
  by_cases hminus : after = .paIncDecMinusMinus
  · simp [hminus]
  simp only [beq_iff_eq, hplus, hminus, if_false]
  by_cases hplus : before = .paIncDecPlusPlus
  · simp [hplus]
  by_cases hminus : before = .paIncDecMinusMinus
  · simp [hminus]
  simp [hplus, hminus]

namespace WellMade

variable (ht : t.WellMade) (hid : t.Below t.root id)

include ht hid

theorem operates_readOperation (hk : (t.kind id).isExpression) {es : List Expr}
    {range : Option SourceRange} (h : t.readOperation read id = some (.operation op es range)) :
    (∃ q, t.Reads id q ∧ read q = some (.operation op es range)) ∨ ∃ ids,
      t.Operates id op ids ∧ t.ReadsAll ids ∧ es = ids.filterMap read ∧ range = t.range? id id := by
  have hrow := ht.operation id hid hk
  have hexpression (constant : Bool) : (expressionKind constant).isRead :=
    isRead_expressionKind constant
  unfold readOperation at h
  simp only at h
  split at h
  · rename_i only hs
    exact .inl ⟨only, .of_shape (by simp [hs]), h⟩
  · rename_i leaf operand hs
    obtain ⟨o, ho, he⟩ := Option.map_eq_some_iff.mp h
    cases he
    rw [hs] at hrow
    refine .inr ⟨[operand], .unary hk hs ho, ?_, rfl, rfl⟩
    simp only [ReadsAll, List.forall_mem_singleton]
    generalize hks : [leaf, operand].map t.kind = ks at hrow
    cases hrow with
    | unary _ hoperand =>
      obtain ⟨rfl, rfl⟩ : t.kind leaf = _ ∧ t.kind operand = _ := by simpa using hks
      rcases hoperand with hoperand | ⟨constant, hoperand⟩
      · simp [NodeKind.isRead, hoperand]
      · exact hoperand ▸ isRead_primaryKind constant
    | operand | binary | choice => simp at hks
  · rename_i left leaf right hs
    cases h
    rw [hs] at hrow
    generalize hks : [left, leaf, right].map t.kind = ks at hrow
    cases hrow with
    | binary hop constant =>
      obtain ⟨hleft, rfl, hright⟩ : t.kind left = _ ∧ t.kind leaf = _ ∧ t.kind right = _ := by
        simpa using hks
      refine .inr ⟨[left, right], .binary hk hs hop, ?_, rfl, rfl⟩
      simp [ReadsAll, hleft, hright, hexpression]
    | operand | unary | choice => simp at hks
  · rename_i condition mark yes no hs
    obtain ⟨hmark, he⟩ := Option.ite_none_right_eq_some.mp h
    cases he
    rw [hs] at hrow
    generalize hks : [condition, mark, yes, no].map t.kind = ks at hrow
    cases hrow with
    | choice constant =>
      obtain ⟨hcondition, -, hyes, hno⟩ : t.kind condition = _ ∧ t.kind mark = _ ∧
        t.kind yes = _ ∧ t.kind no = _ := by simpa using hks
      refine .inr ⟨[condition, yes, no], .choice hk hs (by simpa using hmark), ?_, rfl, rfl⟩
      simp [ReadsAll, hcondition, hyes, hno, hexpression]
    | operand | unary | binary => simp at hks
  · cases h

theorem operates_readStep (hk : (t.kind id).isStepping) {es : List Expr}
    {range : Option SourceRange} (h : t.readStep read id = some (.operation op es range)) :
    ∃ ids, t.Operates id op ids ∧ t.ReadsAll ids ∧ es = ids.filterMap read ∧
      range = t.range? id id := by
  obtain ⟨a, b, hs⟩ : ∃ a b, t.shape id = [a, b] := by
    unfold readStep at h
    split at h
    · exact ⟨_, _, ‹_›⟩
    · cases h
  obtain ⟨g, hg⟩ : ∃ g, body? (t.kind id) = some g := by
    simp only [NodeKind.isStepping, Bool.or_eq_true, beq_iff_eq] at hk
    rcases hk with (hk | hk) | hk <;> exact ⟨_, by rw [hk]; rfl⟩
  have hrow := assignmentRow_step hk hg (ht.parts id hid g hg) (by simp [hs])
  rw [hs] at hrow
  obtain ⟨hafter, hbefore⟩ := AssignmentRow.isRead hrow
  have hreads {v : NodeId} (hv : (t.kind v).isRead) : t.ReadsAll [v] := by
    simpa [ReadsAll] using hv
  rw [readStep_of_shape hs] at h
  cases hb : (t.kind b).stepAfter? with
  | some o =>
    rw [hb] at h
    cases h
    exact ⟨[a], .after hk hs hb, hreads (hafter (by simp [hb])), rfl, rfl⟩
  | none =>
    rw [hb] at h
    obtain ⟨o, ha, he⟩ := Option.map_eq_some_iff.mp h
    cases he
    exact ⟨[b], .before hk hs ha, hreads (hbefore hb), rfl, rfl⟩

/-- **An operation that is read at a node** is written there, or at a node that is read for it. -/
theorem operates_readNode {es : List Expr} {range : Option SourceRange}
    (h : t.readNode read id = some (.operation op es range)) :
    (∃ q, t.Reads id q ∧ read q = some (.operation op es range)) ∨ ∃ ids,
      t.Operates id op ids ∧ t.ReadsAll ids ∧ es = ids.filterMap read ∧ range = t.range? id id := by
  have hreference (ids : List NodeId) :
      some (t.readReference read id ids) ≠ some (.operation op es range) := by
    unfold readReference
    split
    · simp
    · split <;> simp
  have hcall (system : Bool) (name : String) :
      some (t.readCall read id system name) ≠ some (.operation op es range) := by
    unfold readCall
    simp only
    split <;> simp
  have hbraced (hg : ∀ constant, ∃ g, braced? constant (t.kind id) = some g) :
      t.ReadsAll (t.shape id) := by
    intro q hq
    obtain ⟨constant, hparts⟩ := ht.braced id hid
    obtain ⟨g, hg⟩ := hg constant
    exact isRead_braced hg (hparts g hg) _ (List.mem_map_of_mem hq)
  unfold readNode at h
  split at h
  case h_1 hk | h_2 hk => exact ht.operates_readOperation hid (by rw [hk]; rfl) h
  case h_3 | h_4 | h_5 | h_6 =>
    split at h
    · cases h
    · rename_i first rest hs
      split at h
      · exact absurd h (hreference _)
      · exact absurd h (hreference _)
      · exact .inl ⟨first, .of_shape (by simp [hs]), h⟩
  case h_7 => exact absurd h (hreference _)
  case h_8 | h_9 => exact .inl ⟨_, reads_child t id, h⟩
  case h_10 | h_11 | h_12 => cases h
  case h_13 hk =>
    cases h
    exact .inr ⟨_, .concat hk, hbraced fun _ => ⟨_, by rw [hk]; rfl⟩, rfl, rfl⟩
  case h_14 hk =>
    cases h
    exact .inr ⟨_, .multiConcat hk, hbraced fun _ => ⟨_, by rw [hk]; rfl⟩, rfl, rfl⟩
  case h_15 | h_16 => exact absurd h (hcall _ _)
  case h_17 hk | h_18 hk | h_19 hk =>
    exact .inr (ht.operates_readStep hid (by rw [hk]; rfl) h)
  case h_20 => cases h

end WellMade

/-! ### All of a tree -/

/-- What is read for each of some nodes is found again node by node. -/
theorem forall₂_filterMap (h : ∀ q ∈ ids, (read q).isSome) :
    List.Forall₂ (fun q e => read q = some e) ids (ids.filterMap read) := by
  induction ids with
  | nil => exact .nil
  | cons q ids ih =>
    rw [List.forall_mem_cons] at h
    obtain ⟨e, he⟩ := Option.isSome_iff_exists.mp h.1
    rw [List.filterMap_cons_some he]
    exact .cons he (ih h.2)

/-- **Every operation of a tree** is written at one of its nodes, and has an expression for each
operand there, in order. -/
theorem WellMade.operates_of_tells (ht : t.WellMade) (hquiet : t.Quiet) {es : List Expr}
    {range : Option SourceRange} (h : t.Tells (.operation op es range)) :
    ∃ id ids, t.Below t.root id ∧ t.Operates id op ids ∧ range = t.range? id id ∧
      List.Forall₂ (fun q e => t.expr? q = some e) ids es := by
  obtain ⟨id, hid, he⟩ := h
  induction hn : t.size - id using Nat.strong_induction_on generalizing id with
  | _ n ih =>
    have hread := he
    rw [ht.expr?_eq (contains_of_expr? he)] at hread
    rcases ht.operates_readNode hid hread with ⟨q, hq, hread⟩ | ⟨ids, hop, hall, rfl, rfl⟩
    · have hc := contains_of_expr? hread
      have hlt := (ht.lt_of_reads hq).resolve_left (Nat.pos_iff_ne_zero.mp (contains_iff.mp hc).1)
      exact ih _ (hn ▸ sub_lt_of_lt hc hlt) q (hquiet.below_of_reads hid hq hread) hread rfl
    · refine ⟨id, ids, hid, hop, rfl, forall₂_filterMap fun q hq => ?_⟩
      obtain ⟨e, he⟩ := ht.exists_expr (hid.child (hop.subset_shape hq)) (hall q hq)
      exact Option.isSome_iff_exists.mpr ⟨e, he⟩

end NodeTable

end Verilog
