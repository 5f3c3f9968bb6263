import Verilog.Proofs.Expr.Total
import Verilog.Proofs.Ir.ExprTree
import Verilog.Proofs.Preprocess.Nodes

/-!
# The parts of the expressions that are read

Reading a node reads other nodes for the parts of its expression: those below it, and those below
the parts that it has to look into (`NodeTable.Reads`). An expression is read at a depth that is
enough for the whole tree, so each of its parts is what is read at its own node
(`NodeTable.expr?_eq`), and every expression in one that is read is read somewhere in the tree
(`NodeTable.every_expr?`).
-/

namespace Verilog

/-- Is a node of a kind read as an expression, if what it is made of can be read? -/
def NodeKind.isReadable : NodeKind → Bool
  | .paExpression | .paConstantExpression | .paPrimary | .paConstantPrimary | .paVariableLvalue
  | .paNetLvalue | .slStringConst | .paPrimaryLiteral | .paStringValue | .slIntConst | .slRealConst
  | .slStringLiteral | .paConcatenation | .paMultipleConcatenation | .paSystemTfCall
  | .paComplexFuncCall | .paGenvarIteration | .paOperatorAssignment | .paForStep => true
  | _ => false

namespace NodeTable

variable {t : NodeTable} {id p q : NodeId} {read read' : NodeId → Option Expr} {P : Expr → Prop}

/-! ### Where the parts of an expression are read -/

/-- **Is a node read for the expression at another?** It stands below that one or below a part of
it, or, for the bounds of a select, below the first child of the select. -/
inductive Reads (t : NodeTable) (id : NodeId) : NodeId → Prop
  | absent : Reads t id 0
  | child {q : NodeId} (hq : q ∈ t.children id) : Reads t id q
  | argument {p q : NodeId} (hp : p ∈ t.shape id) (hq : q ∈ t.children p) : Reads t id q
  | bound {p select q : NodeId} (hp : p ∈ t.shape id) (hs : select ∈ t.children p)
      (hq : q ∈ t.children select) : Reads t id q

theorem mem_children_child (h : t.child id ≠ 0) : t.child id ∈ t.children id := by
  rw [children, chain, if_neg h]
  exact List.mem_cons_self

theorem reads_child (t : NodeTable) (id : NodeId) : t.Reads id (t.child id) := by
  by_cases h : t.child id = 0
  · rw [h]
    exact .absent
  · exact .child (mem_children_child h)

theorem Reads.of_shape (hq : q ∈ t.shape id) : t.Reads id q := .child (children_of_shape hq)

/-- What is selected from a reference stands below one of its nodes. -/
theorem exists_of_firstSelect? {ids : List NodeId} {select : NodeId}
    (h : t.firstSelect? ids = some select) :
    ∃ p ∈ ids, t.kind p = .paSelect ∧ select ∈ t.children p := by
  obtain ⟨h, hne⟩ := Option.filter_eq_some_iff.mp h
  obtain ⟨p, hp, rfl⟩ := Option.map_eq_some_iff.mp h
  have hk := List.find?_some hp
  exact ⟨p, List.mem_of_find?_eq_some hp, beq_iff_eq.mp hk, mem_children_child (by simpa using hne)⟩

/-- A child of a kind is among the children, if it is there. -/
theorem childOf_mem {k : NodeKind} (h : t.childOf id k ≠ 0) :
    t.childOf id k ∈ t.children id ∧ t.kind (t.childOf id k) = k := by
  rw [childOf] at h ⊢
  cases hf : (t.children id).find? fun q => t.kind q == k with
  | none =>
    rw [hf] at h
    exact absurd rfl h
  | some q =>
    have hk := List.find?_some hf
    exact ⟨List.mem_of_find?_eq_some hf, beq_iff_eq.mp hk⟩

/-- The nodes of a reference that hold a select stand below the reference. -/
def HoldsSelects (t : NodeTable) (id : NodeId) (ids : List NodeId) : Prop :=
  ∀ p ∈ ids, t.kind p = .paSelect → p ∈ t.shape id

theorem reads_bounds {ids : List NodeId} (hids : t.HoldsSelects id ids) {select : NodeId}
    (h : t.firstSelect? ids = some select) :
    (∀ q ∈ t.children select, t.Reads id q) ∧ t.Reads id (t.child select) := by
  obtain ⟨p, hp, hk, hs⟩ := exists_of_firstSelect? h
  have hchild (q : NodeId) (hq : q ∈ t.children select) : t.Reads id q :=
    .bound (hids p hp hk) hs hq
  refine ⟨hchild, ?_⟩
  by_cases h0 : t.child select = 0
  · rw [h0]
    exact .absent
  · exact hchild _ (mem_children_child h0)

theorem reads_arguments {k : NodeKind} (hk : k.isTrivia = false) (h : t.childOf id k ≠ 0) :
    ∀ q ∈ t.shape (t.childOf id k), t.Reads id q := fun q hq => by
  obtain ⟨hmem, hkind⟩ := childOf_mem h
  exact .argument (mem_shape hmem (by rw [hkind, hk])) (children_of_shape hq)

theorem holdsSelects_shape : t.HoldsSelects id (t.shape id) := fun _ hp _ => hp

theorem holdsSelects_self (hk : t.kind id = .slStringConst) : t.HoldsSelects id [id] :=
  fun p hp hselect => by
    rw [List.mem_singleton.mp hp, hk] at hselect
    cases hselect

/-! ### Reading the same -/

section Congr

variable (h : ∀ q, t.Reads id q → read q = read' q)

include h

theorem filterMap_congr_reads {ids : List NodeId} (hids : ∀ q ∈ ids, t.Reads id q) :
    ids.filterMap read = ids.filterMap read' :=
  List.filterMap_congr fun q hq => h q (hids q hq)

theorem readReference_congr {ids : List NodeId} (hids : t.HoldsSelects id ids) :
    t.readReference read id ids = t.readReference read' id ids := by
  rw [readReference, readReference]
  split
  · rfl
  · rename_i select hselect
    obtain ⟨hchildren, hchild⟩ := reads_bounds hids hselect
    have hbound (i : Nat) : (t.shape select)[i]?.bind read = (t.shape select)[i]?.bind read' :=
      Option.bind_congr fun q hq =>
        h q (hchildren q (children_of_shape (List.mem_of_getElem? hq)))
    simp only [hbound, h _ hchild]

theorem readOperation_congr : t.readOperation read id = t.readOperation read' id := by
  have hids (ids : List NodeId) (hids : ids ⊆ t.shape id) :
      ids.filterMap read = ids.filterMap read' :=
    filterMap_congr_reads h fun q hq => .of_shape (hids hq)
  rw [readOperation, readOperation]
  split
  · rename_i only hs
    exact h only (.of_shape (by simp [hs]))
  · rename_i op operand hs
    simp only [hids [operand] (by simp [hs])]
  · rename_i left op right hs
    simp only [hids [left, right] (by simp [hs])]
  · rename_i condition mark yes no hs
    simp only [hids [condition, yes, no] (by simp [hs])]
  · rfl

theorem readStep_congr : t.readStep read id = t.readStep read' id := by
  rw [readStep, readStep]
  split
  · rename_i a b hs
    have hids (q : NodeId) (hq : q ∈ t.shape id) : [q].filterMap read = [q].filterMap read' :=
      filterMap_congr_reads h fun r hr => .of_shape (List.mem_singleton.mp hr ▸ hq)
    simp only [hids a (by simp [hs]), hids b (by simp [hs])]
  · rfl

theorem readCall_congr (system : Bool) (name : String) :
    t.readCall read id system name = t.readCall read' id system name := by
  rw [readCall, readCall]
  split
  · rfl
  · rename_i harguments
    rw [filterMap_congr_reads h (reads_arguments rfl harguments)]

/-- **Reading a node** depends on what is read for it alone. -/
theorem readNode_congr : t.readNode read id = t.readNode read' id := by
  have hshape : (t.shape id).filterMap read = (t.shape id).filterMap read' :=
    filterMap_congr_reads h fun q hq => .of_shape hq
  have hchild := h _ (reads_child t id)
  unfold readNode
  split
  case h_1 | h_2 => exact readOperation_congr h
  case h_3 | h_4 | h_5 | h_6 =>
    split
    · rfl
    · rename_i first rest hs
      rw [← hs, readReference_congr h holdsSelects_shape, h first (.of_shape (by simp [hs]))]
  case h_7 hk => rw [readReference_congr h (holdsSelects_self hk)]
  case h_8 | h_9 => exact hchild
  case h_10 | h_11 | h_12 => rfl
  case h_13 | h_14 => rw [hshape]
  case h_15 | h_16 => rw [readCall_congr h]
  case h_17 | h_18 | h_19 => exact readStep_congr h
  case h_20 => rfl

end Congr

/-! ### All parts have a property -/

section Every

variable (h : ∀ q, t.Reads id q → ∀ e, read q = some e → e.Every P)

include h

theorem everyPart_read (hq : t.Reads id q) : Expr.EveryPart P (read q) :=
  Expr.everyPart_iff.mpr (h q hq)

theorem everyAll_read {ids : List NodeId} (hids : ∀ q ∈ ids, t.Reads id q) :
    Expr.EveryAll P (ids.filterMap read) :=
  Expr.everyAll_iff.mpr fun e he => by
    obtain ⟨q, hq, he⟩ := List.mem_filterMap.mp he
    exact h q (hids q hq) e he

theorem every_readReference {ids : List NodeId} (hids : t.HoldsSelects id ids)
    (hP : P (t.readReference read id ids)) : (t.readReference read id ids).Every P := by
  unfold readReference at hP ⊢
  split at hP
  · exact hP
  · rename_i select hselect
    obtain ⟨hchildren, hchild⟩ := reads_bounds hids hselect
    have hbound (i : Nat) : Expr.EveryPart P ((t.shape select)[i]?.bind read) := by
      refine Expr.everyPart_iff.mpr fun e he => ?_
      obtain ⟨q, hq, he⟩ := Option.bind_eq_some_iff.mp he
      exact h q (hchildren q (children_of_shape (List.mem_of_getElem? hq))) e he
    simp only
    split at hP
    · rename_i hrange
      rw [if_pos hrange]
      exact ⟨hP, hbound 0, hbound 1⟩
    · rename_i hrange
      rw [if_neg hrange]
      exact ⟨hP, everyPart_read h hchild⟩

theorem every_readOperation {e : Expr} (he : t.readOperation read id = some e) (hP : P e) :
    e.Every P := by
  have hids (ids : List NodeId) (hids : ids ⊆ t.shape id) :
      Expr.EveryAll P (ids.filterMap read) := everyAll_read h fun q hq => .of_shape (hids hq)
  unfold readOperation at he
  simp only at he
  split at he
  · rename_i only hs
    exact h only (.of_shape (by simp [hs])) e he
  · rename_i op operand hs
    obtain ⟨o, -, rfl⟩ := Option.map_eq_some_iff.mp he
    exact ⟨hP, hids [operand] (by simp [hs])⟩
  · rename_i left op right hs
    obtain rfl := Option.some.inj he
    exact ⟨hP, hids [left, right] (by simp [hs])⟩
  · rename_i condition mark yes no hs
    obtain ⟨-, he⟩ := Option.ite_none_right_eq_some.mp he
    obtain rfl := Option.some.inj he
    exact ⟨hP, hids [condition, yes, no] (by simp [hs])⟩
  · cases he

theorem every_readStep {e : Expr} (he : t.readStep read id = some e) (hP : P e) : e.Every P := by
  unfold readStep at he
  simp only at he
  split at he
  · rename_i a b hs
    have hstep {op : Operator} {v : NodeId} (hv : v ∈ t.shape id)
        (he : some (Expr.operation (some op) ([v].filterMap read) (t.range? id id)) = some e) :
        e.Every P := by
      obtain rfl := Option.some.inj he
      exact ⟨hP, everyAll_read h fun q hq => .of_shape (List.mem_singleton.mp hq ▸ hv)⟩
    have ha : a ∈ t.shape id := by simp [hs]
    have hb : b ∈ t.shape id := by simp [hs]
    rcases ite_eq_iff.mp he with ⟨-, he⟩ | ⟨-, he⟩
    · exact hstep ha he
    rcases ite_eq_iff.mp he with ⟨-, he⟩ | ⟨-, he⟩
    · exact hstep ha he
    rcases ite_eq_iff.mp he with ⟨-, he⟩ | ⟨-, he⟩
    · exact hstep hb he
    rcases ite_eq_iff.mp he with ⟨-, he⟩ | ⟨-, he⟩
    · exact hstep hb he
    · cases he
  · cases he

theorem every_readCall {system : Bool} {name : String} (hP : P (t.readCall read id system name)) :
    (t.readCall read id system name).Every P := by
  unfold readCall at hP ⊢
  simp only at hP ⊢
  split at hP
  · rename_i harguments
    rw [if_pos harguments]
    exact hP
  · rename_i harguments
    rw [if_neg harguments]
    exact ⟨hP, everyAll_read h (reads_arguments rfl harguments)⟩

/-- **All parts of an expression have a property** if it has it itself and what is read for it does.
-/
theorem every_readNode {e : Expr} (he : t.readNode read id = some e) (hP : P e) : e.Every P := by
  unfold readNode at he
  split at he
  case h_1 | h_2 => exact every_readOperation h he hP
  case h_3 | h_4 | h_5 | h_6 =>
    split at he
    · cases he
    · rename_i first rest hs
      rw [← hs] at he
      split at he
      · obtain rfl := Option.some.inj he
        exact every_readReference h holdsSelects_shape hP
      · obtain rfl := Option.some.inj he
        exact every_readReference h holdsSelects_shape hP
      · exact h first (.of_shape (by simp [hs])) e he
  case h_7 hk =>
    obtain rfl := Option.some.inj he
    exact every_readReference h (holdsSelects_self hk) hP
  case h_8 | h_9 => exact h _ (reads_child t id) e he
  case h_10 | h_11 | h_12 =>
    obtain rfl := Option.some.inj he
    exact hP
  case h_13 | h_14 =>
    obtain rfl := Option.some.inj he
    exact ⟨hP, everyAll_read h fun q hq => .of_shape hq⟩
  case h_15 | h_16 =>
    obtain rfl := Option.some.inj he
    exact every_readCall h hP
  case h_17 | h_18 | h_19 => exact every_readStep h he hP
  case h_20 => cases he

end Every

/-! ### Depth -/

/-- Only nodes of some kinds are read. -/
theorem isReadable_of_readNode {e : Expr} (h : t.readNode read id = some e) :
    (t.kind id).isReadable := by
  unfold readNode at h
  split at h
  case h_20 => cases h
  all_goals
    rename_i hk
    rw [hk]
    rfl

/-- What is further down is less far from the end of the table. -/
theorem sub_lt_of_lt (hc : t.contains q) (hlt : Nat.lt id q) : t.size - q < t.size - id :=
  Nat.sub_lt_sub_left (Nat.lt_of_lt_of_le hlt (contains_iff.mp hc).2) hlt

theorem exprWithin_of_kind (hk : t.kind id = .slNoType) (depth : Nat) :
    t.exprWithin depth id = none := by
  cases depth with
  | zero => rfl
  | succ depth =>
    rw [exprWithin, readNode, hk]
    exact ite_self _

namespace WellMade

variable (ht : t.WellMade)

include ht

theorem lt_of_reads (h : t.Reads id q) : q = 0 ∨ Nat.lt id q := by
  have hchild {p q : NodeId} (hq : q ∈ t.children p) : Nat.lt p q := (ht.grounded p q hq).1
  cases h with
  | absent => exact .inl rfl
  | child hq => exact .inr (hchild hq)
  | argument hp hq => exact .inr (Nat.lt_trans (hchild (children_of_shape hp)) (hchild hq))
  | bound hp hs hq =>
    exact .inr (Nat.lt_trans (hchild (children_of_shape hp)) (Nat.lt_trans (hchild hs) (hchild hq)))

/-- Any depth that is enough for what is below a node gives the same. -/
theorem exprWithin_congr {depth depth' : Nat} (hd : t.size < depth + id)
    (hd' : t.size < depth' + id) : t.exprWithin depth id = t.exprWithin depth' id := by
  induction hn : t.size - id using Nat.strong_induction_on generalizing id depth depth' with
  | _ n ih =>
    by_cases hk : t.kind id = .slNoType
    · rw [exprWithin_of_kind hk, exprWithin_of_kind hk]
    · obtain ⟨d, heq, hless⟩ := exists_depth rfl hk hd
      obtain ⟨d', heq', hless'⟩ := exists_depth rfl hk hd'
      rw [heq, heq']
      refine readNode_congr fun q hq => ?_
      by_cases hkq : t.kind q = .slNoType
      · rw [exprWithin_of_kind hkq, exprWithin_of_kind hkq]
      have hc := contains_of_kind rfl hkq
      have hlt := (ht.lt_of_reads hq).resolve_left (Nat.pos_iff_ne_zero.mp (contains_iff.mp hc).1)
      exact ih _ (hn ▸ sub_lt_of_lt hc hlt) (hless q hlt) (hless' q hlt) rfl

/-- **An expression is read from those below it.** -/
theorem expr?_eq (hc : t.contains id) : t.expr? id = t.readNode t.expr? id := by
  have h0 := (contains_iff.mp hc).1
  by_cases hk : t.kind id = .slNoType
  · rw [expr?, exprWithin_of_kind hk, readNode, hk]
  have hdepth : t.size < t.size + 1 + id := by omega
  obtain ⟨d, heq, hless⟩ := exists_depth rfl hk hdepth
  rw [expr?, heq]
  refine readNode_congr fun q hq => ?_
  by_cases hkq : t.kind q = .slNoType
  · rw [expr?, exprWithin_of_kind hkq, exprWithin_of_kind hkq]
  have hq0 := (contains_iff.mp (contains_of_kind rfl hkq)).1
  have hlt := (ht.lt_of_reads hq).resolve_left (Nat.pos_iff_ne_zero.mp hq0)
  exact ht.exprWithin_congr (hless q hlt) (by omega)

end WellMade

theorem isReadable_of_expr? {e : Expr} (h : t.expr? id = some e) : (t.kind id).isReadable := by
  rw [expr?, exprWithin] at h
  split at h
  · cases h
  · exact isReadable_of_readNode h

theorem contains_of_expr? {e : Expr} (h : t.expr? id = some e) : t.contains id :=
  contains_of_kind rfl fun hk => by
    have hread := isReadable_of_expr? h
    rw [hk] at hread
    cases hread

/-! ### Every expression in the tree -/

/-- **Is an expression what is read somewhere in the tree?** -/
def Tells (t : NodeTable) (e : Expr) : Prop := ∃ id, t.Below t.root id ∧ t.expr? id = some e

/-- A table in which nothing is read below the trivia in the tree. -/
def Quiet (t : NodeTable) : Prop :=
  ∀ p, t.Below t.root p → ∀ trivia ∈ t.children p, (t.kind trivia).isTrivia →
    ∀ q ∈ t.children trivia, (t.kind q).isReadable = false

theorem isTrivia_of_isReadable {k : NodeKind} (h : k.isReadable) : k.isTrivia = false := by
  unfold NodeKind.isReadable at h
  split at h <;> first | rfl | cases h

/-- What is read for a node of the tree stands in the tree. -/
theorem Quiet.below_of_reads (hquiet : t.Quiet) (hid : t.Below t.root id) (h : t.Reads id q)
    {e : Expr} (he : t.expr? q = some e) : t.Below t.root q := by
  have hread := isReadable_of_expr? he
  have hq := isTrivia_of_isReadable hread
  cases h with
  | absent => cases he
  | child hmem => exact hid.child (mem_shape hmem hq)
  | argument hp hmem => exact (hid.child hp).child (mem_shape hmem hq)
  | @bound p select q hp hs hmem =>
    by_cases hselect : (t.kind select).isTrivia
    · rw [hquiet p (hid.child hp) select hs hselect q hmem] at hread
      cases hread
    · exact ((hid.child hp).child (mem_shape hs (Bool.not_eq_true _ ▸ hselect))).child
        (mem_shape hmem hq)

/-- **Every expression in one that is read** is read somewhere in the tree, and so has what all of
those have. -/
theorem WellMade.every_expr? (ht : t.WellMade) (hquiet : t.Quiet) (hP : ∀ e, t.Tells e → P e)
    (hid : t.Below t.root id) {e : Expr} (he : t.expr? id = some e) : e.Every P := by
  induction hn : t.size - id using Nat.strong_induction_on generalizing id e with
  | _ n ih =>
    have hc := contains_of_expr? he
    have hread := he
    rw [ht.expr?_eq hc] at hread
    refine every_readNode (fun q hq e' he' => ?_) hread (hP e ⟨id, hid, he⟩)
    have hc' := contains_of_expr? he'
    have hlt := (ht.lt_of_reads hq).resolve_left (Nat.pos_iff_ne_zero.mp (contains_iff.mp hc').1)
    exact ih _ (hn ▸ sub_lt_of_lt hc' hlt) (hquiet.below_of_reads hid hq he') he' rfl

end NodeTable

/-!
## Nothing is read below comments and marks

The mark of a directive or of a macro use carries a copy of the nodes of the directive, and other
trivia have nothing below them. The nodes of directives are of kinds of their own, none of which is
read as an expression (`NodeTable.mute_of_preprocessText`). So in the table of a text that has been
preprocessed nothing is read below trivia (`SourceFile.quiet_ofText`).
-/

/-! ### Directives -/

namespace DirectiveGrammar

open Grammar ParseTree

/-- A grammar whose nodes are not read as expressions. -/
abbrev Mute (g : DirectiveGrammar) : Prop := g.Orderly fun k => k.isReadable = false

theorem isReadable_definitionKind (parts : List ParseTree) :
    (definitionKind parts).isReadable = false := by
  unfold definitionKind
  simp only
  split <;> rfl

theorem mute_groupsAnd (p : DirectiveKind → Bool) : Mute (groupsAnd p) := by
  simp [groupsAnd]

theorem mute_macroName : Mute macroName := by
  simp +decide [macroName]

theorem mute_spaces : Mute spaces := by
  simp [spaces]

theorem mute_macroUse : Mute macroUse := by
  simp +decide [macroUse, actualArguments, mute_spaces, mute_groupsAnd]

theorem mute_macroDefinition : Mute macroDefinition := by
  refine ⟨fun ts => by simp [leavesAll, leaves], fun ts hts k hk => ?_, ?_⟩
  · rcases List.mem_cons.mp (by simpa [kindsAll, kinds] using hk) with rfl | hk
    · exact isReadable_definitionKind ts
    · exact hts k hk
  · simp +decide [formalArguments, macroBody, mute_spaces, mute_macroName, mute_groupsAnd]

theorem mute_text : Mute text := by
  simp +decide [text, piece, named, fileInclusion, lineNumbering, mute_macroDefinition,
    mute_macroUse, mute_macroName, mute_spaces]

theorem mute_rules : ∀ x, Mute (rules x)
  | .balanced => by simp [rules, balanced, mute_groupsAnd]

/-- No directive and no part of one is read as an expression. -/
theorem mute_parse (tokens : List DirectiveToken) :
    ∀ k ∈ (parse tokens).kinds, k.isReadable = false := by
  unfold parse
  split
  · rename_i tree _ heq
    have hkinds := (sublist_of_parse mute_rules mute_text (congrArg Prod.fst heq)).2
    simpa [kindsAll] using hkinds
  · simp [kinds, kindsAll, NodeKind.isReadable]

end DirectiveGrammar

namespace NodeTable

variable {t : NodeTable} {p id : NodeId} {n : Node}

/-- **A table none of whose nodes is read as an expression.** -/
def Mute (t : NodeTable) : Prop := ∀ id, (t.kind id).isReadable = false

theorem mute_empty (file : Option String) (library : String) :
    ({ file, library } : NodeTable).Mute := by
  intro id
  rw [kind, node_of_not_contains (by simp [contains, size])]
  rfl

theorem Mute.add (h : t.Mute) (hn : n.kind.isReadable = false) : (t.add n).2.Mute := by
  intro id
  by_cases hc : t.contains id
  · rw [kind, node_add_of_contains hc]
    exact h id
  · by_cases hid : id = t.size + 1
    · rw [hid, kind, node_add_self]
      exact hn
    · rw [kind, node_of_not_contains fun hadd => hid ?_]
      · rfl
      · obtain ⟨h0, hle⟩ := contains_iff.mp hadd
        have hsize : (t.add n).2.size = t.size + 1 := by simp [NodeTable.add, size]
        rw [contains_iff, not_and, Nat.not_le] at hc
        exact Nat.le_antisymm (hsize ▸ hle) (hc h0)

theorem Mute.modify (h : t.Mute) {f : Node → Node} (hf : ∀ n, (f n).kind = n.kind) :
    (t.modify id f).Mute := by
  intro q
  rw [kind, node_modify]
  split
  · rw [hf]
    exact h q
  · exact h q

theorem Mute.addChild (h : t.Mute) (p : NodeId) (hn : n.kind.isReadable = false) :
    (t.addChild p n).2.Mute := by
  have hadd := h.add hn
  rw [NodeTable.addChild]
  simp only
  rw [append]
  split
  · exact hadd
  · simp only
    refine Mute.modify ?_ fun _ => rfl
    split
    · exact hadd.modify fun _ => rfl
    · exact hadd.modify fun _ => rfl

end NodeTable

namespace DirectiveText

open NodeTable

mutual

theorem mute_record (d : DirectiveText) {table : NodeTable} (h : table.Mute) (p : NodeId) :
    (t : ParseTree) → (∀ k ∈ t.kinds, k.isReadable = false) → (d.record table p t).2.Mute
  | .leaf _, _ => h
  | .node kind ts, ht => by
    simp only [ParseTree.kinds, List.forall_mem_cons] at ht
    rw [record]
    exact mute_recordAll d (h.addChild p ht.1) _ ts ht.2

/-- **Recording trees** none of which is read as an expression. -/
theorem mute_recordAll (d : DirectiveText) {table : NodeTable} (h : table.Mute) (p : NodeId) :
    (ts : List ParseTree) → (∀ k ∈ ParseTree.kindsAll ts, k.isReadable = false) →
      (d.recordAll table p ts).Mute
  | [], _ => h
  | t :: ts, hts => by
    rw [ParseTree.kindsAll, List.forall_mem_append] at hts
    rw [recordAll]
    exact mute_recordAll d (mute_record d h p t hts.1) p ts hts.2

end

end DirectiveText

namespace Preprocessing

/-- Is the table mute afterwards, if it was before? -/
def KeepsMute (before after : PreprocessState) : Prop := before.nodes.Mute → after.nodes.Mute

theorem KeepsMute.of_eq {before after : PreprocessState} (h : after.nodes = before.nodes) :
    KeepsMute before after := fun hbefore => h ▸ hbefore

theorem allows_keepsMute : Allows fun _ => KeepsMute where
  frame _ := {
    refl := fun _ => .of_eq rfl
    trans := fun h h' hbefore => h' (h hbefore)
    session := fun _ _ => .of_eq rfl }
  quiet h := .of_eq h.nodes
  write _ _ _ := .of_eq rfl
  inside _ _ _ _ h := h

theorem kinds_of_mem {t : ParseTree} {ts : List ParseTree} (h : t ∈ ts) :
    t.kinds ⊆ ParseTree.kindsAll ts := by
  induction ts with
  | nil => cases h
  | cons u us ih =>
    rw [ParseTree.kindsAll]
    rcases List.mem_cons.mp h with rfl | h
    · exact List.subset_append_left _ _
    · exact List.Subset.trans (ih h) (List.subset_append_right _ _)

theorem hangs_keepsMute {d : DirectiveText} {t : ParseTree}
    (ht : t ∈ (DirectiveGrammar.parse d.tokens.toList).children) :
    Hangs (fun _ => KeepsMute) d t where
  record _ st after h hst := by
    refine h (d.mute_record hst d.parent t fun k hk => ?_)
    refine DirectiveGrammar.mute_parse d.tokens.toList k ?_
    cases hparse : DirectiveGrammar.parse d.tokens.toList with
    | leaf i =>
      rw [hparse] at ht
      cases ht
    | node kind ts =>
      rw [hparse] at ht
      exact List.mem_cons_of_mem _ (kinds_of_mem ht hk)
  lead p st definition hst := hst.modify fun _ => rfl

end Preprocessing

open Preprocessing in
/-- **The nodes of the directives of a text** are not read as expressions. -/
theorem NodeTable.mute_of_preprocessText {path text : String} {s s' : Session}
    {p : PreprocessedText} (h : preprocessText path text s = .ok p s') : p.nodes.Mute := by
  obtain ⟨after, hscan, -, rfl⟩ := scanFile_of_preprocessText h
  have hcomposed :=
    composed_scanFile allows_keepsMute (fun _ _ ht => hangs_keepsMute ht) path text s
  have hkeeps := hcomposed.keeps (allows_keepsMute.frame 1) (.start path text s)
  rw [hscan] at hkeeps
  exact hkeeps ((mute_empty _ _).add rfl)

/-! ### Files -/

namespace NodeTable

variable {s : GrowthSource} {m : LocationMapper} {tree : ParseTree} {text : PreprocessedText}
  {t : NodeTable}

/-- What a copy of a directive has at its top is a node of the directive. -/
theorem Mute.of_copies {directives : NodeTable} (h : directives.Mute) {depth definition : Nat}
    {tops : List Nat}
    (hat : Outline.AllAt t.forest (directives.outlineWithin depth definition) tops) :
    ∀ q ∈ tops, (t.kind q).isReadable = false := by
  have hlabel := hat.map_label
  cases depth with
  | zero =>
    obtain rfl := Outline.allAt_nil_iff.mp hat
    simp
  | succ depth =>
    obtain ⟨q, rfl, hq⟩ := List.map_eq_singleton_iff.mp hlabel
    intro r hr
    rw [List.mem_singleton.mp hr]
    have hcontent : (t.node q).content =
      { directives.node definition with file := directives.fileOf definition }.content := hq
    have hkind : t.kind q = directives.kind definition := congrArg (·.kind) hcontent
    rw [hkind]
    exact h definition

/-- **Nothing is read below the trivia** of a syntax tree. -/
theorem quiet_syntaxTree (hm : MarkedText.ofText text = .ok s.marked)
    (hparse : (SourceGrammar.parse s.marked.tokens.toList).1 = some tree)
    (hd : s.marked.text.nodes.Mute) (h : syntaxTree s m tree = .ok t) : t.Quiet := by
  obtain ⟨-, g, rows, -, he, hg, ha, -⟩ := Growth.ofTree_of_parse hm hparse
  have hf := finished_syntaxTree h he hg ha
  intro p hp trivia hmem hk q hq
  obtain ⟨hc, hkp⟩ := hf.contains_of_below hg hp
  have hne : (g.table s).kind p ≠ .slPreprocBegin := fun hbegin => by
    rw [hbegin] at hkp
    cases hkp
  rw [hf.children p hc hne] at hmem
  have hct := (mem_sortedFamily.mp hmem).1
  rw [(hf.fields hct).1] at hk
  have hnone := Finished.sortedFamily_begin hg hk
  by_cases hbegin : (g.table s).kind trivia = .slPreprocBegin
  · obtain ⟨tops, hchildren, hat⟩ := hf.copies trivia hct hbegin
    rw [hchildren, hnone, List.nil_append] at hq
    exact hd.of_copies hat q hq
  · rw [hf.children trivia hct hbegin, hnone] at hq
    cases hq

theorem quiet_empty (file : Option String) (library : String) :
    ({ file, library } : NodeTable).Quiet := by
  intro p _ trivia hmem
  cases p <;> cases hmem

end NodeTable

namespace SourceFile

theorem quiet_ofPreprocessed {p : PreprocessedText} (hp : p.nodes.Mute) :
    Reporting.Gives (fun f => f.nodes.Quiet) (ofPreprocessed p) := by
  unfold ofPreprocessed
  refine .bind fun session => ?_
  split
  · exact .throw _
  · rename_i marked hm
    refine .bind fun _ => ?_
    split
    · exact .pure (NodeTable.quiet_empty _ _)
    · rename_i tree ht
      dsimp only
      split
      · rename_i nodes hnodes
        exact .pure (NodeTable.quiet_syntaxTree (s := ⟨marked, _, _⟩) hm ht
          (show marked.text.nodes.Mute by rwa [(MarkedText.ofText_eq hm).1]) hnodes)
      · exact .throw _

/-- **Nothing is read below the trivia** of a file that has been read. -/
theorem quiet_ofText {path text : String} {s s' : Session} {f : SourceFile}
    (h : ofText path text s = .ok f s') : f.nodes.Quiet := by
  obtain ⟨p, mid, hp, h⟩ := Step.exists_of_bind h
  exact quiet_ofPreprocessed (NodeTable.mute_of_preprocessText hp) mid f s' h

end SourceFile

end Verilog
