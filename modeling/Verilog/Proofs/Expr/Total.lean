import Verilog.Proofs.Expr.Read
import Verilog.Proofs.Syntax.Made

/-!
# Every expression of a text is read

The grammar leaves no operator before an operand, no operand and no literal that cannot be read. So
in a table that is made as the grammar says, every expression below the root is read
(`NodeTable.WellMade.exists_expr`).
-/

namespace Verilog

open SourceGrammar Grammar

/-- Is a node of a kind always read as an expression? -/
def NodeKind.isRead (k : NodeKind) : Bool :=
  k.isExpression || [.paPrimary, .paConstantPrimary, .paNetLvalue, .paVariableLvalue,
    .paPrimaryLiteral, .paStringValue, .paConcatenation, .paMultipleConcatenation, .paSystemTfCall,
    .paComplexFuncCall, .slStringConst, .slIntConst, .slRealConst, .slStringLiteral].contains k

/-- Does a reference open with a node of a kind? -/
def NodeKind.isNameFront (k : NodeKind) : Bool := k == .slStringConst || k == .paClassScope

/-- Is a row of kinds that of a reference, or a single part that is read? -/
def IsOperandRow (ks : List NodeKind) : Prop :=
  ∃ k rest, ks = k :: rest ∧ (k.isNameFront ∨ rest = [] ∧ k.isRead)

/-! ### The parts of operands -/

theorem leafKindIn?_identifier {k : SourceKind} (hk : k.isIdentifier) (production : NodeKind)
    (front : Bool) : leafKindIn? k production front = some .slStringConst := by
  cases k <;> first | rfl | cases hk

theorem isRead_expressionKind (constant : Bool) : (expressionKind constant).isRead := by
  cases constant <;> rfl

section Rows

variable {kind : NodeKind} {constant : Bool} {ks : List NodeKind}

theorem isOperandRow_reference
    (h : Parts (leafKindIn? · kind false) shows (reference constant) ks) : IsOperandRow ks := by
  obtain ⟨scopes, _, hscope, ⟨names, more, ⟨k, hk, rfl⟩, -, rfl⟩, rfl⟩ := h
  simp only [leafKindIn?_identifier hk]
  rcases hscope with rfl | rfl
  · exact ⟨_, _, rfl, .inl rfl⟩
  · exact ⟨_, _, rfl, .inl rfl⟩

theorem isOperandRow_single {k : NodeKind} (hk : k.isRead) : IsOperandRow [k] :=
  ⟨k, [], rfl, .inr ⟨rfl, hk⟩⟩

theorem isOperandRow_lvalue (h : Parts (leafKindIn? · kind false) shows lvalue ks) :
    IsOperandRow ks := by
  rcases h with rfl | h
  · exact isOperandRow_single rfl
  · exact isOperandRow_reference h

/-- Parentheses leave nothing but what is between them. -/
theorem isOperandRow_parens
    (hplain : ∀ k, k = .leftParen ∨ k = .rightParen → leafKindIn? k kind false = none)
    (h : Parts (leafKindIn? · kind false) shows (parens [expression constant]) ks) :
    IsOperandRow ks := by
  obtain ⟨_, _, rfl, ⟨_, _, rfl, rfl, rfl⟩, rfl⟩ := h
  simp only [hplain _ (.inl rfl), hplain _ (.inr rfl)]
  exact isOperandRow_single (isRead_expressionKind constant)

theorem isOperandRow_primary (hk : kind = .paPrimary ∨ kind = .paConstantPrimary)
    (h : Parts (leafKindIn? · kind false) shows (inside (primary constant)) ks) :
    IsOperandRow ks := by
  have hplain : ∀ k, k = .leftParen ∨ k = .rightParen → leafKindIn? k kind false = none := by
    rintro k (rfl | rfl) <;> rcases hk with rfl | rfl <;> rfl
  rcases h with rfl | rfl | rfl | rfl | h | rfl | h
  · exact isOperandRow_single rfl
  · exact isOperandRow_single rfl
  · exact isOperandRow_single rfl
  · exact isOperandRow_single rfl
  · exact isOperandRow_reference h
  · exact isOperandRow_single rfl
  · exact isOperandRow_parens hplain h

end Rows

namespace NodeTable

variable {t : NodeTable} {id : NodeId} {read : NodeId → Option Expr}

/-! ### One node -/

/-- An operand is read if what it is made of is. -/
theorem isSome_readNode_operand
    (hk : t.kind id = .paPrimary ∨ t.kind id = .paConstantPrimary ∨ t.kind id = .paNetLvalue ∨
      t.kind id = .paVariableLvalue)
    (hrow : IsOperandRow ((t.shape id).map t.kind))
    (hread : ∀ q ∈ t.shape id, (t.kind q).isRead → (read q).isSome) :
    (t.readNode read id).isSome := by
  obtain ⟨k, rest, hshape, hfront⟩ := hrow
  obtain ⟨first, more, hs, rfl, -⟩ := List.map_eq_cons_iff.mp hshape
  have hfirst : (t.kind first).isNameFront = false → (read first).isSome := fun hname =>
    hread first (by simp [hs]) (hfront.resolve_left (by simp [hname])).2
  rw [readNode]
  rcases hk with hk | hk | hk | hk <;> simp only [hk, hs] <;>
  · split
    · rfl
    · rfl
    · rename_i hstring hscope
      exact hfirst (by simpa [NodeKind.isNameFront] using ⟨hstring, hscope⟩)

/-- An expression is read if its only operand is, where it has no operator. -/
theorem isSome_readNode_expression (hk : (t.kind id).isExpression)
    (hrow : OperationParts ((t.shape id).map t.kind))
    (hread : ∀ q ∈ t.shape id, (t.kind q).isRead → (read q).isSome) :
    (t.readNode read id).isSome := by
  have heq : t.readNode read id = t.readOperation read id := by
    rw [NodeKind.isExpression, Bool.or_eq_true, beq_iff_eq, beq_iff_eq] at hk
    rw [readNode]
    rcases hk with hk | hk <;> simp only [hk]
  rw [heq, readOperation]
  generalize hs : t.shape id = ids at hrow hread
  generalize hks : ids.map t.kind = ks at hrow
  cases hrow with
  | operand constant =>
    obtain ⟨q, rfl, hq⟩ := List.map_eq_singleton_iff.mp hks
    exact hread q (by simp) (by rw [hq]; cases constant <;> rfl)
  | unary hop hoperand =>
    obtain ⟨op, _, rfl, rfl, hmore⟩ := List.map_eq_cons_iff.mp hks
    obtain ⟨q, rfl, -⟩ := List.map_eq_singleton_iff.mp hmore
    simp [hop]
  | binary hop constant =>
    obtain ⟨l, _, rfl, -, hmore⟩ := List.map_eq_cons_iff.mp hks
    obtain ⟨o, _, rfl, -, hlast⟩ := List.map_eq_cons_iff.mp hmore
    obtain ⟨r, rfl, -⟩ := List.map_eq_singleton_iff.mp hlast
    rfl
  | choice constant =>
    obtain ⟨c, _, rfl, -, hmore⟩ := List.map_eq_cons_iff.mp hks
    obtain ⟨o, _, rfl, ho, hbranches⟩ := List.map_eq_cons_iff.mp hmore
    obtain ⟨y, _, rfl, -, hlast⟩ := List.map_eq_cons_iff.mp hbranches
    obtain ⟨n, rfl, -⟩ := List.map_eq_singleton_iff.mp hlast
    simp [ho]

/-- A node with one child has it as its first. -/
theorem child_eq {q : NodeId} (h : t.children id = [q]) : t.child id = q := by
  rw [children, chain] at h
  split at h
  · cases h
  · exact (List.cons.inj h).1

/-- A literal or a string is read if the token in it is. -/
theorem isSome_readNode_literal (hk : t.kind id = .paPrimaryLiteral ∨ t.kind id = .paStringValue)
    {q : NodeId} (hq : t.children id = [q]) (hread : (read q).isSome) :
    (t.readNode read id).isSome := by
  rw [readNode]
  rcases hk with hk | hk <;> simpa only [hk, child_eq hq] using hread

/-- Other nodes that are read are read whatever is below them. -/
theorem isSome_readNode_other (hk : t.kind id ∈ [.paConcatenation, .paMultipleConcatenation,
      .paSystemTfCall, .paComplexFuncCall, .slStringConst, .slIntConst, .slRealConst,
      .slStringLiteral]) :
    (t.readNode read id).isSome := by
  simp only [List.mem_cons, List.not_mem_nil, or_false] at hk
  rw [readNode]
  rcases hk with hk | hk | hk | hk | hk | hk | hk | hk <;> simp only [hk] <;> rfl

/-! ### All nodes -/

/-- What a literal is made of is one node, and read. -/
theorem isRead_of_parts_literal {kind : NodeKind} {ks : List NodeKind}
    (hk : kind = .paPrimaryLiteral ∨ kind = .paStringValue) {g : SourceGrammar}
    (hg : body? kind = some g) (h : Parts (leafKindIn? · kind false) shows g ks) :
    ∃ k, ks = [k] ∧ k.isRead := by
  rcases hk with rfl | rfl
  · cases hg
    rcases h with ⟨k, hk, rfl⟩ | rfl
    · have hk : k ∈ numbers := by simpa using hk
      simp only [numbers, List.mem_cons, List.not_mem_nil, or_false] at hk
      rcases hk with rfl | rfl | rfl | rfl <;> exact ⟨_, rfl, rfl⟩
    · exact ⟨_, rfl, rfl⟩
  · cases hg
    obtain rfl := h
    exact ⟨_, rfl, rfl⟩

namespace WellMade

variable (ht : t.WellMade)

include ht

/-- **Every node of a kind that is read** gives an expression, at any depth that is enough for what
is below it. -/
theorem isSome_exprWithin {depth : Nat} (hid : t.Below t.root id) (hk : (t.kind id).isRead)
    (hdepth : t.size < depth + id) : (t.exprWithin depth id).isSome := by
  induction hn : t.size - id using Nat.strong_induction_on generalizing id depth with
  | _ n ih =>
    have hnone : t.kind id ≠ .slNoType := fun h => by
      rw [h] at hk
      cases hk
    obtain ⟨d, heq, hd⟩ := exists_depth rfl hnone hdepth
    rw [heq]
    have hread : ∀ q ∈ t.shape id, (t.kind q).isRead → (t.exprWithin d q).isSome := by
      intro q hq hkq
      obtain ⟨hlt, hc⟩ := ht.grounded id q (children_of_shape hq)
      have hle := (contains_iff.mp hc).2
      have hless : t.size - q < n := hn ▸ Nat.sub_lt_sub_left (Nat.lt_of_lt_of_le hlt hle) hlt
      exact ih (t.size - q) hless (hid.child hq) hkq (hd q hlt) rfl
    rw [NodeKind.isRead, Bool.or_eq_true] at hk
    rcases hk with hk | hk
    · exact isSome_readNode_expression hk (ht.operation id hid hk) hread
    simp only [List.contains_cons, List.contains_nil, Bool.or_false, Bool.or_eq_true,
      beq_iff_eq] at hk
    have hliteral (hk : t.kind id = .paPrimaryLiteral ∨ t.kind id = .paStringValue) :
        (t.readNode (t.exprWithin d) id).isSome := by
      obtain ⟨g, hg⟩ : ∃ g, body? (t.kind id) = some g := by
        rcases hk with hk | hk <;> exact ⟨_, by rw [hk]; rfl⟩
      obtain ⟨k, hrow, hkq⟩ := isRead_of_parts_literal hk hg (ht.parts id hid g hg)
      obtain ⟨q, hs, rfl⟩ := List.map_eq_singleton_iff.mp hrow
      exact isSome_readNode_literal hk ((ht.literal id hid hk).trans hs)
        (hread q (by simp [hs]) hkq)
    rcases hk with hk | hk | hk | hk | hk | hk | hk
    · have hparts := ht.parts id hid (inside (primary false)) (by rw [hk]; rfl)
      exact isSome_readNode_operand (.inl hk) (isOperandRow_primary (.inl hk) hparts) hread
    · have hparts := ht.parts id hid (inside (primary true)) (by rw [hk]; rfl)
      exact isSome_readNode_operand (.inr (.inl hk)) (isOperandRow_primary (.inr hk) hparts) hread
    · have hparts := ht.parts id hid lvalue (by rw [hk]; rfl)
      exact isSome_readNode_operand (.inr (.inr (.inl hk))) (isOperandRow_lvalue hparts) hread
    · have hparts := ht.parts id hid lvalue (by rw [hk]; rfl)
      exact isSome_readNode_operand (.inr (.inr (.inr hk))) (isOperandRow_lvalue hparts) hread
    · exact hliteral (.inl hk)
    · exact hliteral (.inr hk)
    · exact isSome_readNode_other (by simpa using hk)

/-- **Every expression below the root is read.** -/
theorem exists_expr (hid : t.Below t.root id) (hk : (t.kind id).isRead) :
    ∃ e, t.expr? id = some e := by
  have h0 : 0 < id := (contains_iff.mp (contains_of_kind rfl fun h => by
    rw [h] at hk
    cases hk)).1
  exact Option.isSome_iff_exists.mp (ht.isSome_exprWithin hid hk (by omega))

end WellMade

end NodeTable

end Verilog
