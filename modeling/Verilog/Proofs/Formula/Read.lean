import Verilog.Expr.Read
import Verilog.Proofs.Formula.Tokens
import Verilog.Proofs.Source.Mark
import Verilog.Proofs.Syntax.Spared

/-!
# Formulas as expressions

The node at which the tree of a formula stands is read as an expression that means the formula
(`Formula.exists_expr`): parentheses are gone, an operator is the one that its place in the tree
makes it, a number has its value, and operands have kept their order.
-/

namespace Verilog

/-- **Does an expression mean a formula?** Places are of no concern. -/
inductive Expr.Means : Expr → Formula → Prop
  | name (x : PlainName) (range : Option SourceRange) : Means (.name x.text range) (.name x)
  | number (n : UInt64) (range : Option SourceRange) :
    Means (.constant s!"UINT:{n.toNat}" range) (.number n)
  | unary {op : UnaryOperator} {e : Expr} {f : Formula} (range : Option SourceRange)
    (h : Means e f) : Means (.operation (some op.meaning) [e] range) (.unary op f)
  | binary {op : BinaryOperator} {e e' : Expr} {f g : Formula} (range : Option SourceRange)
    (h : Means e f) (h' : Means e' g) :
    Means (.operation (some op.meaning) [e, e'] range) (.binary op f g)
  | choose {c e e' : Expr} {f g h : Formula} (range : Option SourceRange) (hc : Means c f)
    (hyes : Means e g) (hno : Means e' h) :
    Means (.operation (some .condition) [c, e, e'] range) (.choose f g h)
  | parens {e : Expr} {f : Formula} (h : Means e f) : Means e (.parens f)

/-! ### Words as leaves -/

theorem isBlank_of_isNameRest {c : Char} (h : isNameRest c = true) : isBlank c = false := by
  have hbetween (hlow : '0'.toNat ≤ c.toNat) (hhigh : c.toNat ≤ 'z'.toNat) :
      isBlank c = false := by
    simp [isBlank] at hlow hhigh ⊢
    omega
  rw [isNameRest, Bool.or_eq_true, Bool.or_eq_true, beq_iff_eq, beq_iff_eq] at h
  obtain (h | rfl) | rfl := h
  · obtain h | h := Bool.or_eq_true_iff.mp h
    · obtain ⟨hlow, hhigh⟩ := toNat_of_isAlpha h
      exact hbetween (le_trans (by decide) hlow) hhigh
    · obtain ⟨hlow, hhigh⟩ := toNat_of_isDigit h
      exact hbetween hlow (hhigh.trans (by decide))
  · decide
  · decide

/-- A word of letters and digits has no blanks around it. -/
theorem dropWhile_isBlank {s : List Char} (h : ∀ c ∈ s, isNameRest c = true) :
    s.dropWhile isBlank = s :=
  List.dropWhile_eq_self_iff.mpr fun hl => by simp [isBlank_of_isNameRest
  (h _ (List.getElem_mem hl))]

theorem trimRight_word {s : List Char} (h : ∀ c ∈ s, isNameRest c = true) : trimRight s = s := by
  rw [trimRight, dropWhile_isBlank (by simpa using h), List.reverse_reverse]

theorem identifierName_word {x : String} (h : ∀ c ∈ x.toList, isNameRest c = true) :
    identifierName x = x := by
  have hhead : (x.toList.head? == some '\\') = false := by
    rw [beq_eq_false_iff_ne]
    intro hc
    exact absurd (h _ (List.mem_of_head? hc)) (by decide)
  simp [identifierName, hhead, trimRight_word h]

theorem trimText_word {x : String} (h : ∀ c ∈ x.toList, isNameRest c = true) : trimText x = x := by
  rw [trimText, trim, trimLeft, dropWhile_isBlank h, trimRight_word h, String.ofList_toList]

namespace FormulaWord

/-- The label of the leaf that a word is in a production, if it is one. -/
def label? (w : FormulaWord) (kind : NodeKind) (front : Bool) : Option (NodeKind × Option String) :=
  (leafKindIn? w.kind kind front).map fun k => (k, leafName? k w.text)

theorem leafLabel?_eq {tokens : Array SourceToken} {i : Nat} {w : FormulaWord}
    (h : w.Stands tokens i) {kind : NodeKind} {ts : List ParseTree} {front : Bool}
    (hfront : (ParseTree.node kind ts).opensWith i = front) :
    (ParseTree.node kind ts).leafLabel? tokens i = w.label? kind front := by
  obtain ⟨token, ht, hk, htext⟩ := h
  rw [label?, ← hk, ← htext, ← hfront]
  simp only [ParseTree.leafLabel?, ht, ParseTree.kind?, bind, Option.bind_some, pure]
  cases leafKindIn? token.kind kind _ <;> rfl

theorem label?_name (x : PlainName) (kind : NodeKind) (front : Bool) :
    (name x).label? kind front = some (.slStringConst, some x.text) :=
  congrArg (fun text => some (NodeKind.slStringConst, some text))
    (identifierName_word (isNameRest_of_isWord x.isWord))

theorem label?_number (n : UInt64) (kind : NodeKind) (front : Bool) :
    (number n).label? kind front = some (.slIntConst, some (number n).text) := by
  refine congrArg (fun text => some (NodeKind.slIntConst, some text)) (trimText_word fun c hc => ?_)
  have hdigit := (isDigit_text_number n).2 c hc
  simp [isNameRest, Char.isAlphanum, hdigit]

/-- **The digits of a number** are read as its value. -/
theorem integerValue_number (n : UInt64) :
    integerValue (number n).text.toList = s!"UINT:{n.toNat}" := by
  have hdigits := (isDigit_text_number n).2
  have hquote : (number n).text.toList.dropWhile (· != '\'') = [] :=
    List.dropWhile_eq_nil_iff.mpr fun c hc => bne_iff_ne.mpr (ne_of_class (hdigits c hc) rfl).symm
  have hread : readDecimal (number n).text.toList = some n.toNat := by
    rw [readDecimal, cleanNumber_digits hdigits]
    split
    · rename_i s hs
      exact absurd (hdigits '-' (by simp [hs])) (by decide)
    · rw [text, Nat.toList_repr]
      exact readUnsigned_toDigits n.toNat_lt
  rw [integerValue, hquote]
  simp only [plainValue, hread]

theorem label?_unary (op : UnaryOperator) : ∃ k name,
    (unary op).label? .paExpression true = some (k, name) ∧ k.unaryOperator? = some op.meaning := by
  cases op <;> exact ⟨_, _, rfl, rfl⟩

theorem label?_binary (op : BinaryOperator) : ∃ k name,
    (binary op).label? .paExpression false = some (k, name) ∧
      k.binaryOperator? = some op.meaning := by
  cases op <;> exact ⟨_, _, rfl, rfl⟩

end FormulaWord

/-! ### Trees in a table -/

namespace NodeTable

open Outline ParseTree

variable {t : NodeTable} {tokens : Array SourceToken} {production : ParseTree} {kind : NodeKind}
  {ts : List ParseTree} {id : NodeId} {ids : List NodeId}

/-- The outline of a production stands at a node of its kind, and those of its parts below it. -/
theorem below_of_at (hat : AllAt t.skeleton (outline tokens production (.node kind ts)) [id])
    (hk : kind ≠ .paOpaqueBody) :
    t.kind id = kind ∧ AllAt t.skeleton (outlineAll tokens (.node kind ts) ts) (t.shape id) := by
  rw [outline, if_neg hk] at hat
  exact ⟨congrArg Prod.fst hat.1.1, hat.1.2⟩

theorem at_production {us : List ParseTree}
    (hat : AllAt t.skeleton (outlineAll tokens production (.node kind us :: ts)) ids) :
    ∃ q rest, ids = q :: rest ∧
      AllAt t.skeleton (outline tokens production (.node kind us)) [q] ∧
      AllAt t.skeleton (outlineAll tokens production ts) rest := by
  rw [outlineAll, outline] at hat
  cases ids with
  | nil => exact hat.elim
  | cons q rest => exact ⟨q, rest, rfl, by rw [outline]; exact ⟨hat.1, trivial⟩, hat.2⟩

theorem at_leaf {i : Nat} {a : NodeKind × Option String}
    (ha : production.leafLabel? tokens i = some a)
    (hat : AllAt t.skeleton (outlineAll tokens production (.leaf i :: ts)) ids) :
    ∃ q rest, ids = q :: rest ∧ t.kind q = a.1 ∧ t.name q = a.2 ∧
      AllAt t.skeleton (outlineAll tokens production ts) rest := by
  rw [outlineAll, outline, ha] at hat
  cases ids with
  | nil => exact hat.elim
  | cons q rest =>
    exact ⟨q, rest, rfl, congrArg Prod.fst hat.1.1, congrArg Prod.snd hat.1.1, hat.2⟩

/-- A token that is no leaf of any kind leaves no trace. -/
theorem at_token {i : Nat} (ha : production.leafLabel? tokens i = none)
    (hat : AllAt t.skeleton (outlineAll tokens production (.leaf i :: ts)) ids) :
    AllAt t.skeleton (outlineAll tokens production ts) ids := by
  rw [outlineAll, outline, ha] at hat
  exact hat

theorem at_end (hat : AllAt t.skeleton (outlineAll tokens production []) ids) : ids = [] :=
  allAt_nil_iff.mp (by rwa [outlineAll] at hat)

/-- **A table that formulas can be read off**: nodes come before those below them, and literals
have nothing below them but what they are made of. -/
structure Legible (t : NodeTable) : Prop where
  grounded : ∀ p, ∀ q ∈ t.children p, Nat.lt p q ∧ t.contains q
  literal : ∀ id, t.Below t.root id → t.kind id = .paPrimaryLiteral → t.children id = t.shape id

variable {read : NodeId → Option Expr} {q : NodeId}

/-- A name by itself. -/
theorem readNode_name {x : String} (hk : t.kind id = .paPrimary) (hs : t.shape id = [q])
    (hq : t.kind q = .slStringConst) (hx : t.name q = some x) :
    t.readNode read id = some (.name x (t.range? id id)) := by
  have hname : t.nameText q = x := by rw [nameText, hx]; rfl
  have hselect : t.firstSelect? [q] = none := by simp [firstSelect?, hq]
  have hreference : t.referenceName [q] = x := by simp [referenceName, hq, hname]
  rw [readNode, hk]
  simp only [hs, hq, readReference, hselect, hreference]

/-- An operand that is no name is what it is made of. -/
theorem readNode_primary (hk : t.kind id = .paPrimary) (hs : t.shape id = [q])
    (hname : t.kind q ≠ .slStringConst) (hscope : t.kind q ≠ .paClassScope) :
    t.readNode read id = read q := by
  rw [readNode, hk]
  simp only [hs]

/-- A literal is the node it is made of. -/
theorem readNode_literal (hk : t.kind id = .paPrimaryLiteral) (hs : t.children id = [q]) :
    t.readNode read id = read q := by
  have hchild : t.child id = q := by
    rw [children, chain] at hs
    split at hs
    · cases hs
    · exact (List.cons.inj hs).1
  rw [readNode, hk]
  simp only [hchild]

/-- The node of a number. -/
theorem readNode_integer {x : String} (hk : t.kind id = .slIntConst) (hx : t.name id = some x) :
    t.readNode read id = some (.constant (integerValue x.toList) (t.range? id id)) := by
  have hname : t.nameText id = x := by rw [nameText, hx]; rfl
  rw [readNode, hk]
  simp only [literalValue, hk, hname]

theorem readNode_expression (hk : t.kind id = .paExpression) :
    t.readNode read id = t.readOperation read id := by
  rw [readNode, hk]

end NodeTable

namespace Formula

open NodeTable Outline ParseTree

variable {t : NodeTable} {tokens : Array SourceToken} {f : Formula} {tree : ParseTree}

/-- The tree of a formula is an operand or an expression. -/
theorem Reads.exists_node {stands : Nat → FormulaWord → Prop} (h : f.Reads stands tree) :
    ∃ kind ts, tree = .node kind ts ∧ (kind = .paPrimary ∨ kind = .paExpression) := by
  induction h with
  | name | number | group => exact ⟨_, _, rfl, .inl rfl⟩
  | parens _ ih => exact ih
  | operand | unary | binary | choose => exact ⟨_, _, rfl, .inr rfl⟩

/-- Is the node at which a tree stands read as a formula, wherever in the table it is? -/
def ReadFrom (t : NodeTable) (tokens : Array SourceToken) (tree : ParseTree) (f : Formula) :
    Prop :=
  ∀ {production : ParseTree} {id : NodeId} {depth : Nat}, t.Below t.root id →
    AllAt t.skeleton (outline tokens production tree) [id] → t.size < depth + id →
    ∃ e, t.exprWithin depth id = some e ∧ e.Means f

namespace ReadFrom

variable {stands : Nat → FormulaWord → Prop} {u c y n : ParseTree} {g h : Formula} {i j : Nat}

/-- A part of a production is read with what depth is left. -/
theorem part {p q : NodeId} {production : ParseTree} {d : Nat} (hu : ReadFrom t tokens u f)
    (ht : t.Legible) (hp : t.Below t.root p) (hq : q ∈ t.shape p)
    (hat : AllAt t.skeleton (outline tokens production u) [q])
    (hd : ∀ q, Nat.lt p q → t.size < d + q) : ∃ e, t.exprWithin d q = some e ∧ e.Means f :=
  hu (hp.child hq) hat (hd q (ht.grounded p q (children_of_shape hq)).1)

theorem name {x : PlainName} (hi : (FormulaWord.name x).Stands tokens i) :
    ReadFrom t tokens (.node .paPrimary [.leaf i]) (.name x) := by
  intro production id depth hid hat hdepth
  obtain ⟨hk, hat⟩ := below_of_at hat (by decide)
  obtain ⟨q, rest, hs, hkq, hnq, hat⟩ :=
    at_leaf ((FormulaWord.leafLabel?_eq hi rfl).trans (FormulaWord.label?_name x _ _)) hat
  rw [at_end hat] at hs
  obtain ⟨d, he, -⟩ := exists_depth hk (by decide) hdepth
  exact ⟨_, he.trans (readNode_name hk hs hkq hnq), .name x _⟩

theorem number (ht : t.Legible) {n : UInt64} (hi : (FormulaWord.number n).Stands tokens i) :
    ReadFrom t tokens (.node .paPrimary [.node .paPrimaryLiteral [.leaf i]]) (.number n) := by
  intro production id depth hid hat hdepth
  obtain ⟨hk, hat⟩ := below_of_at hat (by decide)
  obtain ⟨q, rest, hs, hq, hat⟩ := at_production hat
  rw [at_end hat] at hs
  obtain ⟨hkq, hat⟩ := below_of_at hq (by decide)
  obtain ⟨r, rest, hsq, hkr, hnr, hat⟩ :=
    at_leaf ((FormulaWord.leafLabel?_eq hi rfl).trans (FormulaWord.label?_number n _ _)) hat
  rw [at_end hat] at hsq
  -- a literal is read by its first child, which a comment in it could be
  have hchildren := (ht.literal q (hid.child (by simp [hs])) hkq).trans hsq
  have hlt := (ht.grounded id q (children_of_shape (by simp [hs]))).1
  have hlt' := (ht.grounded q r (by simp [hchildren])).1
  obtain ⟨d, he, hd⟩ := exists_depth hk (by decide) hdepth
  obtain ⟨d', he', hd'⟩ := exists_depth hkq (by decide) (hd q hlt)
  have hkr' : t.kind r = .slIntConst := hkr
  obtain ⟨_, he'', -⟩ := exists_depth hkr' (by decide) (hd' r hlt')
  refine ⟨_, ?_, .number n (t.range? r r)⟩
  rw [he, readNode_primary hk hs (by simp [hkq]) (by simp [hkq]), he',
    readNode_literal hkq hchildren,
    he'', readNode_integer hkr hnr, FormulaWord.integerValue_number]

theorem group (ht : t.Legible) (hi : FormulaWord.leftParen.Stands tokens i)
    (hj : FormulaWord.rightParen.Stands tokens j) (hr : f.Reads stands u)
    (hu : ReadFrom t tokens u f) :
    ReadFrom t tokens (.node .paPrimary [.leaf i, u, .leaf j]) f := by
  intro production id depth hid hat hdepth
  obtain ⟨hk, hat⟩ := below_of_at hat (by decide)
  have hat := at_token ((FormulaWord.leafLabel?_eq hi rfl).trans rfl) hat
  obtain ⟨kind, us, rfl, hkind⟩ := hr.exists_node
  obtain ⟨q, rest, hs, hq, hat⟩ := at_production hat
  have hat := at_token ((FormulaWord.leafLabel?_eq hj rfl).trans rfl) hat
  rw [at_end hat] at hs
  obtain ⟨d, he, hd⟩ := exists_depth hk (by decide) hdepth
  obtain ⟨e, hre, hm⟩ := hu.part ht hid (by simp [hs]) hq hd
  have hkq : t.kind q = kind := (below_of_at hq (by rcases hkind with rfl | rfl <;> decide)).1
  refine ⟨e, ?_, hm⟩
  rw [he, readNode_primary hk hs, hre]
  · rw [hkq]
    rcases hkind with rfl | rfl <;> decide
  · rw [hkq]
    rcases hkind with rfl | rfl <;> decide

theorem parens (hu : ReadFrom t tokens u f) : ReadFrom t tokens u (.parens f) := by
  intro production id depth hid hat hdepth
  obtain ⟨e, he, hm⟩ := hu hid hat hdepth
  exact ⟨e, he, hm.parens⟩

theorem operand (ht : t.Legible) {ts : List ParseTree}
    (hu : ReadFrom t tokens (.node .paPrimary ts) f) :
    ReadFrom t tokens (.node .paExpression [.node .paPrimary ts]) f := by
  intro production id depth hid hat hdepth
  obtain ⟨hk, hat⟩ := below_of_at hat (by decide)
  obtain ⟨q, rest, hs, hq, hat⟩ := at_production hat
  rw [at_end hat] at hs
  obtain ⟨d, he, hd⟩ := exists_depth hk (by decide) hdepth
  obtain ⟨e, hre, hm⟩ := hu.part ht hid (by simp [hs]) hq hd
  refine ⟨e, ?_, hm⟩
  rw [he, readNode_expression hk, readOperation, hs]
  exact hre

theorem unary (ht : t.Legible) {op : UnaryOperator} (hi : (FormulaWord.unary op).Stands tokens i)
    (hr : f.Reads stands u) (hu : ReadFrom t tokens u f) :
    ReadFrom t tokens (.node .paExpression [.leaf i, u]) (.unary op f) := by
  intro production id depth hid hat hdepth
  obtain ⟨hk, hat⟩ := below_of_at hat (by decide)
  obtain ⟨k, name, hl, hop⟩ := FormulaWord.label?_unary op
  -- a sign at the front of an expression is unary, and binary behind an operand
  have hfront : (ParseTree.node .paExpression [.leaf i, u]).opensWith i = true :=
    beq_self_eq_true i
  obtain ⟨o, rest, hs, hko, -, hat⟩ :=
    at_leaf ((FormulaWord.leafLabel?_eq hi hfront).trans hl) hat
  obtain ⟨kind, us, rfl, -⟩ := hr.exists_node
  obtain ⟨q, rest, rfl, hq, hat⟩ := at_production hat
  rw [at_end hat] at hs
  obtain ⟨d, he, hd⟩ := exists_depth hk (by decide) hdepth
  obtain ⟨e, hre, hm⟩ := hu.part ht hid (by simp [hs]) hq hd
  refine ⟨_, ?_, hm.unary (t.range? id id)⟩
  rw [he, readNode_expression hk, readOperation, hs]
  simp only [hko, hop, Option.map_some, List.filterMap_cons, hre, List.filterMap_nil]

theorem binary (ht : t.Legible) {op : BinaryOperator}
    (hi : (FormulaWord.binary op).Stands tokens i) (hl : f.Reads stands u)
    (hu : ReadFrom t tokens u f) (hr : g.Reads stands c) (hc : ReadFrom t tokens c g) :
    ReadFrom t tokens (.node .paExpression [u, .leaf i, c]) (.binary op f g) := by
  intro production id depth hid hat hdepth
  obtain ⟨hk, hat⟩ := below_of_at hat (by decide)
  obtain ⟨kind, us, rfl, -⟩ := hl.exists_node
  obtain ⟨a, rest, hs, ha, hat⟩ := at_production hat
  obtain ⟨k, name, hlabel, hop⟩ := FormulaWord.label?_binary op
  obtain ⟨o, rest, rfl, hko, -, hat⟩ := at_leaf ((FormulaWord.leafLabel?_eq hi rfl).trans hlabel)
    hat
  obtain ⟨kind', us', rfl, -⟩ := hr.exists_node
  obtain ⟨b, rest, rfl, hb, hat⟩ := at_production hat
  rw [at_end hat] at hs
  obtain ⟨d, he, hd⟩ := exists_depth hk (by decide) hdepth
  obtain ⟨e, hre, hm⟩ := hu.part ht hid (by simp [hs]) ha hd
  obtain ⟨e', hre', hm'⟩ := hc.part ht hid (by simp [hs]) hb hd
  refine ⟨_, ?_, hm.binary (t.range? id id) hm'⟩
  rw [he, readNode_expression hk, readOperation, hs]
  simp only [hko, hop, List.filterMap_cons, hre, hre', List.filterMap_nil]

theorem choose (ht : t.Legible) (hi : FormulaWord.question.Stands tokens i)
    (hj : FormulaWord.colon.Stands tokens j) (hcr : f.Reads stands c)
    (hc : ReadFrom t tokens c f) (hyr : g.Reads stands y) (hy : ReadFrom t tokens y g)
    (hnr : h.Reads stands n) (hn : ReadFrom t tokens n h) :
    ReadFrom t tokens (.node .paExpression [c, .leaf i, y, .leaf j, n]) (.choose f g h) := by
  intro production id depth hid hat hdepth
  obtain ⟨hk, hat⟩ := below_of_at hat (by decide)
  obtain ⟨_, _, rfl, -⟩ := hcr.exists_node
  obtain ⟨a, rest, hs, ha, hat⟩ := at_production hat
  obtain ⟨mark, rest, rfl, hkm, -, hat⟩ :=
    at_leaf ((FormulaWord.leafLabel?_eq hi rfl).trans rfl) hat
  obtain ⟨_, _, rfl, -⟩ := hyr.exists_node
  obtain ⟨b, rest, rfl, hb, hat⟩ := at_production hat
  -- the question mark has a node, by which the choice is told, and the colon has none
  have hat := at_token ((FormulaWord.leafLabel?_eq hj rfl).trans rfl) hat
  obtain ⟨_, _, rfl, -⟩ := hnr.exists_node
  obtain ⟨z, rest, rfl, hz, hat⟩ := at_production hat
  rw [at_end hat] at hs
  obtain ⟨d, he, hd⟩ := exists_depth hk (by decide) hdepth
  obtain ⟨e₁, hre₁, hm₁⟩ := hc.part ht hid (by simp [hs]) ha hd
  obtain ⟨e₂, hre₂, hm₂⟩ := hy.part ht hid (by simp [hs]) hb hd
  obtain ⟨e₃, hre₃, hm₃⟩ := hn.part ht hid (by simp [hs]) hz hd
  refine ⟨_, ?_, hm₁.choose (t.range? id id) hm₂ hm₃⟩
  rw [he, readNode_expression hk, readOperation, hs]
  simp only [hkm, beq_self_eq_true, if_true, List.filterMap_cons, hre₁, hre₂, hre₃,
    List.filterMap_nil]

end ReadFrom

/-- **The node at which the tree of a formula stands** is read as the formula. -/
theorem exists_expr (ht : t.Legible) (h : f.Reads (FormulaWord.Stands tokens) tree) :
    ReadFrom t tokens tree f := by
  induction h with
  | name hi => exact ReadFrom.name hi
  | number hi => exact ReadFrom.number ht hi
  | group hi hj h ih => exact ReadFrom.group ht hi hj h ih
  | parens h ih => exact ReadFrom.parens ih
  | operand h ih => exact ReadFrom.operand ht ih
  | unary hi h ih => exact ReadFrom.unary ht hi h ih
  | binary hl hi hr ihl ihr => exact ReadFrom.binary ht hi hl ihl hr ihr
  | choose hc hi hy hj hn ihc ihy ihn => exact ReadFrom.choose ht hi hj hc ihc hy ihy hn ihn

end Formula

end Verilog
