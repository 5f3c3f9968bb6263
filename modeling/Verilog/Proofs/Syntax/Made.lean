import Verilog.Proofs.Grammar.Yields
import Verilog.Proofs.Source.Made
import Verilog.Proofs.Syntax.Spared

/-!
# What stands below the nodes of a syntax tree

Of many kinds of nodes it is known from the grammar which kinds stand below them, in order
(`NodeTable.WellMade`). In a table that comes from a text this holds of all nodes below the root:
what the grammar made there has been turned into nodes part by part, and only tokens without a leaf
are gone (`wellMade_syntaxTree`).
-/

namespace Verilog

open SourceGrammar Grammar ParseTree

/-! ### Kinds that are made in one way -/

/-- Is it known what a node of a kind is made of? -/
def NodeKind.isMade (k : NodeKind) : Bool :=
  (body? k).isSome || (braced? false k).isSome || k.isExpression || k == .paNameOfInstance ||
    k == .paModportPortsDeclaration || k == .paGenerateBlock

section Leaves

variable {k : SourceKind} {kind : NodeKind} {front : Bool}

theorem isMade_leafKind? (h : k.leafKind? = some kind) : kind.isMade = false := by
  unfold SourceKind.leafKind? at h
  split at h <;> cases h <;> rfl

theorem isMade_operatorKind? (h : k.operatorKind? front = some kind) : kind.isMade = false := by
  unfold SourceKind.operatorKind? at h
  cases front <;> split at h <;> cases h <;> rfl

theorem isMade_gateKind? (h : k.gateKind? = some kind) : kind.isMade = false := by
  unfold SourceKind.gateKind? at h
  split at h <;> cases h <;> rfl

/-- No leaf is made of anything. -/
theorem isMade_leafKindIn? {production : NodeKind}
    (h : leafKindIn? k production front = some kind) : kind.isMade = false := by
  unfold leafKindIn? at h
  split at h
  · rename_i hk
    cases h
    exact isMade_leafKind? hk
  · split at h
    · exact isMade_operatorKind? h
    · split at h
      case h_4 => exact isMade_gateKind? h
      case h_5 => cases h
      all_goals split at h <;> cases h; rfl

/-- Only in expressions does it matter where a token stands. -/
theorem leafKindIn?_front {production : NodeKind} (hp : production.isExpression = false)
    (front front' : Bool) : leafKindIn? k production front = leafKindIn? k production front' := by
  unfold leafKindIn?
  rw [hp]
  rfl

end Leaves

/-- A semicolon has no leaf. -/
theorem leafKindIn?_semi (production : NodeKind) (front : Bool) :
    leafKindIn? .semi production front = none := by
  unfold leafKindIn?
  cases production.isExpression <;> cases front <;> cases production <;> rfl

/-- Is a kind that of what stands around the items of a block? -/
def NodeKind.isBracket (k : NodeKind) : Bool :=
  k == .slStringConst || k == .paEndLabel || k == .paGenerateBeginEndBlock

/-- Is something one part that may be an item, or no part at all? -/
def ItemRow (ks : List NodeKind) : Prop := ks = [] ∨ ∃ k, ks = [k] ∧ k.isBracket = false

/-- **An item** is one part, and nothing that stands around items. A semicolon is none. -/
theorem itemRow_of_parts {kind : NodeKind} {named : SourceRule → List NodeKind → Prop}
    {ks : List NodeKind} (h : Parts (leafKindIn? · kind false) named itemBody ks) : ItemRow ks := by
  simp only [itemBody, soundItem, choice, Parts, rule, portDeclaration,
    parameterDeclaration, netDeclaration, continuousAssign, generateRegion, loopGenerate,
    modportDeclaration, opaqueConstruct, moduleInstantiation, gateInstantiation, dataDeclaration,
    bareName, leafKindIn?_semi, Option.toList_none] at h
  rcases h with h | rfl
  · repeat' rcases h with rfl | h
    all_goals first | exact .inr ⟨_, rfl, rfl⟩ | exact .inl rfl
  · exact .inr ⟨_, rfl, rfl⟩

/-- What the productions show that are referred to by name. -/
def shows : SourceRule → List NodeKind → Prop
  | .expression constant | .unary constant => fun ks => ks = [expressionKind constant]
  | .item => ItemRow
  | .braces | .statement => fun _ => True

/-- Does a leaf of a kind stand between two operands? Two such leaves denote no operator. -/
def NodeKind.isBetween (k : NodeKind) : Bool :=
  k.binaryOperator?.isSome || k == .paBinOpReductNand || k == .paBinOpReductNor

/-- The rows of kinds that may stand below an expression. -/
inductive OperationParts : List NodeKind → Prop
  | operand (constant : Bool) : OperationParts [primaryKind constant]
  | unary {op k : NodeKind} {o : Operator} (hop : op.unaryOperator? = some o)
      (hk : k.isExpression ∨ ∃ constant, k = primaryKind constant) : OperationParts [op, k]
  | binary {op : NodeKind} (hop : op.isBetween) (constant : Bool) :
      OperationParts [expressionKind constant, op, expressionKind constant]
  | choice (constant : Bool) : OperationParts
      [expressionKind constant, .paQmark, expressionKind constant, expressionKind constant]

namespace NodeTable

/-- **A table all of whose nodes are made as the grammar says**, as far as the tree goes. -/
structure WellMade (t : NodeTable) : Prop where
  grounded : ∀ p, ∀ q ∈ t.children p, Nat.lt p q ∧ t.contains q
  parts : ∀ id, t.Below t.root id → ∀ g, body? (t.kind id) = some g →
    Parts (leafKindIn? · (t.kind id) false) shows g ((t.shape id).map t.kind)
  braced : ∀ id, t.Below t.root id → ∃ constant, ∀ g, braced? constant (t.kind id) = some g →
    Parts (leafKindIn? · (t.kind id) false) shows g ((t.shape id).map t.kind)
  operation : ∀ id, t.Below t.root id → (t.kind id).isExpression →
    OperationParts ((t.shape id).map t.kind)
  name : ∀ id, t.Below t.root id → t.kind id = .paNameOfInstance →
    ∃ q more, t.shape id = q :: more ∧ t.kind q = .slStringConst
  literal : ∀ id, t.Below t.root id → t.kind id = .paPrimaryLiteral ∨ t.kind id = .paStringValue →
    t.children id = t.shape id
  group : ∀ id, t.Below t.root id → t.kind id = .paModportPortsDeclaration → ∃ group,
    t.shape id = [group] ∧ (t.kind group = .paModportSimplePortsDeclaration ∨
      t.kind group = .paModportClockingDeclaration)
  block : ∀ id, t.Below t.root id → t.kind id = .paGenerateBlock →
    Parts (leafKindIn? · (t.kind id) false) shows (inside generateBlock) ((t.shape id).map t.kind)

/-- A table without nodes. -/
theorem wellMade_empty (file : Option String) (library : String) :
    WellMade { file, library } := by
  have hchildren (p : NodeId) : ({ file, library } : NodeTable).children p = [] := by
    cases p <;> rfl
  have hkind (p : NodeId) : ({ file, library } : NodeTable).kind p = .slNoType := by
    rw [kind, node_of_not_contains (by simp [contains, size])]
  refine ⟨fun p q hq => ?_, fun id _ g hg => ?_, fun id _ => ⟨false, fun g hg => ?_⟩,
    fun id _ hk => ?_, fun id _ hk => ?_, fun id _ hk => ?_, fun id _ hk => ?_,
    fun id _ hk => ?_⟩
  · rw [hchildren] at hq
    cases hq
  · rw [hkind] at hg
    cases hg
  · rw [hkind] at hg
    cases hg
  all_goals
    rw [hkind] at hk
    simp [NodeKind.isExpression] at hk

end NodeTable

/-! ### Outlines -/

namespace Outline

variable {α : Type}

/-- What stands at the top of an outline. -/
def top : Outline α → α
  | node a _ => a

theorem AllAt.map_label {f : Forest α} {os : List (Outline α)} {ids : List Nat}
    (h : AllAt f os ids) : ids.map f.label = os.map top := by
  induction os generalizing ids with
  | nil => rw [allAt_nil_iff.mp h]; rfl
  | cons o os ih =>
    cases ids with
    | nil => exact h.elim
    | cons id ids =>
      cases o with
      | node a below =>
        obtain ⟨⟨hlabel, -⟩, hrest⟩ := h
        rw [List.map_cons, List.map_cons, hlabel, ih hrest, top]

end Outline

namespace ParseTree

variable {tokens : Array SourceToken} {kind : NodeKind} {ts : List ParseTree} {t : NodeTable}

/-- The kind of the leaf that the token at a position of a production is. -/
def leafKindAt (tokens : Array SourceToken) (production : ParseTree) (i : Nat) : Option NodeKind :=
  (production.leafLabel? tokens i).map (·.1)

/-- The kinds of the parts of a production stand at the top of their outlines. -/
theorem map_top_outlineAll (production : ParseTree) (ts : List ParseTree) :
    (outlineAll tokens production ts).map (·.top.1) =
      ts.filterMap (partKind? (leafKindAt tokens production)) := by
  induction ts with
  | nil => rfl
  | cons u us ih =>
    rw [outlineAll, List.map_append, ih, List.filterMap_cons]
    cases u with
    | leaf i =>
      rw [outline, partKind?, leafKindAt]
      cases production.leafLabel? tokens i <;> rfl
    | node k vs =>
      rw [outline]
      rfl

theorem leafKindAt_eq {i : Nat} {k : SourceKind} {front : Bool}
    (hi : (i, k) ∈ visible tokens.toList) (hf : (ParseTree.node kind ts).opensWith i = front) :
    leafKindAt tokens (.node kind ts) i = leafKindIn? k kind front := by
  obtain ⟨token, ht, rfl⟩ := exists_token_of_visible hi
  rw [← hf]
  simp only [leafKindAt, leafLabel?, ht, kind?, bind, Option.bind_some, pure]
  cases leafKindIn? token.kind kind _ <;> rfl

/-! ### What the grammar made -/

theorem isExpression_of_body? {g : SourceGrammar} (h : body? kind = some g) :
    kind.isExpression = false := by
  by_contra hk
  rw [Bool.not_eq_false, NodeKind.isExpression, Bool.or_eq_true, beq_iff_eq, beq_iff_eq] at hk
  rcases hk with rfl | rfl <;> cases h

theorem isExpression_of_braced? {constant : Bool} {g : SourceGrammar}
    (h : braced? constant kind = some g) : kind.isExpression = false := by
  unfold braced? at h
  split at h <;> first | rfl | cases h

/-- The parts of a production show one of the rows of its grammar. -/
theorem parts_of_yields {g : SourceGrammar} (hkind : kind.isExpression = false)
    (h : Yields rules (visible tokens.toList) g ts) :
    Parts (leafKindIn? · kind false) shows g
      (ts.filterMap (partKind? (leafKindAt tokens (.node kind ts)))) := by
  have hleaf : ∀ i k, (i, k) ∈ visible tokens.toList →
      leafKindAt tokens (.node kind ts) i = leafKindIn? k kind false := fun i k hi => by
    rw [leafKindAt_eq hi rfl, leafKindIn?_front hkind _ false]
  refine h.parts hleaf fun x us hus => ?_
  cases x with
  | expression constant =>
    obtain ⟨vs, rfl⟩ := isExpression_expression (.ref hus)
    rfl
  | unary constant =>
    obtain ⟨vs, rfl⟩ := isExpression_unary_ref (.ref hus)
    rfl
  | braces | statement => trivial
  | item =>
    have hparts : Parts _ (fun _ _ => True) itemBody _ := hus.parts hleaf fun _ _ _ => trivial
    exact itemRow_of_parts hparts

/-- Every operator that may stand before an operand means something there. -/
theorem exists_unaryOperator {op : SourceKind} (hop : op ∈ unaryOperators)
    (hk : kind.isExpression) :
    ∃ leaf o, leafKindIn? op kind true = some leaf ∧ leaf.unaryOperator? = some o := by
  simp only [unaryOperators, List.mem_cons, List.not_mem_nil, or_false] at hop
  rcases hop with rfl | rfl | rfl | rfl | rfl | rfl | rfl | rfl | rfl | rfl <;>
  exact ⟨_, _, by simp only [leafKindIn?, SourceKind.leafKind?, hk]; rfl, rfl⟩

/-- Every operator between operands has a leaf. -/
theorem exists_binaryOperator {op : SourceKind} (hop : op ∈ binaryLevels.flatten)
    (hk : kind.isExpression) : ∃ leaf, leafKindIn? op kind false = some leaf ∧ leaf.isBetween := by
  have hsome : ∀ op ∈ binaryLevels.flatten,
      op.leafKind? = none ∧ (op.operatorKind? false).any NodeKind.isBetween := by decide
  obtain ⟨hnone, hleaf⟩ := hsome op hop
  obtain ⟨leaf, hleaf, hbetween⟩ := (Option.any_eq_true _ _).mp hleaf
  exact ⟨leaf, by simp only [leafKindIn?, hnone, hk, if_true, hleaf], hbetween⟩

/-- The parts of an expression show one of its rows. -/
theorem operationParts_of_operation (hk : kind.isExpression)
    (h : Operation (visible tokens.toList) ts) :
    OperationParts (ts.filterMap (partKind? (leafKindAt tokens (.node kind ts)))) := by
  cases h with
  | operand constant us => exact .operand constant
  | @unary i op k hi hop hoperand us =>
    obtain ⟨leaf, o, hleaf, ho⟩ := exists_unaryOperator hop hk
    have hat : leafKindAt tokens (.node kind [.leaf i, .node k us]) i = leafKindIn? op kind true :=
      leafKindAt_eq hi (beq_self_eq_true i)
    simp only [List.filterMap_cons, partKind?, hat, hleaf, List.filterMap_nil]
    exact .unary ho hoperand
  | @binary i op hi hop constant us vs =>
    obtain ⟨leaf, hleaf, hbetween⟩ := exists_binaryOperator hop hk
    have hat : leafKindAt tokens (.node kind [.node (expressionKind constant) us, .leaf i,
        .node (expressionKind constant) vs]) i = leafKindIn? op kind false := leafKindAt_eq hi rfl
    simp only [List.filterMap_cons, partKind?, hat, hleaf, List.filterMap_nil]
    exact .binary hbetween constant
  | @choice i j hi hj constant us vs ws =>
    have hat {n : Nat} {op : SourceKind} (hn : (n, op) ∈ visible tokens.toList) :
        leafKindAt tokens (.node kind [.node (expressionKind constant) us, .leaf i,
          .node (expressionKind constant) vs, .leaf j, .node (expressionKind constant) ws]) n =
          leafKindIn? op kind false := leafKindAt_eq hn rfl
    simp only [List.filterMap_cons, partKind?, hat hi, hat hj, leafKindIn?,
      SourceKind.leafKind?, hk,
      SourceKind.operatorKind?, List.filterMap_nil]
    exact .choice constant

/-- What the name of an instance opens with. -/
theorem exists_name_of_made (kind : NodeKind) (us : List ParseTree) {u : ParseTree}
    (h : u.IsOf (visible tokens.toList) .slStringConst) :
    ∃ ks, (u :: us).filterMap (partKind? (leafKindAt tokens (.node kind (u :: us)))) =
      .slStringConst :: ks := by
  refine ⟨_, List.filterMap_cons_some ?_⟩
  cases u with
  | node k vs => exact congrArg some h
  | leaf i =>
    obtain ⟨s, hs, hk⟩ := h
    rw [partKind?, leafKindAt_eq hs rfl]
    simp only [leafKindIn?, hk]

end ParseTree

/-! ### Syntax trees -/

namespace NodeTable

variable {s : GrowthSource} {m : LocationMapper} {tree : ParseTree} {text : PreprocessedText}
  {t : NodeTable}

/-- Is a node of an outline made as the grammar says, or is nothing known of its kind? -/
def MadeOutline (tokens : Array SourceToken) (a : NodeKind × Option String)
    (os : List (Outline (NodeKind × Option String))) : Prop :=
  a.1.isMade → ∃ ts, os = outlineAll tokens (.node a.1 ts) ts ∧ Made (visible tokens.toList) a.1 ts

theorem madeOutline_of_made {tokens : Array SourceToken} {kind : NodeKind} {ts : List ParseTree}
    (h : Made (visible tokens.toList) kind ts) :
    MadeOutline tokens (kind, none) (outlineBelow tokens kind ts) := by
  refine fun hk => ⟨ts, ?_, h⟩
  have hopaque : kind ≠ .paOpaqueBody := by
    rintro rfl
    cases hk
  rw [outlineBelow, if_neg hopaque]

/-- **Below every node** of a syntax tree of whose kind something is known, its parts stand in
order. -/
theorem exists_made (hm : MarkedText.ofText text = .ok s.marked)
    (hparse : (SourceGrammar.parse s.marked.tokens.toList).1 = some tree)
    (h : syntaxTree s m tree = .ok t) {id : NodeId} (hid : t.Below t.root id)
    (hk : (t.kind id).isMade) : ∃ ts, Made (visible s.marked.tokens.toList) (t.kind id) ts ∧
      (t.shape id).map t.kind =
        ts.filterMap (partKind? (leafKindAt s.marked.tokens (.node (t.kind id) ts))) := by
  have hevery : Outline.EveryOf (MadeOutline s.marked.tokens)
      (outline s.marked.tokens (.leaf 0) tree) := by
    refine everyOf_outline_of_leaves (fun production i a ha hmade => ?_) _ _
      ((made_parse hparse).imp fun _ _ => madeOutline_of_made)
    simp only [leafLabel?, bind, Option.bind_eq_some_iff, Option.some.injEq, pure] at ha
    obtain ⟨token, -, _, -, kind, hkind, rfl⟩ := ha
    rw [isMade_leafKindIn? hkind] at hmade
    cases hmade
  obtain ⟨⟨⟨kind, name⟩, below⟩, ⟨hlabel, hbelow⟩, hmade, -⟩ :=
    exists_outline_of_below (allAt_syntaxTree hm hparse h (.leaf 0)) hevery hid
  obtain rfl : t.kind id = kind := congrArg Prod.fst hlabel
  obtain ⟨ts, rfl, hts⟩ := hmade hk
  refine ⟨ts, hts, ?_⟩
  rw [← map_top_outlineAll]
  have hlabels := congrArg (List.map Prod.fst) hbelow.map_label
  rw [List.map_map, List.map_map] at hlabels
  exact hlabels

/-- Literals and strings are single tokens. -/
theorem ofOneToken_of_made {tokens : List (Nat × SourceKind)} {k kind : NodeKind}
    {ts : List ParseTree} (hk : k = .paPrimaryLiteral ∨ k = .paStringValue)
    (h : Made tokens kind ts) : OfOneToken k kind ts := by
  rintro rfl
  rcases hk with rfl | rfl
  · cases h.body _ rfl with
    | left hnumber =>
      obtain ⟨i, -, -, -, rfl⟩ := yields_oneOf hnumber
      exact ⟨i, _, rfl, .leaf⟩
    | right hstring =>
      cases hstring with
      | node hquoted =>
        obtain ⟨i, -, rfl⟩ := yields_token hquoted
        exact ⟨i, _, rfl, .node rfl .leaf⟩
  · obtain ⟨i, -, rfl⟩ := yields_token (h.body _ rfl)
    exact ⟨i, _, rfl, .leaf⟩

/-- **The syntax tree of a marked text is made as the grammar says.** -/
theorem wellMade_syntaxTree (hm : MarkedText.ofText text = .ok s.marked)
    (hparse : (SourceGrammar.parse s.marked.tokens.toList).1 = some tree)
    (h : syntaxTree s m tree = .ok t) : t.WellMade where
  grounded p q hq := by
    obtain ⟨-, g, rows, -, he, hg, ha, -⟩ := Growth.ofTree_of_parse hm hparse
    have hsound := (finished_syntaxTree h he hg ha).sound
    exact ⟨(hsound.grounded p q hq).1, hsound.linked.contains p q hq⟩
  parts id hid g hg := by
    obtain ⟨ts, hts, hshape⟩ := exists_made hm hparse h hid (by simp [NodeKind.isMade, hg])
    rw [hshape]
    exact parts_of_yields (isExpression_of_body? hg) (hts.body g hg)
  braced id hid := by
    by_cases hk : (t.kind id).isMade
    · obtain ⟨ts, hts, hshape⟩ := exists_made hm hparse h hid hk
      obtain ⟨constant, hbraced⟩ := hts.braced
      rw [hshape]
      exact ⟨constant, fun g hg => parts_of_yields (isExpression_of_braced? hg) (hbraced g hg)⟩
    · refine ⟨false, fun g hg => absurd ?_ hk⟩
      simp [NodeKind.isMade, hg]
  operation id hid hk := by
    obtain ⟨ts, hts, hshape⟩ := exists_made hm hparse h hid (by simp [NodeKind.isMade, hk])
    rw [hshape]
    exact operationParts_of_operation hk (hts.operation hk)
  name id hid hk := by
    obtain ⟨ts, hts, hshape⟩ := exists_made hm hparse h hid (by simp [NodeKind.isMade, hk])
    obtain ⟨u, us, rfl, hu⟩ := hts.name hk
    obtain ⟨ks, hks⟩ := exists_name_of_made (t.kind id) us hu
    obtain ⟨q, more, hs, hq, -⟩ := List.map_eq_cons_iff.mp (hshape.trans hks)
    exact ⟨q, more, hs, hq⟩
  literal id hid hk := by
    have hevery {k : NodeKind} (hk : k = .paPrimaryLiteral ∨ k = .paStringValue) :
        tree.Every (OfOneToken k) := (made_parse hparse).imp fun _ _ => ofOneToken_of_made hk
    rcases hk with hk | hk
    · exact children_of_spared hm hparse h (by decide) (hevery (.inl rfl)) hid hk
    · exact children_of_spared hm hparse h (by decide) (hevery (.inr rfl)) hid hk
  group id hid hk := by
    obtain ⟨ts, hts, hshape⟩ := exists_made hm hparse h hid (by simp [NodeKind.isMade, hk])
    obtain ⟨kind, us, rfl, hkind⟩ := hts.group hk
    obtain ⟨group, hgroup, hk⟩ := List.map_eq_singleton_iff.mp hshape
    exact ⟨group, hgroup, hk ▸ hkind⟩
  block id hid hk := by
    obtain ⟨ts, hts, hshape⟩ := exists_made hm hparse h hid (by simp [NodeKind.isMade, hk])
    rw [hshape]
    exact parts_of_yields (by rw [hk]; rfl) (hts.block hk)

end NodeTable

/-! ### Files -/

namespace SourceFile

/-- **The table of a file that has been read** is made as the grammar says. -/
theorem wellMade_ofPreprocessed (p : PreprocessedText) :
    Reporting.Gives (fun f => f.nodes.WellMade) (ofPreprocessed p) := by
  unfold ofPreprocessed
  refine .bind fun session => ?_
  split
  · exact .throw _
  · rename_i marked hm
    refine .bind fun _ => ?_
    split
    · exact .pure (NodeTable.wellMade_empty _ _)
    · rename_i tree ht
      dsimp only
      split
      · rename_i nodes hnodes
        exact .pure (NodeTable.wellMade_syntaxTree (s := ⟨marked, _, _⟩) hm ht hnodes)
      · exact .throw _

end SourceFile

end Verilog
