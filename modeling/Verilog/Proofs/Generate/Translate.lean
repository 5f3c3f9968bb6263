import Verilog.Proofs.Generate.Whole
import Verilog.Proofs.Generate.Shape

/-!
# What the source of a generate construct is translated into

The translation is said again on the nodes of a syntax tree, without anything that is read first
(`NodeTable.Lowers`): which parts a node has, in order, and what each of them is in the tree that
stands for it. What is read of a node in a table that is made as the grammar says is translated so
(`NodeTable.lowers_construct`).
-/

namespace Verilog

/-- The kinds of the items that something is made of. -/
def NodeKind.isLowered (k : NodeKind) : Bool :=
  [.paGenerateBlock, .paGenerateRegion, .paConditionalGenerateConstruct, .paLoopGenerateConstruct,
    .paContinuousAssign, .paModuleInstantiation, .paGateInstantiation, .paNetDeclaration,
    .paDataDeclaration].contains k

theorem NodeKind.isGenerate_iff {k : NodeKind} : k.isGenerate ↔ k = .paGenerateRegion ∨
    k = .paConditionalGenerateConstruct ∨ k = .paLoopGenerateConstruct := by
  cases k <;> simp [isGenerate]

namespace NodeTable

variable {t : NodeTable} {id p q : NodeId} {k : NodeKind}

/-! ### Items -/

/-- **The assignment of one net**: a continuous assignment with both its sides. -/
inductive LowersNetAssign (t : NodeTable) : NodeId → DesignTree → Prop
  | sides {id left right : NodeId} {l r : Expr} (hs : t.shape id = [left, right])
      (hl : t.expr? left = some l) (hr : t.expr? right = some r) :
      LowersNetAssign t id (.node { kind := .continuousAssign, range := t.range? id id }
        [(.left, l.tree), (.right, r.tree)] [])

/-- **A gate** and the name that its instances refer to. -/
inductive IsGate : NodeKind → String → Prop
  | and : IsGate .paNInpGateAnd "and"
  | nand : IsGate .paNInpGateNand "nand"
  | or : IsGate .paNInpGateOr "or"
  | nor : IsGate .paNInpGateNor "nor"
  | xor : IsGate .paNInpGateXor "xor"
  | xnor : IsGate .paNInpGateXnor "xnor"

/-- **An instance**: a reference to what is made an instance of, under the first name below the
instance. Only instances of gates may have no name. -/
inductive LowersInstance (t : NodeTable) (definition : String) : NodeId → DesignTree → Prop
  | named {id holder name : NodeId} {before after more : List NodeId}
      (hs : t.shape id = before ++ holder :: after)
      (hbefore : ∀ q ∈ before, t.kind q ≠ .paNameOfInstance)
      (hk : t.kind holder = .paNameOfInstance) (hname : t.shape holder = name :: more)
      (hkind : t.kind name = .slStringConst) :
      LowersInstance t definition id (.node
        { kind := .moduleReference, definition := some definition,
          name := some (t.nameText name), range := t.range? id id } [] [])
  | unnamed {id : NodeId} (hk : t.kind id = .paNInputGateInstance)
      (hnone : ∀ q ∈ t.shape id, t.kind q ≠ .paNameOfInstance) :
      LowersInstance t definition id (.node
        { kind := .moduleReference, definition := some definition, range := t.range? id id } [] [])

/-- **A declared name**: a variable. -/
inductive LowersDeclared (t : NodeTable) : NodeId → DesignTree → Prop
  | named {id name : NodeId} (hname : t.childOf id .slStringConst = name)
      (hk : t.kind name = .slStringConst) :
      LowersDeclared t id (.node
        { kind := .declared, name := some (t.nameText name), range := t.range? name id } [] [])

/-! ### Parts of loops -/

/-- **How a loop begins**: an assignment to a variable. -/
inductive LowersLoopStart (t : NodeTable) : NodeId → DesignTree → Prop
  | sides {id name value : NodeId} {e : Expr} (hs : t.shape id = [name, value])
      (hk : t.kind name = .slStringConst) (he : t.expr? value = some e) :
      LowersLoopStart t id (.node { kind := .assignment, range := t.range? id id }
        [(.left, .node { kind := .declared, name := some (t.nameText name),
                         range := t.range? name name } [] []),
         (.right, e.tree)] [])

/-- **What a loop does after each turn**: an assignment with an operator, or a step by itself. -/
inductive LowersLoopStep (t : NodeTable) : NodeId → DesignTree → Prop
  | assign {id name operator value : NodeId} {o : Operator} {l r : Expr}
      (hs : t.shape id = [name, operator, value])
      (ho : (t.kind operator).assignmentOperator? = some o) (hl : t.expr? name = some l)
      (hr : t.expr? value = some r) :
      LowersLoopStep t id
        (.node { kind := .assignment, range := t.range? id id, operator := some o }
        [(.left, l.tree), (.right, r.tree)] [])
  | step {id a b : NodeId} {e : Expr} (hs : t.shape id = [a, b]) (he : t.expr? id = some e) :
      LowersLoopStep t id e.tree

/-! ### Blocks -/

/-- **What a block holds**: every item between `begin` and `end`, in their order, without the names
around them; or the one item it is made of, if it is made of any. -/
inductive Holds (t : NodeTable) : NodeId → List NodeId → Prop
  | bracketed {block inner : NodeId} {labels items ends : List NodeId}
      (hs : t.shape block = [inner])
      (hinner : t.kind inner = .paGenerateBeginEndBlock)
      (hparts : t.shape inner = labels ++ items ++ ends)
      (hlabels : ∀ q ∈ labels, t.kind q = .slStringConst)
      (hitems : ∀ q ∈ items, (t.kind q).isBracket = false)
      (hends : ∀ q ∈ ends, t.kind q = .paEndLabel) : Holds t block items
  | single {block item : NodeId} (hs : t.shape block = [item])
      (hitem : (t.kind item).isBracket = false) : Holds t block [item]
  | empty {block : NodeId} (hs : t.shape block = []) : Holds t block []

/-- **The label of something**: the first name between its `begin` and `end`, if there is one before
the items. What has no `begin` and `end` has no label. -/
inductive Labeled (t : NodeTable) : NodeId → Option String → Prop
  | named {block inner label : NodeId} {others more : List NodeId}
      (hs : t.shape block = inner :: others) (hinner : t.kind inner = .paGenerateBeginEndBlock)
      (hparts : t.shape inner = label :: more) (hk : t.kind label = .slStringConst) :
      Labeled t block (some (t.nameText label))
  | unnamed {block inner : NodeId} {others : List NodeId} (hs : t.shape block = inner :: others)
      (hinner : t.kind inner = .paGenerateBeginEndBlock)
      (hnone : ∀ q ∈ (t.shape inner).head?, t.kind q ≠ .slStringConst) : Labeled t block none
  | bare {block : NodeId}
      (hnone : ∀ q ∈ (t.shape block).head?, t.kind q ≠ .paGenerateBeginEndBlock) :
      Labeled t block none

/-! ### Constructs -/

mutual

/-- **What a node is translated into** as an item of a block. -/
inductive Lowers (t : NodeTable) : NodeId → List DesignTree → Prop
  /-- A block in a block: its items count as items of the outer one. -/
  | splice {id : NodeId} {items : List NodeId} {trees : List DesignTree}
      (hk : t.kind id = .paGenerateBlock) (hitems : t.Holds id items)
      (htrees : LowersAll t items trees) : Lowers t id trees
  /-- A region: one block of all its items, under the label of the first. -/
  | region {id first : NodeId} {label : Option String} {trees : List DesignTree}
      (hk : t.kind id = .paGenerateRegion) (hfirst : (t.shape id).head?.getD id = first)
      (hlabel : t.Labeled first label) (items : LowersAll t (t.shape id) trees) :
      Lowers t id [.node { kind := .generateRegion, range := t.range? id id }
        [(.statement, .node { kind := .block, name := label, range := t.range? first first } []
          [(.statements, trees)])] []]
  /-- A condition with a block. -/
  | ifOnly {id inner word condition block : NodeId} {e : Expr} {body : DesignTree}
      (hk : t.kind id = .paConditionalGenerateConstruct) (hs : t.shape id = [inner])
      (hinner : t.kind inner = .paIfGenerateConstruct)
      (hparts : t.shape inner = [word, condition, block]) (he : t.expr? condition = some e)
      (hbody : LowersBlock t block body) :
      Lowers t id [.node { kind := .generateIf, range := t.range? id id }
        [(.condition, e.tree), (.statement, body)] []]
  /-- A condition with two blocks. -/
  | ifElse {id inner word condition block other last : NodeId} {e : Expr} {yes no : DesignTree}
      (hk : t.kind id = .paConditionalGenerateConstruct) (hs : t.shape id = [inner])
      (hinner : t.kind inner = .paIfGenerateConstruct)
      (hparts : t.shape inner = [word, condition, block, other, last])
      (he : t.expr? condition = some e) (hyes : LowersBlock t block yes)
      (hno : LowersBlock t last no) :
      Lowers t id [.node { kind := .generateIfElse, range := t.range? word last }
        [(.condition, e.tree), (.statement, yes), (.elseStatement, no)] []]
  /-- A choice among items. -/
  | choice {id inner selector : NodeId} {items : List NodeId} {e : Expr} {trees : List DesignTree}
      (hk : t.kind id = .paConditionalGenerateConstruct) (hs : t.shape id = [inner])
      (hinner : t.kind inner = .paCaseGenerateConstruct)
      (hparts : t.shape inner = selector :: items) (he : t.expr? selector = some e)
      (hitems : LowersBranches t items trees) :
      Lowers t id [.node { kind := .generateCase, range := t.range? inner inner }
        [(.condition, e.tree)] [(.items, trees)]]
  /-- A loop. -/
  | loop {id start condition step block : NodeId} {e : Expr} {init increment body : DesignTree}
      (hk : t.kind id = .paLoopGenerateConstruct)
      (hparts : t.shape id = [start, condition, step, block])
      (hstart : LowersLoopStart t start init)
      (he : t.expr? condition = some e) (hstep : LowersLoopStep t step increment)
      (hbody : LowersBlock t block body) :
      Lowers t id [.node { kind := .generateFor, range := t.range? id id }
        [(.condition, e.tree), (.increment, increment), (.statement, body)] [(.inits, [init])]]
  | assigns {id : NodeId} {trees : List DesignTree} (hk : t.kind id = .paContinuousAssign)
      (hs : List.Forall₂ (LowersNetAssign t) (t.childrenOf id .paNetAssignment) trees) :
      Lowers t id trees
  | modules {id definition : NodeId} {more : List NodeId} {trees : List DesignTree}
      (hk : t.kind id = .paModuleInstantiation) (hdef : t.shape id = definition :: more)
      (hname : t.kind definition = .slStringConst)
      (hs : List.Forall₂ (LowersInstance t (t.nameText definition))
        (t.childrenOf id .paHierarchicalInstance) trees) : Lowers t id trees
  | gates {id word : NodeId} {more : List NodeId} {gate : String} {trees : List DesignTree}
      (hk : t.kind id = .paGateInstantiation) (hword : t.shape id = word :: more)
      (hgate : IsGate (t.kind word) gate)
      (hs : List.Forall₂ (LowersInstance t gate) (t.childrenOf id .paNInputGateInstance) trees) :
      Lowers t id trees
  | declared {id : NodeId} {trees : List DesignTree}
      (hk : t.kind id = .paNetDeclaration ∨ t.kind id = .paDataDeclaration)
      (hs : List.Forall₂ (LowersDeclared t)
        ((t.children id).filter fun q => (t.kind q).isNamed) trees) : Lowers t id trees
  /-- Any other item is nothing. -/
  | other {id : NodeId} (hk : (t.kind id).isLowered = false) : Lowers t id []

/-- **What nodes are translated into** as the items of a block, in order. -/
inductive LowersAll (t : NodeTable) : List NodeId → List DesignTree → Prop
  | nil : LowersAll t [] []
  | cons {id : NodeId} {ids : List NodeId} {trees more : List DesignTree} (head : Lowers t id trees)
      (tail : LowersAll t ids more) : LowersAll t (id :: ids) (trees ++ more)

/-- **What the block of a construct is translated into.** -/
inductive LowersBlock (t : NodeTable) : NodeId → DesignTree → Prop
  | block {id : NodeId} {items : List NodeId} {label : Option String} {trees : List DesignTree}
      (hk : t.kind id = .paGenerateBlock) (hitems : t.Holds id items) (hlabel : t.Labeled id label)
      (htrees : LowersAll t items trees) :
      LowersBlock t id (.node { kind := .block, name := label, range := t.range? id id }
        [] [(.statements, trees)])

/-- **What the items of a choice are translated into**: each with what it matches, in order. One
that matches nothing by itself is the default. -/
inductive LowersBranches (t : NodeTable) : List NodeId → List DesignTree → Prop
  | nil : LowersBranches t [] []
  | cons {item block : NodeId} {labels items : List NodeId} {values : List Expr}
      {body : DesignTree} {trees : List DesignTree} (hk : t.kind item = .paCaseGenerateItem)
      (hparts : t.shape item = labels ++ [block]) (hvalues : labels.map t.expr? = values.map some)
      (hbody : LowersBlock t block body) (tail : LowersBranches t items trees) :
      LowersBranches t (item :: items)
        (.node { kind := .caseItem, range := t.range? item item } [(.statement, body)]
          [(.matches, Expr.trees values)] :: trees)

end

/-! ### What is read of an item -/

section Items

/-- The first child of a kind is one of the children, or no node. -/
theorem childOf_eq_zero_or (t : NodeTable) (p : NodeId) (k : NodeKind) :
    t.childOf p k = 0 ∨ t.childOf p k ∈ t.children p ∧ t.kind (t.childOf p k) = k := by
  cases hfind : (t.children p).find? fun id => t.kind id == k with
  | none => exact .inl (by rw [childOf, hfind]; rfl)
  | some q => exact .inr (childOf_of_mem (List.mem_of_find?_eq_some hfind)
      (beq_iff_eq.mp (List.find?_some (p := fun id => t.kind id == k) hfind)))

/-- Nothing stands below no node. -/
theorem childOf_zero (t : NodeTable) (k : NodeKind) : t.childOf 0 k = 0 := by
  have hchildren : t.children 0 = [] := by
    rw [children]
    rfl
  rw [childOf, hchildren]
  rfl

/-- The first child of a kind is found among the parts. -/
theorem childOf_eq_find?_shape (hk : k.isTrivia = false) :
    t.childOf p k = ((t.shape p).find? fun q => t.kind q == k).getD 0 := by
  rw [childOf, shape, List.find?_filter]
  congr 2
  funext q
  by_cases hq : t.kind q = k <;> simp [hq, hk]

/-- The first part of a kind is the child that is found. -/
theorem childOf_eq_of_shape {before after : List NodeId} (hk : k.isTrivia = false)
    (hs : t.shape p = before ++ q :: after) (hbefore : ∀ r ∈ before, t.kind r ≠ k)
    (hq : t.kind q = k) : t.childOf p k = q := by
  have hfind : (t.shape p).find? (fun q => t.kind q == k) = some q :=
    List.find?_eq_some_iff_append.mpr ⟨by simp [hq], before, after, hs, by simpa using hbefore⟩
  rw [childOf_eq_find?_shape hk, hfind, Option.getD_some]

theorem lowersDeclared (hr : t.Readable) (hid : t.Below t.root id) (hk : (t.kind id).isNamed) :
    t.LowersDeclared id (DeclaredName.tree
      { name := t.nameText (t.childOf id .slStringConst),
        range := t.range? (t.childOf id .slStringConst) id }) := by
  rcases childOf_eq_zero_or t id .slStringConst with hnone | ⟨-, hkind⟩
  · have hc := hr.named id hid hk
    rw [hnone] at hc
    exact absurd hc (by simp [contains])
  · exact .named rfl hkind

variable (ht : t.WellMade) (hid : t.Below t.root id)

include ht hid

theorem lowersNetAssign (hk : t.kind id = .paNetAssignment) :
    t.LowersNetAssign id (NetAssign.tree
      { left := (t.shape id)[0]?.bind t.expr?, right := (t.shape id)[1]?.bind t.expr?,
        range := t.range? id id }) := by
  have hkinds := ht.kinds_netAssignment hid hk
  obtain ⟨left, _, hs, hl, hmore⟩ := List.map_eq_cons_iff.mp hkinds
  obtain ⟨right, rfl, hr⟩ := List.map_eq_singleton_iff.mp hmore
  obtain ⟨l, hl⟩ :=
    ht.exists_expr (hid.child (by simp [hs]) : t.Below t.root left) (by rw [hl]; rfl)
  obtain ⟨r, hr⟩ := ht.exists_expr (hid.child (by simp [hs]) : t.Below t.root right)
    (by rw [hr]; rfl)
  have htree := LowersNetAssign.sides hs hl hr
  simpa [NetAssign.tree, hs, hl, hr, Expr.partTrees] using htree

/-- The first holder of a name gives an instance the name. -/
theorem exists_instanceName {holder : NodeId} {before after : List NodeId}
    (hs : t.shape id = before ++ holder :: after)
    (hbefore : ∀ q ∈ before, t.kind q ≠ .paNameOfInstance)
    (hk : t.kind holder = .paNameOfInstance) :
    ∃ more, t.shape holder = t.instanceName id :: more ∧
      t.kind (t.instanceName id) = .slStringConst := by
  obtain ⟨name, more, hname, hkind⟩ := ht.name holder (hid.child (by simp [hs])) hk
  have heq : t.instanceName id = name := by
    rw [instanceName, childOf_eq_of_shape rfl hs hbefore hk]
    exact childOf_eq_of_shape rfl (show t.shape holder = [] ++ name :: more from hname) (by simp)
      hkind
  rw [heq]
  exact ⟨more, hname, hkind⟩

theorem lowersInstance_module (hk : t.kind id = .paHierarchicalInstance) (definition : String) :
    t.LowersInstance definition id (Instantiation.tree
      { definition, name := some (t.nameText (t.instanceName id)), range := t.range? id id }) := by
  obtain ⟨_, hkinds⟩ := ht.kinds_hierarchicalInstance hid hk
  obtain ⟨holder, _, hs, hholder, -⟩ := List.map_eq_cons_iff.mp hkinds
  have hs : t.shape id = [] ++ holder :: _ := hs
  obtain ⟨more, hname, hkind⟩ := exists_instanceName ht hid hs (by simp) hholder
  exact .named hs (by simp) hholder hname hkind

theorem lowersInstance_gate (hk : t.kind id = .paNInputGateInstance) (definition : String) :
    t.LowersInstance definition id (Instantiation.tree
      { definition, name := t.nameIfAny (t.instanceName id), range := t.range? id id }) := by
  cases hfind : (t.shape id).find? fun q => t.kind q == .paNameOfInstance with
  | none =>
    have hname : t.instanceName id = 0 := by
      rw [instanceName, childOf_eq_find?_shape (p := id) rfl, hfind, Option.getD_none, childOf_zero]
    rw [hname]
    exact .unnamed hk (by simpa using hfind)
  | some holder =>
    obtain ⟨hholder, before, after, hs, hbefore⟩ := List.find?_eq_some_iff_append.mp hfind
    have hbefore : ∀ q ∈ before, t.kind q ≠ .paNameOfInstance := by simpa using hbefore
    have hholder : t.kind holder = .paNameOfInstance := by simpa using hholder
    obtain ⟨more, hname, hkind⟩ := exists_instanceName ht hid hs hbefore hholder
    have hne : t.instanceName id ≠ 0 := fun h => by
      rw [h] at hkind
      cases hkind
    rw [nameIfAny, if_neg hne]
    exact .named hs hbefore hholder hname hkind

end Items

/-! ### What is read of a loop -/

section Loops

/-- A step by itself is read. -/
theorem exists_expr_step {a b : NodeId} (hk : t.kind id = .paGenvarIteration)
    (hs : t.shape id = [a, b])
    (hstep : t.kind b = .paIncDecPlusPlus ∨ t.kind b = .paIncDecMinusMinus ∨
      t.kind b = .slStringConst ∧
        (t.kind a = .paIncDecPlusPlus ∨ t.kind a = .paIncDecMinusMinus)) :
    ∃ e, t.expr? id = some e := by
  have hne : id ≠ 0 := fun h => by
    have hnode := contains_of_kind hk (by decide)
    rw [h] at hnode
    exact absurd hnode (by simp [contains])
  rw [expr?, exprWithin, if_neg hne, readNode, hk]
  simp only [readStep, hs]
  rcases hstep with hb | hb | ⟨hb, ha | ha⟩ <;> simp [*]

variable (ht : t.WellMade) (hid : t.Below t.root id)

include ht hid

theorem lowersLoopStart
    (hk : t.kind id = .paGenvarDeclAssignment ∨ t.kind id = .paGenvarInitialization) :
    t.LowersLoopStart id (t.readLoopStart id).tree := by
  obtain ⟨name, _, hs, hname, hmore⟩ := List.map_eq_cons_iff.mp (ht.kinds_loopStart hid hk)
  obtain ⟨value, rfl, hvalue⟩ := List.map_eq_singleton_iff.mp hmore
  obtain ⟨e, he⟩ := ht.exists_expr (hid.child (by simp [hs]) : t.Below t.root value)
    (by rw [hvalue]; rfl)
  have htree := LowersLoopStart.sides hs hname he
  simpa [readLoopStart, LoopStart.tree, DeclaredName.startTrees, DeclaredName.tree, hs, he,
    Expr.partTrees] using htree

theorem lowersLoopStep (hk : t.kind id = .paGenvarIteration) :
    ∃ increment, t.LowersLoopStep id increment ∧
      (t.readLoopStep id).trees = [(.increment, increment)] := by
  rcases ht.kinds_loopStep hid hk with ⟨op, o, ho, hkinds⟩ | ⟨step, hstep, hkinds⟩
  · obtain ⟨name, _, hs, hname, hmore⟩ := List.map_eq_cons_iff.mp hkinds
    obtain ⟨operator, _, rfl, rfl, hlast⟩ := List.map_eq_cons_iff.mp hmore
    obtain ⟨value, rfl, hvalue⟩ := List.map_eq_singleton_iff.mp hlast
    obtain ⟨l, hl⟩ := ht.exists_expr (hid.child (by simp [hs]) : t.Below t.root name)
      (by rw [hname]; rfl)
    obtain ⟨r, hr⟩ := ht.exists_expr (hid.child (by simp [hs]) : t.Below t.root value)
      (by rw [hvalue]; rfl)
    refine ⟨_, .assign hs ho hl hr, ?_⟩
    simp [readLoopStep, hs, ho, hl, hr, LoopStep.trees, Expr.partTrees]
  · obtain ⟨a, b, hs, hparts⟩ : ∃ a b, t.shape id = [a, b] ∧
        (t.kind b = step ∨ t.kind b = .slStringConst ∧ t.kind a = step) := by
      rcases hkinds with hkinds | hkinds
      all_goals
        obtain ⟨a, _, hs, ha, hmore⟩ := List.map_eq_cons_iff.mp hkinds
        obtain ⟨b, rfl, hb⟩ := List.map_eq_singleton_iff.mp hmore
      · exact ⟨a, b, hs, .inl hb⟩
      · exact ⟨a, b, hs, .inr ⟨hb, ha⟩⟩
    obtain ⟨e, he⟩ := exists_expr_step hk hs (by
      rcases hstep with rfl | rfl <;> rcases hparts with hb | ⟨hb, ha⟩ <;> simp [*])
    refine ⟨_, .step hs he, ?_⟩
    simp [readLoopStep, hs, he, LoopStep.trees, Expr.partTrees]

end Loops

/-! ### What is read of a block -/

theorem allTrees_append (items items' : List GenerateItem) :
    GenerateItem.allTrees (items ++ items') =
      GenerateItem.allTrees items ++ GenerateItem.allTrees items' := by
  induction items with
  | nil => rfl
  | cons item items ih =>
    rw [List.cons_append, GenerateItem.allTrees, ih, GenerateItem.allTrees, List.append_assoc]

/-- Items of one tree each give these trees. -/
theorem allTrees_map {α : Type} {item : α → GenerateItem} (tree : α → DesignTree)
    (h : ∀ a, (item a).trees = [tree a]) (as : List α) :
    GenerateItem.allTrees (as.map item) = as.map tree := by
  induction as with
  | nil => rfl
  | cons a as ih => rw [List.map_cons, GenerateItem.allTrees, h, ih, List.map_cons]; rfl

theorem forall₂_map {α : Type} {r : NodeId → α → Prop} {f : NodeId → α} {ids : List NodeId}
    (h : ∀ id ∈ ids, r id (f id)) : List.Forall₂ r ids (ids.map f) :=
  List.forall₂_map_right_iff.mpr (List.forall₂_same.mpr h)

/-- A child of a kind that is no trivia is below the root if its parent is. -/
theorem below_childrenOf (hid : t.Below t.root id) (hk : k.isTrivia = false)
    (hq : q ∈ t.childrenOf id k) : t.Below t.root q ∧ t.kind q = k := by
  obtain ⟨hq, hkind⟩ := mem_childrenOf.mp hq
  exact ⟨hid.child (mem_shape hq (by rw [hkind, hk])), hkind⟩

section Blocks

variable {read : NodeId → List GenerateItem}

/-- Is what is read below a node of the tree what it is translated into? -/
def ReadsBelow (t : NodeTable) (p : NodeId) (read : NodeId → List GenerateItem) : Prop :=
  ∀ id, Nat.lt p id → t.Below t.root id → t.Lowers id (GenerateItem.allTrees (read id))

theorem ReadsBelow.mono (hr : t.ReadsBelow p read) (hpq : Nat.le p q) : t.ReadsBelow q read :=
  fun id hlt => hr id (Nat.lt_of_le_of_lt hpq hlt)

theorem lowersAll_flatMap {ids : List NodeId}
    (h : ∀ id ∈ ids, t.Lowers id (GenerateItem.allTrees (read id))) :
    t.LowersAll ids (GenerateItem.allTrees (ids.flatMap read)) := by
  induction ids with
  | nil => exact .nil
  | cons id ids ih =>
    rw [List.forall_mem_cons] at h
    rw [List.flatMap_cons, allTrees_append]
    exact .cons h.1 (ih h.2)

theorem lowers_declaredNames (hreadable : t.Readable) (hid : t.Below t.root id)
    (hk : t.kind id = .paNetDeclaration ∨ t.kind id = .paDataDeclaration) :
    t.Lowers id (GenerateItem.allTrees ((t.declaredNames id).map .declare)) := by
  rw [allTrees_map DeclaredName.tree (fun _ => rfl), declaredNames, List.map_map]
  refine .declared hk (forall₂_map fun q hq => ?_)
  obtain ⟨hchild, hnamed⟩ := List.mem_filter.mp hq
  have htrivia : (t.kind q).isTrivia = false := by
    rcases Bool.or_eq_true_iff.mp hnamed with h | h <;> rw [beq_iff_eq.mp h] <;> rfl
  exact lowersDeclared hreadable (hid.child (mem_shape hchild htrivia)) hnamed

variable (ht : t.WellMade)

include ht

theorem lt_of_shape (hq : q ∈ t.shape p) : Nat.lt p q := (ht.grounded p q (children_of_shape hq)).1

theorem lt_of_blockItems {block : NodeId} (hq : q ∈ t.blockItems block) : Nat.lt block q := by
  unfold blockItems at hq
  split at hq
  · rename_i inner hinner
    obtain ⟨hinner, -⟩ := Option.filter_eq_some_iff.mp hinner
    exact Nat.lt_trans (lt_of_shape ht (List.mem_of_head? hinner))
      (lt_of_shape ht (List.mem_filter.mp hq).1)
  · exact lt_of_shape ht hq

theorem lowersAll_shape (hr : t.ReadsBelow id read) (hid : t.Below t.root id) :
    t.LowersAll (t.shape id) (GenerateItem.allTrees ((t.shape id).flatMap read)) :=
  lowersAll_flatMap fun q hq => hr q (lt_of_shape ht hq) (hid.child hq)

omit ht in
/-- What stands between `begin` and `end` is the first part of a block, if it is of this kind. -/
theorem bracketed?_eq {block inner : NodeId} {others : List NodeId}
    (hs : t.shape block = inner :: others) : t.bracketed? block =
      if t.kind inner = .paGenerateBeginEndBlock then some inner else none := by
  rw [bracketed?, hs, List.head?_cons, Option.filter_some]
  simp only [beq_iff_eq]

/-- **The items that are read of a block are those that it holds.** -/
theorem holds_blockItems (hid : t.Below t.root id) (hk : t.kind id = .paGenerateBlock) :
    t.Holds id (t.blockItems id) := by
  rcases ht.kinds_generateBlock hid hk with hkinds | hkinds | ⟨k, hkinds, hitem⟩
  · obtain ⟨inner, hs, hinner⟩ := List.map_eq_singleton_iff.mp hkinds
    obtain ⟨_, _, _, hrow, hlabels, hitems, hends⟩ :=
      ht.kinds_beginEnd (hid.child (by simp [hs])) hinner
    obtain ⟨_, ends, hparts, hfront, rfl⟩ := List.map_eq_append_iff.mp hrow
    obtain ⟨labels, items, rfl, rfl, rfl⟩ := List.map_eq_append_iff.mp hfront
    rw [List.forall_mem_map] at hlabels hitems hends
    have heq : t.blockItems id = items := by
      have hno : labels.filter (fun q => t.kind q != .slStringConst && t.kind q != .paEndLabel) =
          [] := List.filter_eq_nil_iff.mpr fun q hq => by simp [hlabels q hq]
      have hall : items.filter (fun q => t.kind q != .slStringConst && t.kind q != .paEndLabel) =
          items := List.filter_eq_self.mpr fun q hq => by
        have hitem := hitems q hq
        simp_all [NodeKind.isBracket]
      have hlast : ends.filter (fun q => t.kind q != .slStringConst && t.kind q != .paEndLabel) =
          [] := List.filter_eq_nil_iff.mpr fun q hq => by simp [hends q hq]
      rw [blockItems, bracketed?_eq hs, if_pos hinner]
      simp only [hparts, List.filter_append, hno, hall, hlast, List.nil_append, List.append_nil]
    rw [heq]
    exact .bracketed hs hinner hparts hlabels hitems hends
  · have hs : t.shape id = [] := List.map_eq_nil_iff.mp hkinds
    rw [blockItems, bracketed?, hs]
    exact .empty hs
  · obtain ⟨item, hs, rfl⟩ := List.map_eq_singleton_iff.mp hkinds
    have hne : t.kind item ≠ .paGenerateBeginEndBlock := fun h => by
      rw [h] at hitem
      cases hitem
    rw [blockItems, bracketed?_eq hs, if_neg hne, hs]
    exact .single hs hitem

omit ht in
/-- **The label that is read of a block is its label.** -/
theorem labeled_blockLabel? (t : NodeTable) (id : NodeId) : t.Labeled id (t.blockLabel? id) := by
  rw [blockLabel?]
  cases hs : t.shape id with
  | nil =>
    rw [bracketed?, hs]
    exact .bare (by simp [hs])
  | cons inner others =>
    rw [bracketed?_eq hs]
    by_cases hinner : t.kind inner = .paGenerateBeginEndBlock
    · rw [if_pos hinner]
      cases hparts : t.shape inner with
      | nil => simpa [hparts] using Labeled.unnamed hs hinner (by simp [hparts])
      | cons label more =>
        by_cases hk : t.kind label = .slStringConst
        · simpa [hparts, hk] using Labeled.named hs hinner hparts hk
        · simpa [hparts, hk] using Labeled.unnamed hs hinner (by simpa [hparts] using hk)
    · rw [if_neg hinner]
      exact .bare (by simpa [hs] using hinner)

theorem lowersAll_blockItems (hr : t.ReadsBelow id read) (hid : t.Below t.root id) :
    t.LowersAll (t.blockItems id) (GenerateItem.allTrees ((t.blockItems id).flatMap read)) :=
  lowersAll_flatMap fun q hq => hr q (lt_of_blockItems ht hq) (below_blockItems hid q hq)

theorem lowersBlock (hr : t.ReadsBelow id read) (hid : t.Below t.root id)
    (hk : t.kind id = .paGenerateBlock) : t.LowersBlock id (t.readBlock read id).tree :=
  .block hk (holds_blockItems ht hid hk) (labeled_blockLabel? t id) (lowersAll_blockItems ht hr hid)

/-! ### What is read of a construct -/

theorem lowers_region (hr : t.ReadsBelow id read) (hid : t.Below t.root id)
    (hk : t.kind id = .paGenerateRegion) : t.Lowers id (t.readConstruct read id).trees := by
  have htree := Lowers.region hk rfl (labeled_blockLabel? t _) (lowersAll_shape ht hr hid)
  simpa [readConstruct, hk, readRegion, GenerateConstruct.trees, GenerateBlock.tree] using htree

/-- What is read of a condition: one block or two, and the condition itself. -/
theorem exists_ifGenerate {inner : NodeId} (hin : t.Below t.root inner)
    (hinner : t.kind inner = .paIfGenerateConstruct) :
    (∃ word condition block e, t.shape inner = [word, condition, block] ∧
      t.expr? condition = some e ∧ t.kind block = .paGenerateBlock ∧
      ∀ read id, t.readConditional read id inner = .ifOnly (t.place id) (t.place inner)
        (t.range? id id) .complete (some e) (t.readBlock read block)) ∨
    ∃ word condition block other last e,
      t.shape inner = [word, condition, block, other, last] ∧ t.expr? condition = some e ∧
      t.kind block = .paGenerateBlock ∧ t.kind last = .paGenerateBlock ∧
      ∀ read id, t.readConditional read id inner = .ifElse (t.place id) (t.place inner)
        (t.range? word last) (some e) (t.readBlock read block) (t.readBlock read last) := by
  rcases ht.kinds_ifGenerate hin hinner with hkinds | hkinds
  · obtain ⟨word, _, hparts, hword, hmore⟩ := List.map_eq_cons_iff.mp hkinds
    obtain ⟨condition, _, rfl, hcondition, hlast⟩ := List.map_eq_cons_iff.mp hmore
    obtain ⟨block, rfl, hblock⟩ := List.map_eq_singleton_iff.mp hlast
    obtain ⟨e, he⟩ := ht.exists_expr (hin.child (by simp [hparts]) : t.Below t.root condition)
      (by rw [hcondition]; rfl)
    refine .inl ⟨word, condition, block, e, hparts, he, hblock, fun read id => ?_⟩
    simp [readConditional, firstOf?, hparts, hword, hcondition, hblock, he]
  · obtain ⟨word, _, hparts, hword, hmore⟩ := List.map_eq_cons_iff.mp hkinds
    obtain ⟨condition, _, rfl, hcondition, hblocks⟩ := List.map_eq_cons_iff.mp hmore
    obtain ⟨block, _, rfl, hblock, helse⟩ := List.map_eq_cons_iff.mp hblocks
    obtain ⟨other, _, rfl, hother, hend⟩ := List.map_eq_cons_iff.mp helse
    obtain ⟨last, rfl, hlast⟩ := List.map_eq_singleton_iff.mp hend
    obtain ⟨e, he⟩ := ht.exists_expr (hin.child (by simp [hparts]) : t.Below t.root condition)
      (by rw [hcondition]; rfl)
    refine .inr ⟨word, condition, block, other, last, e, hparts, he, hblock, hlast,
      fun read id => ?_⟩
    simp [readConditional, firstOf?, hparts, hword, hcondition, hblock, hother, hlast, he]

theorem lowers_ifGenerate {inner : NodeId} (hr : t.ReadsBelow id read) (hid : t.Below t.root id)
    (hk : t.kind id = .paConditionalGenerateConstruct) (hs : t.shape id = [inner])
    (hinner : t.kind inner = .paIfGenerateConstruct) :
    t.Lowers id (t.readConditional read id inner).trees := by
  have hin : t.Below t.root inner := hid.child (by simp [hs])
  have hlt : Nat.le id inner := Nat.le_of_lt (lt_of_shape ht (by simp [hs]))
  have hbody {block : NodeId} (hmem : block ∈ t.shape inner)
      (hblock : t.kind block = .paGenerateBlock) :
      t.LowersBlock block (t.readBlock read block).tree :=
    lowersBlock ht (hr.mono (Nat.le_trans hlt (Nat.le_of_lt (lt_of_shape ht hmem))))
      (hin.child hmem) hblock
  rcases exists_ifGenerate ht hin hinner with ⟨_, _, block, _, hparts, he, hblock, heq⟩ |
    ⟨_, _, block, _, last, _, hparts, he, hblock, hlast, heq⟩
  · rw [heq]
    exact .ifOnly hk hs hinner hparts he (hbody (by simp [hparts]) hblock)
  · rw [heq]
    exact .ifElse hk hs hinner hparts he (hbody (by simp [hparts]) hblock)
      (hbody (by simp [hparts]) hlast)

/-- The expressions that all are read are those that are read. -/
theorem exists_values {labels : List NodeId} (hlabels : ∀ q ∈ labels, t.Below t.root q)
    (hk : ∀ q ∈ labels, t.kind q = .paConstantExpression) :
    labels.map t.expr? = (labels.filterMap t.expr?).map some := by
  induction labels with
  | nil => rfl
  | cons q qs ih =>
    rw [List.forall_mem_cons] at hlabels hk
    obtain ⟨e, he⟩ := ht.exists_expr hlabels.1 (by rw [hk.1]; rfl)
    rw [List.map_cons, List.filterMap_cons, he, ih hlabels.2 hk.2, List.map_cons]

/-- What is read of an item of a choice: what it matches, and its block. -/
theorem exists_caseItem {item : NodeId} (hitem : t.Below t.root item)
    (hk : t.kind item = .paCaseGenerateItem) :
    ∃ labels block values, t.shape item = labels ++ [block] ∧
      labels.map t.expr? = values.map some ∧ t.kind block = .paGenerateBlock ∧
      ∀ read, t.readBranch read item =
        .mk values (t.range? item item) (some (t.readBlock read block)) := by
  obtain ⟨kinds, hkinds, hlabels⟩ := ht.kinds_caseItem hitem hk
  obtain ⟨labels, _, hparts, rfl, hlast⟩ := List.map_eq_append_iff.mp hkinds
  obtain ⟨block, rfl, hblock⟩ := List.map_eq_singleton_iff.mp hlast
  have hlabels : ∀ q ∈ labels, t.kind q = .paConstantExpression := fun q hq =>
    hlabels _ (List.mem_map_of_mem hq)
  have hvalues := exists_values ht (fun q hq => hitem.child (by simp [hparts, hq])) hlabels
  have hfilter : labels.filter (fun q => t.kind q == .paConstantExpression) = labels :=
    List.filter_eq_self.mpr fun q hq => by rw [hlabels q hq]; rfl
  have hfind : labels.find? (fun q => decide (t.kind q = .paGenerateBlock)) = none :=
    List.find?_eq_none.mpr fun q hq => by rw [hlabels q hq]; decide
  refine ⟨labels, block, _, hparts, hvalues, hblock, fun read => ?_⟩
  simp [readBranch, firstOf?, hparts, hfilter, hfind, hblock]

theorem lowersBranches {items : List NodeId} (hitems : ∀ q ∈ items, t.Below t.root q)
    (hr : ∀ q ∈ items, t.ReadsBelow q read) (hk : ∀ q ∈ items, t.kind q = .paCaseGenerateItem) :
    t.LowersBranches items (CaseBranch.allTrees (items.map (t.readBranch read))) := by
  induction items with
  | nil => exact .nil
  | cons item items ih =>
    rw [List.forall_mem_cons] at hitems hr hk
    obtain ⟨labels, block, values, hparts, hvalues, hblock, heq⟩ :=
      exists_caseItem ht hitems.1 hk.1
    have hin : block ∈ t.shape item := by simp [hparts]
    have hbody := lowersBlock ht (hr.1.mono (Nat.le_of_lt (lt_of_shape ht hin)))
      (hitems.1.child hin) hblock
    rw [List.map_cons, CaseBranch.allTrees, heq]
    exact .cons hk.1 hparts hvalues hbody (ih hitems.2 hr.2 hk.2)

/-- What is read of a choice: what is chosen by, and the items. -/
theorem exists_caseGenerate {inner : NodeId} (hin : t.Below t.root inner)
    (hinner : t.kind inner = .paCaseGenerateConstruct) :
    ∃ selector items e, t.shape inner = selector :: items ∧ t.expr? selector = some e ∧
      (∀ q ∈ items, t.kind q = .paCaseGenerateItem) ∧
      ∀ read id, t.readChoice read id inner = .choice (t.place id) (t.place inner)
        (t.range? inner inner) (some e) (items.map (t.readBranch read)) := by
  obtain ⟨kinds, hkinds, hitems⟩ := ht.kinds_caseGenerate hin hinner
  obtain ⟨selector, items, hparts, hselector, rfl⟩ := List.map_eq_cons_iff.mp hkinds
  have hitems : ∀ q ∈ items, t.kind q = .paCaseGenerateItem := fun q hq =>
    hitems _ (List.mem_map_of_mem hq)
  obtain ⟨e, he⟩ := ht.exists_expr (hin.child (by simp [hparts]) : t.Below t.root selector)
    (by rw [hselector]; rfl)
  have hfilter : items.filter (fun q => t.kind q == .paCaseGenerateItem) = items :=
    List.filter_eq_self.mpr fun q hq => by rw [hitems q hq]; rfl
  refine ⟨selector, items, e, hparts, he, hitems, fun read id => ?_⟩
  simp [readChoice, hparts, hselector, hfilter, he]

theorem lowers_caseGenerate {inner : NodeId} (hr : t.ReadsBelow id read) (hid : t.Below t.root id)
    (hk : t.kind id = .paConditionalGenerateConstruct) (hs : t.shape id = [inner])
    (hinner : t.kind inner = .paCaseGenerateConstruct) :
    t.Lowers id (t.readChoice read id inner).trees := by
  have hin : t.Below t.root inner := hid.child (by simp [hs])
  have hlt : Nat.le id inner := Nat.le_of_lt (lt_of_shape ht (by simp [hs]))
  obtain ⟨selector, items, e, hparts, he, hitems, heq⟩ := exists_caseGenerate ht hin hinner
  have hmem : ∀ q ∈ items, q ∈ t.shape inner := fun q hq => by simp [hparts, hq]
  rw [heq]
  exact .choice hk hs hinner hparts he (lowersBranches ht (fun q hq => hin.child (hmem q hq))
    (fun q hq => hr.mono (Nat.le_trans hlt (Nat.le_of_lt (lt_of_shape ht (hmem q hq))))) hitems)

/-- What is read of a loop: its beginning, its condition, its step, and its block. -/
theorem exists_loopGenerate (hid : t.Below t.root id)
    (hk : t.kind id = .paLoopGenerateConstruct) :
    ∃ start condition step block e, t.shape id = [start, condition, step, block] ∧
      (t.kind start = .paGenvarDeclAssignment ∨ t.kind start = .paGenvarInitialization) ∧
      t.expr? condition = some e ∧ t.kind step = .paGenvarIteration ∧
      t.kind block = .paGenerateBlock ∧
      ∀ read, t.readConstruct read id = .loop (t.place id) (t.place id) (t.range? id id)
        (some (t.readLoopStart start)) (some e) (some (t.readLoopStep step))
        (some (t.readBlock read block)) := by
  obtain ⟨k, hk', hkinds⟩ := ht.kinds_loop hid hk
  obtain ⟨start, _, hparts, rfl, hmore⟩ := List.map_eq_cons_iff.mp hkinds
  obtain ⟨condition, _, rfl, hcondition, hrest⟩ := List.map_eq_cons_iff.mp hmore
  obtain ⟨step, _, rfl, hstep, hlast⟩ := List.map_eq_cons_iff.mp hrest
  obtain ⟨block, rfl, hblock⟩ := List.map_eq_singleton_iff.mp hlast
  obtain ⟨e, he⟩ := ht.exists_expr (hid.child (by simp [hparts]) : t.Below t.root condition)
    (by rw [hcondition]; rfl)
  refine ⟨start, condition, step, block, e, hparts, hk', he, hstep, hblock, fun read => ?_⟩
  rcases hk' with hk' | hk' <;>
    simp [readConstruct, hk, readLoop, firstOf?, hparts, hk', hcondition, hstep, hblock, he]

theorem lowers_loop (hr : t.ReadsBelow id read) (hid : t.Below t.root id)
    (hk : t.kind id = .paLoopGenerateConstruct) : t.Lowers id (t.readConstruct read id).trees := by
  obtain ⟨start, condition, step, block, e, hparts, hstart, he, hstep, hblock, heq⟩ :=
    exists_loopGenerate ht hid hk
  have hin : ∀ q ∈ [start, condition, step, block], q ∈ t.shape id := by simp [hparts]
  have hinit := lowersLoopStart ht (hid.child (hin start (by simp))) hstart
  obtain ⟨increment, hincrement, htrees⟩ := lowersLoopStep ht (hid.child (hin step (by simp))) hstep
  have hbody := lowersBlock ht (hr.mono (Nat.le_of_lt (lt_of_shape ht (hin block (by simp)))))
    (hid.child (hin block (by simp))) hblock
  have htree := Lowers.loop hk hparts hinit he hincrement hbody
  rw [heq]
  simpa [GenerateConstruct.trees, Expr.partTrees, LoopStep.loopTrees, htrees,
    GenerateBlock.bodyTrees, LoopStart.loopTrees] using htree

/-- What is read of a conditional construct is what is read of the construct in it. -/
theorem exists_conditional (hid : t.Below t.root id)
    (hk : t.kind id = .paConditionalGenerateConstruct) :
    ∃ inner, t.shape id = [inner] ∧
      (t.kind inner = .paIfGenerateConstruct ∧
          (∀ read, t.readConstruct read id = t.readConditional read id inner) ∨
        t.kind inner = .paCaseGenerateConstruct ∧
          ∀ read, t.readConstruct read id = t.readChoice read id inner) := by
  rcases ht.kinds_conditional hid hk with hkinds | hkinds
  all_goals obtain ⟨inner, hs, hinner⟩ := List.map_eq_singleton_iff.mp hkinds
  · exact ⟨inner, hs, .inl ⟨hinner, fun read => by simp [readConstruct, hk, hs, hinner]⟩⟩
  · exact ⟨inner, hs, .inr ⟨hinner, fun read => by simp [readConstruct, hk, hs, hinner]⟩⟩

/-- **A construct** is translated into what is read of it, if what is below it is. -/
theorem lowers_readConstruct (hr : t.ReadsBelow id read) (hid : t.Below t.root id)
    (hk : (t.kind id).isGenerate) : t.Lowers id (t.readConstruct read id).trees := by
  rcases NodeKind.isGenerate_iff.mp hk with hk | hk | hk
  · exact lowers_region ht hr hid hk
  · obtain ⟨inner, hs, ⟨hinner, heq⟩ | ⟨hinner, heq⟩⟩ := exists_conditional ht hid hk
    · rw [heq]
      exact lowers_ifGenerate ht hr hid hk hs hinner
    · rw [heq]
      exact lowers_caseGenerate ht hr hid hk hs hinner
  · exact lowers_loop ht hr hid hk

/-! ### What is read of an item -/

theorem lowers_netAssigns (hid : t.Below t.root id) (hk : t.kind id = .paContinuousAssign) :
    t.Lowers id (GenerateItem.allTrees ((t.netAssigns id).map .assign)) := by
  rw [allTrees_map NetAssign.tree (fun _ => rfl), netAssigns, List.map_map]
  refine .assigns hk (forall₂_map fun q hq => ?_)
  obtain ⟨hq, hkind⟩ := below_childrenOf hid rfl hq
  exact lowersNetAssign ht hq hkind

theorem lowers_moduleInstances (hid : t.Below t.root id) (hk : t.kind id = .paModuleInstantiation) :
    t.Lowers id (GenerateItem.allTrees ((t.moduleInstances id).map .instantiate)) := by
  obtain ⟨more, hkinds⟩ := ht.kinds_moduleInstantiation hid hk
  obtain ⟨definition, _, hs, hname, -⟩ := List.map_eq_cons_iff.mp hkinds
  have hdef : t.childOf id .slStringConst = definition :=
    childOf_eq_of_shape rfl (show t.shape id = [] ++ definition :: _ from hs) (by simp) hname
  rw [allTrees_map Instantiation.tree (fun _ => rfl), moduleInstances, List.map_map, hdef]
  refine .modules hk hs hname (forall₂_map fun q hq => ?_)
  obtain ⟨hq, hkind⟩ := below_childrenOf hid rfl hq
  exact lowersInstance_module ht hq hkind _

omit ht in
theorem isGate_of_gateName? {name : String} (h : gateName? k = some name) : IsGate k name := by
  unfold gateName? at h
  split at h <;> cases h <;> constructor

theorem lowers_gateInstances (hid : t.Below t.root id) (hk : t.kind id = .paGateInstantiation) :
    t.Lowers id (GenerateItem.allTrees ((t.gateInstances id).map .instantiate)) := by
  obtain ⟨word, more, gate, hs, hgate⟩ := ht.exists_gate hid hk
  have hname : t.gateOf? id = some gate := by rw [gateOf?, hs]; exact hgate
  rw [allTrees_map Instantiation.tree (fun _ => rfl), gateInstances, hname, List.map_map]
  refine .gates hk hs (isGate_of_gateName? hgate) (forall₂_map fun q hq => ?_)
  obtain ⟨hq, hkind⟩ := below_childrenOf hid rfl hq
  exact lowersInstance_gate ht hq hkind _

theorem lowers_readItem (hreadable : t.Readable) (hr : t.ReadsBelow id read)
    (hid : t.Below t.root id) : t.Lowers id (GenerateItem.allTrees (t.readItem read id)) := by
  have hone (item : GenerateItem) : GenerateItem.allTrees [item] = item.trees :=
    List.append_nil _
  unfold readItem
  split
  case h_1 hk =>
    rw [hone]
    exact .splice hk (holds_blockItems ht hid hk) (lowersAll_blockItems ht hr hid)
  case h_2 hk | h_3 hk | h_4 hk =>
    rw [hone]
    exact lowers_readConstruct ht hr hid (by rw [hk]; rfl)
  case h_5 hk => exact lowers_netAssigns ht hid hk
  case h_6 hk => exact lowers_moduleInstances ht hid hk
  case h_7 hk => exact lowers_gateInstances ht hid hk
  case h_8 hk | h_9 hk => exact lowers_declaredNames hreadable hid (by simp [hk])
  case h_10 => exact .other (by simp_all [NodeKind.isLowered])

/-- **Every item is translated into what is read of it**, at a depth that is enough for what is
below it. -/
theorem lowers_itemsWithin (hreadable : t.Readable) {depth : Nat} (hid : t.Below t.root id)
    (hdepth : t.size < depth + id) :
    t.Lowers id (GenerateItem.allTrees (t.itemsWithin depth id)) := by
  induction depth generalizing id with
  | zero =>
    -- there are not as many nodes
    have hc : ¬t.contains id := fun hc => by
      have hle := (contains_iff.mp hc).2
      omega
    exact .other (by rw [kind, node_of_not_contains hc]; rfl)
  | succ depth ih =>
    refine lowers_readItem ht hreadable (fun q hlt hq => ih hq ?_) hid
    have hle : depth + (id + 1) ≤ depth + q := Nat.add_le_add_left hlt depth
    exact Nat.lt_of_lt_of_le (by omega) hle

/-- **Every construct is translated into what is read of it.** -/
theorem lowers_construct (hreadable : t.Readable) (hid : t.Below t.root id)
    (hk : (t.kind id).isGenerate) : t.Lowers id (t.construct id).trees :=
  lowers_readConstruct ht (fun q _ hq => lowers_itemsWithin ht hreadable hq (by omega)) hid hk

/-! ### What is read lacks nothing -/

/-- Does nothing lack anything that is read below the root? -/
def ReadsWhole (t : NodeTable) (read : NodeId → List GenerateItem) : Prop :=
  ∀ id, t.Below t.root id → GenerateItem.WholeAll (read id)

omit ht in
theorem wholeAll_flatMap (hr : t.ReadsWhole read) {ids : List NodeId}
    (hids : ∀ id ∈ ids, t.Below t.root id) : GenerateItem.WholeAll (ids.flatMap read) :=
  GenerateItem.wholeAll_iff.mpr fun item hitem => by
    obtain ⟨id, hid, hitem⟩ := List.mem_flatMap.mp hitem
    exact GenerateItem.wholeAll_iff.mp (hr id (hids id hid)) item hitem

omit ht in
theorem whole_readBlock (hr : t.ReadsWhole read) {block : NodeId} (hb : t.Below t.root block) :
    (t.readBlock read block).Whole :=
  wholeAll_flatMap hr (below_blockItems hb)

theorem whole_readLoopStep (hid : t.Below t.root id) (hk : t.kind id = .paGenvarIteration) :
    (t.readLoopStep id).Whole := by
  obtain ⟨increment, hincrement, -⟩ := lowersLoopStep ht hid hk
  cases hincrement with
  | assign hs ho hl hr => simp [readLoopStep, hs, ho, LoopStep.Whole]
  | step hs he => simp [readLoopStep, hs, LoopStep.Whole]

theorem whole_readConstruct (hr : t.ReadsWhole read) (hid : t.Below t.root id)
    (hk : (t.kind id).isGenerate) : (t.readConstruct read id).Whole := by
  rcases NodeKind.isGenerate_iff.mp hk with hk | hk | hk
  · rw [readConstruct, hk]
    exact wholeAll_flatMap hr fun q hq => hid.child hq
  · obtain ⟨inner, hs, ⟨hinner, heq⟩ | ⟨hinner, heq⟩⟩ := exists_conditional ht hid hk
    all_goals
      have hin : t.Below t.root inner := hid.child (by simp [hs])
      rw [heq]
    · rcases exists_ifGenerate ht hin hinner with ⟨_, _, block, _, hparts, -, -, heq⟩ |
        ⟨_, _, block, _, last, _, hparts, -, -, -, heq⟩
      all_goals
        have hblock := whole_readBlock hr (hin.child (by simp [hparts]) : t.Below t.root block)
        rw [heq]
      · exact ⟨rfl, rfl, hblock⟩
      · exact ⟨rfl, hblock, whole_readBlock hr (hin.child (by simp [hparts]))⟩
    · obtain ⟨selector, items, e, hparts, -, hitems, heq⟩ := exists_caseGenerate ht hin hinner
      rw [heq]
      refine ⟨rfl, CaseBranch.wholeAll_iff.mpr fun b hb => ?_⟩
      obtain ⟨item, hitem, rfl⟩ := List.mem_map.mp hb
      have hbelow : t.Below t.root item := hin.child (by simp [hparts, hitem])
      obtain ⟨_, block, _, hparts, -, -, heq⟩ := exists_caseItem ht hbelow (hitems item hitem)
      rw [heq]
      exact whole_readBlock hr (hbelow.child (by simp [hparts]))
  · obtain ⟨_, _, step, block, _, hparts, -, -, hstep, -, heq⟩ := exists_loopGenerate ht hid hk
    rw [heq]
    refine ⟨rfl, fun s hs => ?_, whole_readBlock hr (hid.child (by simp [hparts]))⟩
    exact Option.some.inj hs ▸ whole_readLoopStep ht (hid.child (by simp [hparts])) hstep

theorem readsWhole_readItem (hr : t.ReadsWhole read) : t.ReadsWhole (t.readItem read) := by
  intro id hid
  rw [GenerateItem.wholeAll_iff]
  unfold readItem
  split
  case h_1 => simpa [GenerateItem.Whole] using wholeAll_flatMap hr (below_blockItems hid)
  case h_2 hk | h_3 hk | h_4 hk =>
    simpa [GenerateItem.Whole] using whole_readConstruct ht hr hid (by rw [hk]; rfl)
  case h_10 => simp
  all_goals
    rintro item hitem
    obtain ⟨_, -, rfl⟩ := List.mem_map.mp hitem
    trivial

/-- **A construct that is read lacks nothing.** -/
theorem whole_construct (hid : t.Below t.root id) (hk : (t.kind id).isGenerate) :
    (t.construct id).Whole := by
  have hitems (depth : Nat) : t.ReadsWhole (t.itemsWithin depth) := by
    induction depth with
    | zero => exact fun _ _ => trivial
    | succ depth ih => exact readsWhole_readItem ht ih
  exact whole_readConstruct ht (hitems _) hid hk

end Blocks

end NodeTable

end Verilog
