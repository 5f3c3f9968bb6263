import Verilog.Generate.Read
import Verilog.Proofs.Expr.Read
import Verilog.Proofs.Generate.Compile

/-!
# The places of generate constructs that are read

Most nodes that are read are found by their kind, so they are there and have a place. Two come
without a kind: the first child of a region or of a condition, and the name of something declared.
That they are there is a property of the tables that are read (`NodeTable.Readable`); of names it is
known below the root of the tree alone, so where an item stands is kept track of.
-/

namespace Verilog

/-- Is a kind that of something declared, whose first part is its name? -/
def NodeKind.isNamed (k : NodeKind) : Bool :=
  k == .paNetDeclAssignment || k == .paVariableDeclAssignment

namespace NodeTable

variable {t : NodeTable} {id p : NodeId}

/-- Is a node another one, or below it with no trivia between? -/
inductive Below (t : NodeTable) (root : NodeId) : NodeId → Prop where
  | root : Below t root root
  | child {p q : NodeId} : Below t root p → q ∈ t.shape p → Below t root q

/-- **A table that can be read**: children are nodes that are there, and so are the names of what
is declared in the tree. -/
structure Readable (t : NodeTable) : Prop where
  contains : ∀ p, ∀ q ∈ t.children p, t.contains q
  named : ∀ id, t.Below t.root id → (t.kind id).isNamed → t.contains (t.childOf id .slStringConst)

/-! ### Nodes that are found -/

theorem mem_shape {q : NodeId} (hq : q ∈ t.children p) (hk : (t.kind q).isTrivia = false) :
    q ∈ t.shape p :=
  List.mem_filter.mpr ⟨hq, by simp [hk]⟩

theorem children_of_shape {q : NodeId} (hq : q ∈ t.shape p) : q ∈ t.children p :=
  (List.mem_filter.mp hq).1

theorem mem_childrenOf {k : NodeKind} {q : NodeId} :
    q ∈ t.childrenOf p k ↔ q ∈ t.children p ∧ t.kind q = k := by
  rw [childrenOf, List.mem_filter, beq_iff_eq]

theorem contains_of_mem_childrenOf {k : NodeKind} {q : NodeId} (hq : q ∈ t.childrenOf p k)
    (hk : k ≠ .slNoType) : t.contains q :=
  contains_of_kind (mem_childrenOf.mp hq).2 hk

/-- What is found among some nodes is one of them, and of a kind that is looked for. -/
theorem mem_of_firstOf? {ids : List NodeId} {kinds : List NodeKind} {q : NodeId}
    (h : t.firstOf? ids kinds = some q) : q ∈ ids ∧ t.kind q ∈ kinds :=
  ⟨List.mem_of_find?_eq_some h, by simpa using List.find?_some h⟩

theorem contains_of_firstOf? {ids : List NodeId} {kinds : List NodeKind} {q : NodeId}
    (h : t.firstOf? ids kinds = some q) (hk : .slNoType ∉ kinds) : t.contains q :=
  contains_of_kind rfl fun hn => hk (hn ▸ (mem_of_firstOf? h).2)

/-! ### Items -/

theorem located_netAssigns (t : NodeTable) (item : NodeId) :
    ∀ a ∈ t.netAssigns item, a.Located := by
  intro a ha
  obtain ⟨id, hid, rfl⟩ := List.mem_map.mp ha
  exact ⟨isSome_range? (contains_of_mem_childrenOf hid (by decide)),
    locatedPart_bind (readsLocated_expr? t) _, locatedPart_bind (readsLocated_expr? t) _⟩

theorem located_moduleInstances (t : NodeTable) (item : NodeId) :
    ∀ i ∈ t.moduleInstances item, i.range.isSome := by
  intro i hi
  obtain ⟨id, hid, rfl⟩ := List.mem_map.mp hi
  exact isSome_range? (contains_of_mem_childrenOf hid (by decide))

theorem located_gateInstances (t : NodeTable) (item : NodeId) :
    ∀ i ∈ t.gateInstances item, i.range.isSome := by
  intro i hi
  obtain ⟨id, hid, rfl⟩ := List.mem_map.mp hi
  exact isSome_range? (contains_of_mem_childrenOf hid (by decide))

theorem located_declaredNames (ht : t.Readable) {item : NodeId} (hitem : t.Below t.root item) :
    ∀ d ∈ t.declaredNames item, d.range.isSome := by
  intro d hd
  obtain ⟨id, hid, rfl⟩ := List.mem_map.mp hd
  obtain ⟨hchild, hkind⟩ := List.mem_filter.mp hid
  have htrivia : (t.kind id).isTrivia = false := by
    rcases Bool.or_eq_true_iff.mp hkind with h | h <;> rw [beq_iff_eq.mp h] <;> rfl
  exact isSome_range? (ht.named id (hitem.child (mem_shape hchild htrivia)) hkind)

/-! ### Blocks -/

section Blocks

variable {read : NodeId → List GenerateItem}

/-- Is everything located that is read below the root? -/
def ReadsItems (t : NodeTable) (read : NodeId → List GenerateItem) : Prop :=
  ∀ id, t.Below t.root id → GenerateItem.LocatedAll (read id)

theorem locatedAll_flatMap (hr : t.ReadsItems read) {ids : List NodeId}
    (hids : ∀ id ∈ ids, t.Below t.root id) : GenerateItem.LocatedAll (ids.flatMap read) :=
  GenerateItem.locatedAll_iff.mpr fun item hitem => by
    obtain ⟨id, hid, hitem⟩ := List.mem_flatMap.mp hitem
    exact GenerateItem.locatedAll_iff.mp (hr id (hids id hid)) item hitem

theorem below_blockItems {block : NodeId} (hb : t.Below t.root block) :
    ∀ id ∈ t.blockItems block, t.Below t.root id := by
  intro id hid
  unfold blockItems at hid
  split at hid
  · rename_i inner hinner
    obtain ⟨hinner, -⟩ := Option.filter_eq_some_iff.mp hinner
    exact (hb.child (List.mem_of_head? hinner)).child (List.mem_filter.mp hid).1
  · exact hb.child hid

theorem located_readBlock (hr : t.ReadsItems read) {block : NodeId} (hb : t.Below t.root block)
    (hk : t.kind block = .paGenerateBlock) : (t.readBlock read block).Located :=
  ⟨isSome_range? (contains_of_kind hk (by decide)), locatedAll_flatMap hr (below_blockItems hb)⟩

/-- A block among the parts of a construct. -/
theorem locatedBody_firstOf? (hr : t.ReadsItems read) (hid : t.Below t.root id) :
    GenerateBlock.LocatedBody
      ((t.firstOf? (t.shape id) [.paGenerateBlock]).map (t.readBlock read)) := by
  rw [GenerateBlock.locatedBody_iff]
  intro b hb
  obtain ⟨block, hblock, rfl⟩ := Option.map_eq_some_iff.mp hb
  obtain ⟨hmem, hk⟩ := mem_of_firstOf? hblock
  exact located_readBlock hr (hid.child hmem) (List.mem_singleton.mp hk)

/-! ### Constructs -/

variable (ht : t.Readable)

include ht in
/-- The first part of a node is there, if the node is. -/
theorem contains_head (hid : t.contains id) : t.contains ((t.shape id).head?.getD id) := by
  cases hh : (t.shape id).head? with
  | none => exact hid
  | some q => exact ht.contains id q (children_of_shape (List.mem_of_head? hh))

include ht in
theorem located_readRegion (hr : t.ReadsItems read) (hid : t.Below t.root id)
    (hc : t.contains id) : (t.readRegion read id).Located :=
  ⟨isSome_range? hc, isSome_range? (contains_head ht hc), locatedAll_flatMap hr fun _ hq =>
  hid.child hq⟩

include ht in
theorem located_readConditional (hr : t.ReadsItems read) {inner : NodeId}
    (hinner : t.Below t.root inner) (hid : t.contains id) (hc : t.contains inner) :
    (t.readConditional read id inner).Located := by
  have hcondition := locatedPart_bind (readsLocated_expr? t)
    (t.firstOf? (t.shape inner) [.paConstantExpression, .paExpression])
  have hblocks : ∀ b ∈ (t.shape inner).filter fun part => t.kind part == .paGenerateBlock,
      (t.readBlock read b).Located := fun b hb => by
    obtain ⟨hb, hk⟩ := List.mem_filter.mp hb
    exact located_readBlock hr (hinner.child hb) (beq_iff_eq.mp hk)
  unfold readConditional
  simp only
  split
  · rename_i yes no _ heq
    exact ⟨isSome_range? (contains_head ht hc), hcondition, hblocks yes (by simp [heq]),
      hblocks no (by simp [heq])⟩
  · refine ⟨isSome_range? hid, hcondition, ?_⟩
    split
    · rename_i block more heq
      exact hblocks block (by simp [heq])
    · exact ⟨isSome_range? hc, trivial⟩

theorem located_readBranch (hr : t.ReadsItems read) (hid : t.Below t.root id) (hc : t.contains id) :
    (t.readBranch read id).Located :=
  ⟨isSome_range? hc, locatedAll_filterMap (readsLocated_expr? t) _, locatedBody_firstOf? hr hid⟩

theorem located_readChoice (hr : t.ReadsItems read) {inner : NodeId}
    (hinner : t.Below t.root inner) (hc : t.contains inner) :
    (t.readChoice read id inner).Located := by
  refine ⟨isSome_range? hc, locatedPart_bind (readsLocated_expr? t) _,
    CaseBranch.locatedAll_iff.mpr fun b hb => ?_⟩
  obtain ⟨q, hq, rfl⟩ := List.mem_map.mp hb
  obtain ⟨hq, hk⟩ := List.mem_filter.mp hq
  exact located_readBranch hr (hinner.child hq) (contains_of_kind (beq_iff_eq.mp hk) (by decide))

include ht in
theorem located_readLoopStart (hc : t.contains id) : (t.readLoopStart id).Located := by
  refine ⟨isSome_range? hc, fun v hv => ?_, locatedPart_bind (readsLocated_expr? t) _⟩
  obtain ⟨q, hq, rfl⟩ := Option.map_eq_some_iff.mp hv
  exact isSome_range? (ht.contains id q (children_of_shape (List.mem_of_getElem? hq)))

theorem located_readLoopStep (hc : t.contains id) : (t.readLoopStep id).Located := by
  have hpart (q : NodeId) : Expr.LocatedPart (t.expr? q) :=
    locatedPart_bind (readsLocated_expr? t) (some q)
  unfold readLoopStep
  split
  · split
    · exact ⟨isSome_range? hc, hpart _, hpart _⟩
    · exact hpart _
  · exact hpart _

include ht in
theorem located_readLoop (hr : t.ReadsItems read) {inner : NodeId}
    (hinner : t.Below t.root inner) (hc : t.contains inner) :
    (t.readLoop read id inner).Located := by
  refine ⟨isSome_range? hc, fun s hs => ?_, locatedPart_bind (readsLocated_expr? t) _, fun s hs =>
    ?_,
    locatedBody_firstOf? hr hinner⟩
  · obtain ⟨q, hq, rfl⟩ := Option.map_eq_some_iff.mp hs
    exact located_readLoopStart ht (contains_of_firstOf? hq (by decide))
  · obtain ⟨q, hq, rfl⟩ := Option.map_eq_some_iff.mp hs
    exact located_readLoopStep (contains_of_firstOf? hq (by decide))

/-- The inner node of a construct is the node itself or its first part, if it is there at all. -/
theorem below_inner (hid : t.Below t.root id) {inner : NodeId} (hc : t.contains inner)
    (h : (if t.kind id == .paConditionalGenerateConstruct then (t.shape id).head?.getD 0 else id) =
      inner) : t.Below t.root inner := by
  split at h
  · cases hh : (t.shape id).head? with
    | none => simp [hh, ← h, contains] at hc
    | some q =>
      obtain rfl : q = inner := by simpa [hh] using h
      exact hid.child (List.mem_of_head? hh)
  · exact h ▸ hid

include ht in
theorem located_readConstruct (hr : t.ReadsItems read) (hid : t.Below t.root id)
    (hc : t.contains id) : (t.readConstruct read id).Located := by
  unfold readConstruct
  simp only
  split
  · exact located_readRegion ht hr hid hc
  generalize hinner : (if t.kind id == .paConditionalGenerateConstruct then
    (t.shape id).head?.getD 0 else id) = inner
  split
  case h_1 hk =>
    have hcon := contains_of_kind hk (by decide)
    exact located_readConditional ht hr (below_inner hid hcon hinner) hc hcon
  case h_2 hk =>
    have hcon := contains_of_kind hk (by decide)
    exact located_readChoice hr (below_inner hid hcon hinner) hcon
  case h_3 hk =>
    have hcon := contains_of_kind hk (by decide)
    exact located_readLoop ht hr (below_inner hid hcon hinner) hcon
  case h_4 => trivial

include ht in
theorem readsItems_readItem (hr : t.ReadsItems read) : t.ReadsItems (t.readItem read) := by
  intro id hid
  rw [GenerateItem.locatedAll_iff]
  unfold readItem
  split
  case h_1 =>
    simpa [GenerateItem.Located] using locatedAll_flatMap hr (below_blockItems hid)
  case h_2 hk | h_3 hk | h_4 hk =>
    simpa [GenerateItem.Located] using
      located_readConstruct ht hr hid (contains_of_kind hk (by decide))
  case h_5 =>
    rintro item hitem
    obtain ⟨a, ha, rfl⟩ := List.mem_map.mp hitem
    exact located_netAssigns t id a ha
  case h_6 =>
    rintro item hitem
    obtain ⟨i, hi, rfl⟩ := List.mem_map.mp hitem
    exact located_moduleInstances t id i hi
  case h_7 =>
    rintro item hitem
    obtain ⟨i, hi, rfl⟩ := List.mem_map.mp hitem
    exact located_gateInstances t id i hi
  case h_8 | h_9 =>
    rintro item hitem
    obtain ⟨d, hd, rfl⟩ := List.mem_map.mp hitem
    exact located_declaredNames ht hid d hd
  case h_10 => simp

include ht in
theorem readsItems_itemsWithin (depth : Nat) : t.ReadsItems (t.itemsWithin depth) := by
  induction depth with
  | zero => exact fun _ _ => trivial
  | succ depth ih => exact readsItems_readItem ht ih

include ht in
/-- **A construct of the tree has a place**, and everything in it. -/
theorem located_construct (hid : t.Below t.root id) (hc : t.contains id) :
    (t.construct id).Located :=
  located_readConstruct ht (readsItems_itemsWithin ht _) hid hc

end Blocks

end NodeTable

end Verilog
