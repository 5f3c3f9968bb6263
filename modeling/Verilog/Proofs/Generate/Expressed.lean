import Verilog.Proofs.Generate.Read
import Verilog.Proofs.Ir.ExprTree

/-!
# The expressions of generate constructs

All expressions of a construct that is read are read in the tree (`NodeTable.every_construct`). And
compiling a construct makes objects of expressions out of its expressions only, and changes them no
more (`Compiling.expresses_addConstruct`). The statements follow the recursion over constructs, as
those on the form in which a design grows do.
-/

namespace Verilog

/-! ### All expressions of a construct -/

section Every

variable (P : Expr → Prop)

/-- Has each expression of an assignment a property? -/
def NetAssign.Every (a : NetAssign) : Prop := Expr.EveryPart P a.left ∧ Expr.EveryPart P a.right

/-- Has each expression of the beginning of a loop a property? -/
def LoopStart.Every (s : LoopStart) : Prop := Expr.EveryPart P s.value

/-- Has each expression of what a loop does after each turn a property? -/
def LoopStep.Every : LoopStep → Prop
  | assign _ left right _ => Expr.EveryPart P left ∧ Expr.EveryPart P right
  | malformed _ left _ => Expr.EveryPart P left
  | expr e => Expr.EveryPart P e

mutual

/-- Has each expression of a block a property? -/
def GenerateBlock.Every (P : Expr → Prop) : GenerateBlock → Prop
  | .mk _ _ items => GenerateItem.EveryAll P items

/-- `Every` for a block that may be missing. -/
def GenerateBlock.EveryBody (P : Expr → Prop) : Option GenerateBlock → Prop
  | none => True
  | some body => body.Every P

/-- Has each expression of a branch a property? -/
def CaseBranch.Every (P : Expr → Prop) : CaseBranch → Prop
  | .mk values _ body => Expr.EveryAll P values ∧ GenerateBlock.EveryBody P body

/-- `Every` for each of a list of branches. -/
def CaseBranch.EveryAll (P : Expr → Prop) : List CaseBranch → Prop
  | [] => True
  | branch :: branches => branch.Every P ∧ CaseBranch.EveryAll P branches

/-- Has each expression of an item a property? -/
def GenerateItem.Every (P : Expr → Prop) : GenerateItem → Prop
  | .assign a => a.Every P
  | .instantiate _ | .declare _ => True
  | .splice items => GenerateItem.EveryAll P items
  | .construct c => c.Every P

/-- `Every` for each of a list of items. -/
def GenerateItem.EveryAll (P : Expr → Prop) : List GenerateItem → Prop
  | [] => True
  | item :: items => item.Every P ∧ GenerateItem.EveryAll P items

/-- **Has each expression of a construct a property?** -/
def GenerateConstruct.Every (P : Expr → Prop) : GenerateConstruct → Prop
  | .region _ _ body => body.Every P
  | .ifElse _ _ _ condition yes no => Expr.EveryPart P condition ∧ yes.Every P ∧ no.Every P
  | .ifOnly _ _ _ _ condition body => Expr.EveryPart P condition ∧ body.Every P
  | .choice _ _ _ selector branches => Expr.EveryPart P selector ∧ CaseBranch.EveryAll P branches
  | .loop _ _ _ start condition step body =>
    (∀ s, start = some s → s.Every P) ∧ Expr.EveryPart P condition ∧
      (∀ s, step = some s → s.Every P) ∧ GenerateBlock.EveryBody P body
  | .unsupported .. => True

end

end Every

section Lists

variable {P : Expr → Prop}

theorem GenerateItem.everyAll_iff {items : List GenerateItem} :
    GenerateItem.EveryAll P items ↔ ∀ item ∈ items, item.Every P := by
  induction items with
  | nil => simp [GenerateItem.EveryAll]
  | cons item items ih => simp [GenerateItem.EveryAll, ih]

theorem CaseBranch.everyAll_iff {branches : List CaseBranch} :
    CaseBranch.EveryAll P branches ↔ ∀ branch ∈ branches, branch.Every P := by
  induction branches with
  | nil => simp [CaseBranch.EveryAll]
  | cons branch branches ih => simp [CaseBranch.EveryAll, ih]

theorem GenerateBlock.everyBody_iff {body : Option GenerateBlock} :
    GenerateBlock.EveryBody P body ↔ ∀ b, body = some b → b.Every P := by
  cases body <;> simp [GenerateBlock.EveryBody]

end Lists

/-! ### Constructs that are read -/

namespace NodeTable

variable {t : NodeTable} {id : NodeId} {read : NodeId → List GenerateItem} {P : Expr → Prop}

/-- **Has each expression a property that is read in the tree?** -/
def ReadsEvery (t : NodeTable) (P : Expr → Prop) : Prop :=
  ∀ id, t.Below t.root id → ∀ e, t.expr? id = some e → e.Every P

/-- Has each expression of an item a property that is read in the tree? -/
def ReadsItemsEvery (t : NodeTable) (P : Expr → Prop) (read : NodeId → List GenerateItem) : Prop :=
  ∀ id, t.Below t.root id → GenerateItem.EveryAll P (read id)

section Items

variable (hr : t.ReadsItemsEvery P read)

include hr

theorem everyAll_flatMap {ids : List NodeId} (hids : ∀ id ∈ ids, t.Below t.root id) :
    GenerateItem.EveryAll P (ids.flatMap read) :=
  GenerateItem.everyAll_iff.mpr fun item hitem => by
    obtain ⟨id, hid, hitem⟩ := List.mem_flatMap.mp hitem
    exact GenerateItem.everyAll_iff.mp (hr id (hids id hid)) item hitem

theorem every_readBlock {block : NodeId} (hb : t.Below t.root block) :
    (t.readBlock read block).Every P := everyAll_flatMap hr (below_blockItems hb)

theorem everyBody_firstOf? (hid : t.Below t.root id) (kinds : List NodeKind) :
    GenerateBlock.EveryBody P ((t.firstOf? (t.shape id) kinds).map (t.readBlock read)) := by
  rw [GenerateBlock.everyBody_iff]
  intro b hb
  obtain ⟨block, hblock, rfl⟩ := Option.map_eq_some_iff.mp hb
  exact every_readBlock hr (hid.child (mem_of_firstOf? hblock).1)

end Items

section Reads

variable (ht : t.ReadsEvery P)

include ht

theorem everyPart_bind {id? : Option NodeId} (h : ∀ id, id? = some id → t.Below t.root id) :
    Expr.EveryPart P (id?.bind t.expr?) :=
  Expr.everyPart_iff.mpr fun e he => by
    obtain ⟨id, hid, he⟩ := Option.bind_eq_some_iff.mp he
    exact ht id (h id hid) e he

theorem everyPart_shape (hid : t.Below t.root id) (i : Nat) :
    Expr.EveryPart P ((t.shape id)[i]?.bind t.expr?) :=
  everyPart_bind ht fun _ hq => hid.child (List.mem_of_getElem? hq)

theorem everyPart_firstOf? (hid : t.Below t.root id) (kinds : List NodeKind) :
    Expr.EveryPart P ((t.firstOf? (t.shape id) kinds).bind t.expr?) :=
  everyPart_bind ht fun _ hq => hid.child (mem_of_firstOf? hq).1

theorem every_netAssigns {item : NodeId} (hitem : t.Below t.root item) :
    ∀ a ∈ t.netAssigns item, a.Every P := by
  intro a ha
  obtain ⟨id, hid, rfl⟩ := List.mem_map.mp ha
  obtain ⟨hmem, hk⟩ := mem_childrenOf.mp hid
  have hbelow : t.Below t.root id := hitem.child (mem_shape hmem (by rw [hk]; rfl))
  exact ⟨everyPart_shape ht hbelow 0, everyPart_shape ht hbelow 1⟩

theorem every_readLoopStep (hid : t.Below t.root id) : (t.readLoopStep id).Every P := by
  have hpart {q : NodeId} (hq : t.Below t.root q) : Expr.EveryPart P (t.expr? q) :=
    Expr.everyPart_iff.mpr (ht q hq)
  unfold readLoopStep
  split
  · rename_i left operator right hs
    have hleft := hpart (hid.child (q := left) (by simp [hs]))
    have hright := hpart (hid.child (q := right) (by simp [hs]))
    split
    · exact ⟨hleft, hright⟩
    · exact hleft
  · exact hpart hid

variable (hr : t.ReadsItemsEvery P read)

include hr

theorem every_readConditional {inner : NodeId} (hinner : t.Below t.root inner) :
    (t.readConditional read id inner).Every P := by
  have hcondition := everyPart_firstOf? ht hinner [.paConstantExpression, .paExpression]
  have hblocks : ∀ b ∈ (t.shape inner).filter fun part => t.kind part == .paGenerateBlock,
      (t.readBlock read b).Every P := fun b hb =>
    every_readBlock hr (hinner.child (List.mem_filter.mp hb).1)
  unfold readConditional
  simp only
  split
  · rename_i yes no _ heq
    exact ⟨hcondition, hblocks yes (by simp [heq]), hblocks no (by simp [heq])⟩
  · refine ⟨hcondition, ?_⟩
    split
    · rename_i block more heq
      exact hblocks block (by simp [heq])
    · trivial

theorem every_readChoice {inner : NodeId} (hinner : t.Below t.root inner) :
    (t.readChoice read id inner).Every P := by
  refine ⟨everyPart_bind ht fun q hq => hinner.child (List.mem_of_head? hq),
    CaseBranch.everyAll_iff.mpr fun b hb => ?_⟩
  obtain ⟨q, hq, rfl⟩ := List.mem_map.mp hb
  have hbranch := hinner.child (List.mem_filter.mp hq).1
  refine ⟨Expr.everyAll_iff.mpr fun e he => ?_, everyBody_firstOf? hr hbranch _⟩
  obtain ⟨v, hv, he⟩ := List.mem_filterMap.mp he
  exact ht v (hbranch.child (List.mem_filter.mp hv).1) e he

theorem every_readLoop {inner : NodeId} (hinner : t.Below t.root inner) :
    (t.readLoop read id inner).Every P := by
  refine ⟨fun s hs => ?_, everyPart_firstOf? ht hinner _, fun s hs => ?_,
    everyBody_firstOf? hr hinner _⟩
  · obtain ⟨q, hq, rfl⟩ := Option.map_eq_some_iff.mp hs
    exact everyPart_shape ht (hinner.child (mem_of_firstOf? hq).1) 1
  · obtain ⟨q, hq, rfl⟩ := Option.map_eq_some_iff.mp hs
    exact every_readLoopStep ht (hinner.child (mem_of_firstOf? hq).1)

theorem every_readConstruct (hid : t.Below t.root id) : (t.readConstruct read id).Every P := by
  unfold readConstruct
  simp only
  split
  · exact everyAll_flatMap hr fun _ hq => hid.child hq
  generalize hinner : (if t.kind id == .paConditionalGenerateConstruct then
    (t.shape id).head?.getD 0 else id) = inner
  have hbelow {k : NodeKind} (hk : t.kind inner = k) (hn : k ≠ .slNoType) : t.Below t.root inner :=
    below_inner hid (contains_of_kind hk hn) hinner
  split
  case h_1 hk => exact every_readConditional ht hr (hbelow hk (by decide))
  case h_2 hk => exact every_readChoice ht hr (hbelow hk (by decide))
  case h_3 hk => exact every_readLoop ht hr (hbelow hk (by decide))
  case h_4 => trivial

theorem readsItemsEvery_readItem : t.ReadsItemsEvery P (t.readItem read) := by
  intro id hid
  rw [GenerateItem.everyAll_iff]
  unfold readItem
  split
  case h_1 => simpa [GenerateItem.Every] using everyAll_flatMap hr (below_blockItems hid)
  case h_2 | h_3 | h_4 => simpa [GenerateItem.Every] using every_readConstruct ht hr hid
  case h_5 =>
    rintro item hitem
    obtain ⟨a, ha, rfl⟩ := List.mem_map.mp hitem
    exact every_netAssigns ht hid a ha
  case h_6 | h_7 | h_8 | h_9 =>
    rintro item hitem
    obtain ⟨_, -, rfl⟩ := List.mem_map.mp hitem
    trivial
  case h_10 => simp

omit hr in
theorem readsItemsEvery_itemsWithin (depth : Nat) : t.ReadsItemsEvery P (t.itemsWithin depth) := by
  induction depth with
  | zero => exact fun _ _ => trivial
  | succ depth ih => exact readsItemsEvery_readItem ht ih

omit hr in
/-- **Each expression of a construct** that is read in the tree is read there itself. -/
theorem every_construct (hid : t.Below t.root id) : (t.construct id).Every P :=
  every_readConstruct ht (readsItemsEvery_itemsWithin ht _) hid

end Reads

end NodeTable

/-! ### Steps on a design -/

namespace Ir

variable {ir : Ir} {p : ObjectId} {P : Expr → Prop} (hP : ∀ e, P e → e.Located)

include hP

theorem expresses_addNetAssign {a : NetAssign} (ha : a.Every P) :
    Expresses P nothing nothing ir (ir.addNetAssign p a).2 := by
  let o : DesignObject := { kind := .continuousAssign, parent := some p, range := a.range }
  have hin : ir.size < (ir.add o).2.size := by simp
  have hleft := expresses_addPart hP ir.size .left a.left ha.1 hin
  have hright := expresses_addPart hP ir.size .right a.right ha.2
    (Nat.lt_of_lt_of_le hin hleft.changes.size_le)
  exact .addObject (o := o) rfl (hleft.furnishes hin hright)

theorem expresses_addNetAssigns {as : List NetAssign} (has : ∀ a ∈ as, a.Every P) :
    Expresses P nothing nothing ir (addNetAssigns p as ir).2 := by
  induction as generalizing ir with
  | nil => exact .refl ir
  | cons a as ih =>
    rw [List.forall_mem_cons] at has
    exact (expresses_addNetAssign hP has.1).adds (ih has.2)

theorem expresses_addLoopStart {s : LoopStart} (hs : s.Every P) (hp : p < ir.size) :
    Expresses P (only p) nothing ir (ir.addLoopStart p s) := by
  let o : DesignObject := { kind := .assignment, parent := some p, range := s.range }
  have hin : ir.size < (ir.add o).2.size := by simp
  obtain ⟨ir₁, hir₁, hleft⟩ : ∃ ir₁, ir₁ = (s.variable_.elim (ir.add o).2 fun v =>
      ((ir.add o).2.addDeclared ir.size v).2.setPart ir.size .left
        ((ir.add o).2.addDeclared ir.size v).1) ∧
      Expresses P (only ir.size) nothing (ir.add o).2 ir₁ := by
    refine ⟨_, rfl, ?_⟩
    cases s.variable_ with
    | none => exact .refl _
    | some v => exact (Expresses.add _ rfl).inRole hin .left _
  have hright := expresses_addPart hP ir.size .right s.value hs
    (Nat.lt_of_lt_of_le hin hleft.changes.size_le)
  have hadd : Expresses P nothing nothing ir (addPart ir.size .right s.value ir₁) :=
    .addObject (o := o) rfl (hleft.furnishes hin hright)
  have heq : ir.addLoopStart p s = ((addPart ir.size .right s.value ir₁).addListOf
    [ir.size]).2.setList
      p .inits ((addPart ir.size .right s.value ir₁).addListOf [ir.size]).1 := by
    rw [hir₁, addLoopStart]
    cases s.variable_ <;> rfl
  rw [heq]
  have hlist : Expresses P (only p) nothing ir
      ((addPart ir.size .right s.value ir₁).addListOf [ir.size]).2 :=
    (hadd.adds (.addListOf _ _)).mono (fun _ => id) (fun _ _ hn => hn.elim) fun _ _ => id
  exact hlist.furnishes hp (.setList _ p .inits _)

end Ir

/-! ### Programs -/

namespace Compiling

open Ir

variable {α β : Type} {ir ir₁ : Ir} {p : ObjectId} {l : ListId} {P : Expr → Prop}
  {S : β → Ir → Prop}

/-- Something is given to an object, and then more. -/
theorem From.express {x : Compiling Unit} {f : Unit → Compiling β} (hp : p < ir.size)
    (h : Expresses P (only p) nothing ir ir₁)
    (hx : p < ir₁.size → From ir₁ x fun _ ir' => Expresses P (only p) nothing ir₁ ir')
    (hf : ∀ ir', p < ir'.size → Expresses P (only p) nothing ir ir' → From ir' (f ()) S) :
    From ir₁ (x >>= f) S := by
  refine (hx (Nat.lt_of_lt_of_le hp h.changes.size_le)).bind fun _ ir' h' => ?_
  have h' := h.furnishes hp h'
  exact hf ir' (Nat.lt_of_lt_of_le hp h'.changes.size_le) h'

section Steps

variable (hP : ∀ e, P e → e.Located)

include hP

theorem expresses_addPart {e : Option Expr} (he : Expr.EveryPart P e) (hp : p < ir.size)
    (role : PartRole) :
    From ir (addPart p role e) fun _ ir' => Expresses P (only p) nothing ir ir' :=
  .change (Ir.expresses_addPart hP p role e he hp)

theorem expresses_addCondition {e : Option Expr} (he : Expr.EveryPart P e) (hp : p < ir.size)
    (place : FilePlace) :
    From ir (addCondition p place e) fun _ ir' => Expresses P (only p) nothing ir ir' := by
  cases e with
  | none => exact .report (.refl ir) _ _ _
  | some e => exact expresses_addPart hP he hp .condition

theorem expresses_addLoopStep {s : LoopStep} (hs : s.Every P) (hp : p < ir.size) :
    From ir (addLoopStep p s) fun _ ir' => Expresses P (only p) nothing ir ir' := by
  cases s with
  | assign operator left right range =>
    refine .object fun hin => ?_
    refine .express hin (.refl _) (expresses_addPart hP hs.1 · _) fun ir₁ _ h₁ => ?_
    refine .express hin h₁ (expresses_addPart hP hs.2 · _) fun ir₂ _ h₂ => ?_
    exact .change ((h₂.addObject rfl).inRole hp .increment _)
  | malformed operator left place =>
    refine .express (P := P) hp (.refl ir) (fun _ => .report (.refl ir) _ _ _) fun ir₁ hin h₁ => ?_
    exact (expresses_addPart hP hs hin .increment).mono fun _ _ h => h₁.furnishes hp h
  | expr e => exact expresses_addPart hP hs hp .increment

end Steps

theorem expresses_addStatement {block : Compiling ObjectId} (hp : p < ir.size)
    (hb : From ir block fun _ ir' => Expresses P nothing nothing ir ir') :
    From ir (addStatement p block) fun _ ir' => Expresses P (only p) nothing ir ir' :=
  hb.bind fun _ _ h => .change (h.inRole hp .statement _)

theorem expresses_fillBlock {items : ListId → Compiling Unit} {block : ObjectId}
    (hb : block < ir.size) (hi : ∀ (l : ListId) (ir : Ir), block < ir.size → l < ir.lists.size →
      From ir (items l) fun _ ir' => Expresses P nothing (only l) ir ir') :
    From ir (fillBlock block items) fun _ ir' => Expresses P (only block) nothing ir ir' :=
  .list ((hi _ ir.addList.2 hb (by simp [Ir.addList])).nested.bind fun _ _ h =>
    .change (h.inList hb .statements))

mutual

/-- **A block** makes objects of its expressions. -/
theorem expresses_addBlock (hP : ∀ e, P e → e.Located) (component : String) (p : ObjectId) :
    (b : GenerateBlock) → b.Every P → ∀ {ir : Ir}, p < ir.size →
      From ir (addBlock component p b) fun _ ir' => Expresses P nothing nothing ir ir'
  | .mk label range items, hb, ir, hp => by
    rw [addBlock]
    refine From.object fun hin => ?_
    refine (expresses_fillBlock hin fun l ir' hin hl =>
      expresses_addItems hP component _ l items hb hin hl).bind fun _ _ h => .pure (h.addObject rfl)

theorem expresses_addBody (hP : ∀ e, P e → e.Located) (component : String) (p : ObjectId) :
    (b : Option GenerateBlock) → GenerateBlock.EveryBody P b → ∀ {ir : Ir}, p < ir.size →
      From ir (addBody component p b) fun _ ir' => Expresses P (only p) nothing ir ir'
  | none, _, ir, _ => by
    rw [addBody]
    exact .pure (.refl ir)
  | some body, hb, ir, hp => by
    rw [addBody]
    exact expresses_addStatement hp (expresses_addBlock hP component p body hb hp)

theorem expresses_addItems (hP : ∀ e, P e → e.Located) (component : String) (p : ObjectId)
    (l : ListId) : (items : List GenerateItem) → GenerateItem.EveryAll P items → ∀ {ir : Ir},
      p < ir.size → l < ir.lists.size →
      From ir (addItems component p l items) fun _ ir' => Expresses P nothing (only l) ir ir'
  | [], _, ir, _, _ => by
    rw [addItems]
    exact .pure (.refl ir)
  | item :: items, hi, ir, hp, hl => by
    rw [addItems]
    refine (expresses_addItem hP component p l item hi.1 hp hl).bind fun _ ir₁ h₁ => ?_
    have hp₁ := Nat.lt_of_lt_of_le hp h₁.changes.size_le
    have hl₁ := Nat.lt_of_lt_of_le hl h₁.changes.lists_le
    exact (expresses_addItems hP component p l items hi.2 hp₁ hl₁).mono fun _ _ h => h₁.fills hl h

theorem expresses_addItem (hP : ∀ e, P e → e.Located) (component : String) (p : ObjectId)
    (l : ListId) : (item : GenerateItem) → item.Every P → ∀ {ir : Ir}, p < ir.size →
      l < ir.lists.size →
      From ir (addItem component p l item) fun _ ir' => Expresses P nothing (only l) ir ir'
  | .assign a, ha, ir, hp, hl => by
    rw [addItem]
    exact .bind (Q := fun _ ir' => Expresses P nothing nothing ir ir')
      (.onIr (expresses_addNetAssign hP ha)) fun id _ h => .change (h.inMembers hl [id])
  | .instantiate i, _, ir, hp, hl => by
    rw [addItem]
    exact .bind (Q := fun _ ir' => Expresses P nothing nothing ir ir')
      (.onIr (.add ir rfl)) fun id _ h => .change (h.inMembers hl [id])
  | .declare d, _, ir, hp, hl => by
    rw [addItem]
    exact .bind (Q := fun _ ir' => Expresses P nothing nothing ir ir')
      (.onIr (.add ir rfl)) fun id _ h => .change (h.inMembers hl [id])
  | .splice items, hi, ir, hp, hl => by
    rw [addItem]
    refine .list ?_
    have hp' : p < ir.addList.2.size := hp
    refine (expresses_addItems hP component p _ items hi hp' (by simp [Ir.addList])).nested.bind
      fun _ _ h => .change ?_
    exact (Expresses.addMembers h).inMembers hl _
  | .construct c, hc, ir, hp, hl => by
    rw [addItem]
    exact (expresses_addConstruct hP component p c hc hp).bind fun _ _ h =>
      .change (h.inMembers hl _)

theorem expresses_addBranches (hP : ∀ e, P e → e.Located) (component : String) (p : ObjectId)
    (l : ListId) : (branches : List CaseBranch) → CaseBranch.EveryAll P branches → ∀ {ir : Ir},
      p < ir.size → l < ir.lists.size →
      From ir (addBranches component p l branches) fun _ ir' => Expresses P nothing (only l) ir ir'
  | [], _, ir, _, _ => by
    rw [addBranches]
    exact .pure (.refl ir)
  | branch :: branches, hb, ir, hp, hl => by
    rw [addBranches]
    refine (expresses_addBranch hP component p l branch hb.1 hp hl).bind fun _ ir₁ h₁ => ?_
    have hp₁ := Nat.lt_of_lt_of_le hp h₁.changes.size_le
    have hl₁ := Nat.lt_of_lt_of_le hl h₁.changes.lists_le
    exact (expresses_addBranches hP component p l branches hb.2 hp₁ hl₁).mono
      fun _ _ h => h₁.fills hl h

/-- **A branch** is put in its list before it is given its values and its block. -/
theorem expresses_addBranch (hP : ∀ e, P e → e.Located) (component : String) (p : ObjectId)
    (l : ListId) : (branch : CaseBranch) → branch.Every P → ∀ {ir : Ir}, p < ir.size →
      l < ir.lists.size →
      From ir (addBranch component p l branch) fun _ ir' => Expresses P nothing (only l) ir ir'
  | .mk values range body, ⟨hvalues, hbody⟩, ir, hp, hl => by
    rw [addBranch]
    refine .object fun hin => ?_
    let item : DesignObject := { kind := .caseItem, parent := some p, range }
    have hitem : Expresses (fun _ => False) nothing (only l) ir ((ir.add item).2.push l ir.size) :=
      (Expresses.add ir (o := item) rfl).inMembers hl [ir.size]
    have hin : ir.size < ((ir.add item).2.push l ir.size).size := hin
    refine .changed (.list (.changed ?_))
    have hmatches := (Ir.expresses_addMembers hP ir.size _ values hvalues (by simp)
      (by simp [Ir.addList, Ir.setList, Ir.modify])).ofSetList .matches hin
    refine (expresses_addBody hP component _ body hbody
      (Nat.lt_of_lt_of_le hin hmatches.changes.size_le)).mono fun _ _ h => ?_
    exact hitem.after (hmatches.furnishes hin h) (fun _ hi he => Nat.ne_of_lt hi he)
      fun _ _ hn => hn.elim

/-- **A construct** makes objects of its expressions. -/
theorem expresses_addConstruct (hP : ∀ e, P e → e.Located) (component : String) (p : ObjectId) :
    (c : GenerateConstruct) → c.Every P → ∀ {ir : Ir}, p < ir.size →
      From ir (addConstruct component p c) fun _ ir' => Expresses P nothing nothing ir ir'
  | .region place range (.mk label blockRange items), hitems, ir, hp => by
    rw [addConstruct]
    refine .unlessTooDeep (.refl ir) (.object fun hin => .object fun hblock' => ?_) _ _
    let region : DesignObject := { kind := .generateRegion, parent := some p, range }
    let block : DesignObject :=
      { kind := .block, name := label, parent := some ir.size, range := blockRange }
    have hstatement : Expresses (fun _ => False) (only ir.size) nothing (ir.add region).2
        (((ir.add region).2.add block).2.setPart ir.size .statement (ir.add region).2.size) :=
      (Expresses.add _ (o := block) rfl).inRole hin .statement _
    refine .changed ?_
    refine (expresses_fillBlock (by simp) fun l ir' hin hl =>
      expresses_addItems hP component _ l items hitems hin hl).bind fun _ _ h => .pure ?_
    exact (hstatement.after h (fun _ hi he => absurd he (Nat.ne_of_lt hi))
      fun _ _ hn => hn.elim).addObject rfl
  | .ifElse place inner range condition yes no, ⟨hcondition, hyes, hno⟩, ir, hp => by
    rw [addConstruct]
    refine .unlessTooDeep (.refl ir) (.object fun hin => ?_) _ _
    refine .express hin (.refl _) (expresses_addCondition hP hcondition · _) fun ir₁ hin₁ h₁ => ?_
    refine .express hin h₁ (fun hin => expresses_addStatement hin
      (expresses_addBlock hP component _ yes hyes hin)) fun ir₂ hin₂ h₂ => ?_
    refine (expresses_addBlock hP component _ no hno hin₂).bind fun _ ir₃ h₃ => ?_
    exact .changed (.pure ((h₂.furnishes hin (h₃.inRole hin₂ .elseStatement _)).addObject rfl))
  | .ifOnly place inner range shape condition body, ⟨hcondition, hbody⟩, ir, hp => by
    rw [addConstruct]
    have hrest : From ir (do
        let id ← onIr fun ir => ir.add { kind := .generateIf, parent := some p, range }
        addCondition id inner condition
        addStatement id (addBlock component id body)
        return [id]) fun _ ir' => Expresses P nothing nothing ir ir' := by
      refine .object fun hin => ?_
      refine .express hin (.refl _) (expresses_addCondition hP hcondition · _) fun ir₁ hin₁ h₁ => ?_
      refine .express hin h₁ (fun hin => expresses_addStatement hin
        (expresses_addBlock hP component _ body hbody hin)) fun ir₂ _ h₂ => ?_
      exact .pure (h₂.addObject rfl)
    refine .unlessTooDeep (.refl ir) ?_ _ _
    dsimp only
    split
    · refine .bind (Q := fun _ ir' => ir' = ir) (.report rfl _ _ _) ?_
      rintro _ _ rfl
      exact hrest
    · exact hrest
  | .choice place inner range selector branches, ⟨hselector, hbranches⟩, ir, hp => by
    rw [addConstruct]
    refine .unlessTooDeep (.refl ir) (.object fun hin => ?_) _ _
    refine .express hin (.refl _) (expresses_addCondition hP hselector · _) fun ir₁ hin₁ h₁ => ?_
    refine .list (.changed ?_)
    refine (expresses_addBranches hP component _ _ branches hbranches (by simpa using hin₁)
      (by simp [Ir.addList, Ir.setList, Ir.modify])).bind fun _ _ h => .pure ?_
    exact (h₁.furnishes hin (h.ofSetList .items hin₁)).addObject rfl
  | .loop place inner range start condition step body, ⟨hstart, hcondition, hstep, hbody⟩, ir,
    hp => by
    rw [addConstruct]
    refine .unlessTooDeep (.refl ir) (.object fun hin => ?_) _ _
    let loop : DesignObject := { kind := .generateFor, parent := some p, range }
    have hlast {ir₃ : Ir} (h : Expresses P (only ir.size) nothing (ir.add loop).2 ir₃) :
        From ir₃ (do
          addBody component ir.size body
          return [ir.size]) fun _ ir' => Expresses P nothing nothing ir ir' :=
      .express hin h (expresses_addBody hP component _ body hbody ·) fun _ _ h =>
        .pure (h.addObject rfl)
    have hrest {ir₁ : Ir} (h : Expresses P (only ir.size) nothing (ir.add loop).2 ir₁) :
        From ir₁ (do
          addCondition ir.size inner condition
          match step with
          | some s => addLoopStep ir.size s
          | none => pure ()
          addBody component ir.size body
          return [ir.size]) fun _ ir' => Expresses P nothing nothing ir ir' := by
      refine .express hin h (expresses_addCondition hP hcondition · _) fun ir₂ _ h₂ => ?_
      cases step with
      | none => exact hlast h₂
      | some s =>
        exact .express hin h₂ (expresses_addLoopStep hP (hstep s rfl) ·) fun _ _ h => hlast h
    cases start with
    | none => exact hrest (.refl _)
    | some s => exact .changed (hrest (Ir.expresses_addLoopStart hP (hstart s rfl) hin))
  | .unsupported place kind, _, ir, hp => by
    rw [addConstruct]
    exact .unlessTooDeep (.refl ir) ((From.report (.refl ir) _ _ _).bind fun _ _ h => .pure h) _ _

end

end Compiling

end Verilog
