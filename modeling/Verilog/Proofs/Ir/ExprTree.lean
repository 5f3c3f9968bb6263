import Verilog.Proofs.Ir.Tree

/-!
# Expressions read back as trees

The objects of an expression are read back as the expression: an operation with its operands in
order, a call with its arguments, a select with its index or its bounds.
-/

namespace Verilog

namespace Expr

mutual

/-- **What an expression is in a design.** -/
def tree : Expr → DesignTree
  | constant value range => .node { kind := .constant, range, value := some value } [] []
  | name x range => .node { kind := .reference, range, name := some x } [] []
  | element x index range =>
    .node { kind := .bitSelect, range, name := some x } (partTrees .index index) []
  | slice x left right range =>
    .node { kind := .partSelect, range, name := some x }
      (partTrees .leftBound left ++ partTrees .rightBound right) []
  | operation operator operands range =>
    .node { kind := .operation, range, operator } [] [(.operands, trees operands)]
  | call system x range =>
    .node { kind := if system then .systemCall else .functionCall, range, name := some x } [] []
  | callWith system x arguments range =>
    .node { kind := if system then .systemCall else .functionCall, range, name := some x } []
      [(.arguments, trees arguments)]

/-- What an expression in a role is, if there is one. -/
def partTrees (role : PartRole) : Option Expr → List (PartRole × DesignTree)
  | none => []
  | some e => [(role, e.tree)]

/-- What each of a list of expressions is. -/
def trees : List Expr → List DesignTree
  | [] => []
  | e :: es => e.tree :: trees es

end

theorem roles_partTrees (role : PartRole) (e? : Option Expr) :
    ((partTrees role e?).map (·.1)).Sublist [role] := by
  cases e? with
  | none => exact List.nil_sublist _
  | some e => exact List.Sublist.refl _

end Expr

namespace Ir

variable {ir : Ir} {p : ObjectId}

theorem DistinctRoles.of_sublist {parts : List (PartRole × DesignTree)}
    {lists : List (ListRole × List DesignTree)} {roles : List PartRole} {roles' : List ListRole}
    (h : (parts.map (·.1)).Sublist roles) (h' : (lists.map (·.1)).Sublist roles')
    (hroles : roles.Nodup) (hroles' : roles'.Nodup) : DistinctRoles parts lists :=
  ⟨hroles.sublist h, hroles'.sublist h'⟩

mutual

/-- **An expression** is added and read back as its tree. -/
theorem addsTrees_addExpr (p : ObjectId) : (e : Expr) → e.Located → ∀ {ir : Ir}, p < ir.size →
    AddsTrees p ir [(addExpr (some p) e ir).1] [e.tree] (addExpr (some p) e ir).2
  | .constant value range, he, ir, hp => by
    rw [addExpr]
    let o : DesignObject := { kind := .constant, parent := some p, range, value := some value }
    exact addsTrees_add (o := o) hp rfl he rfl rfl
  | .name x range, he, ir, hp => by
    rw [addExpr]
    let o : DesignObject := { kind := .reference, parent := some p, range, name := some x }
    exact addsTrees_add (o := o) hp rfl he rfl rfl
  | .call system x range, he, ir, hp => by
    rw [addExpr]
    let o : DesignObject :=
      { kind := if system then .systemCall else .functionCall, parent := some p, range,
        name := some x }
    exact addsTrees_add (o := o) hp rfl he rfl rfl
  | .element x index range, he, ir, hp => by
    rw [addExpr]
    let o : DesignObject := { kind := .bitSelect, parent := some p, range, name := some x }
    have hin : ir.size < (ir.add o).2.size := by simp
    have hindex := givesTrees_addPart ir.size .index index he.2 hin
    exact hindex.addsTrees hp rfl he.1 rfl rfl
      (.of_sublist (Expr.roles_partTrees .index index) (List.nil_sublist []) (by simp) .nil)
  | .slice x left right range, he, ir, hp => by
    rw [addExpr]
    let o : DesignObject := { kind := .partSelect, parent := some p, range, name := some x }
    have hin : ir.size < (ir.add o).2.size := by simp
    have hleft := givesTrees_addPart ir.size .leftBound left he.2.1 hin
    have hright := givesTrees_addPart ir.size .rightBound right he.2.2
      (Nat.lt_of_lt_of_le hin hleft.furnishes.grows.size_le)
    refine (hleft.trans hright hin).addsTrees hp rfl he.1 rfl rfl ?_
    refine .of_sublist ?_ (List.nil_sublist [])
      (by decide : [PartRole.leftBound, PartRole.rightBound].Nodup) .nil
    rw [List.map_append]
    exact (Expr.roles_partTrees .leftBound left).append (Expr.roles_partTrees .rightBound right)
  | .operation operator operands range, he, ir, hp => by
    rw [addExpr]
    let o : DesignObject := { kind := .operation, parent := some p, range, operator }
    have hin : ir.size < (ir.add o).2.size := by simp
    have hfill := fillsTrees_addMembers ir.size (ir.add o).2.lists.size operands he.2
      (show ir.size < (ir.add o).2.addList.2.size from hin) (by simp [addList])
    exact (hfill.setList hin .operands).addsTrees hp rfl he.1 rfl rfl ⟨.nil, by simp⟩
  | .callWith system x arguments range, he, ir, hp => by
    rw [addExpr]
    let o : DesignObject :=
      { kind := if system then .systemCall else .functionCall, parent := some p, range,
        name := some x }
    have hin : ir.size < (ir.add o).2.size := by simp
    have hfill := fillsTrees_addMembers ir.size (ir.add o).2.lists.size arguments he.2
      (show ir.size < (ir.add o).2.addList.2.size from hin) (by simp [addList])
    exact (hfill.setList hin .arguments).addsTrees hp rfl he.1 rfl rfl ⟨.nil, by simp⟩

/-- **A part** is given to its owner and read back as its tree. -/
theorem givesTrees_addPart (p : ObjectId) (role : PartRole) : (e? : Option Expr) →
    Expr.LocatedPart e? → ∀ {ir : Ir}, p < ir.size →
      GivesTrees p ir (Expr.partTrees role e?) [] (addPart p role e? ir)
  | none, _, ir, _ => by
    rw [addPart, Expr.partTrees]
    exact .refl p ir
  | some e, he, ir, hp => by
    rw [addPart, Expr.partTrees]
    exact (addsTrees_addExpr p e he hp).setPart hp role

/-- **Members** are given to a list of their owner and read back as their trees. -/
theorem fillsTrees_addMembers (p : ObjectId) (l : ListId) : (es : List Expr) →
    Expr.LocatedAll es → ∀ {ir : Ir}, p < ir.size → l < ir.lists.size →
      FillsTrees p l ir (Expr.trees es) (addMembers p l es ir)
  | [], _, ir, _, _ => by
    rw [addMembers, Expr.trees]
    exact .refl p l ir
  | e :: es, he, ir, hp, hl => by
    rw [addMembers, Expr.trees]
    have hhead := (addsTrees_addExpr p e he.1 hp).push hp hl
    have htail := fillsTrees_addMembers p l es he.2
      (Nat.lt_of_lt_of_le hp hhead.fills.grows.size_le)
      (Nat.lt_of_lt_of_le hl hhead.fills.grows.lists_le)
    exact hhead.trans htail hp hl

end

end Ir

/-!
## Where the objects of expressions come from

Objects of some kinds are made of expressions only. So while a design grows, each new object of such
a kind is the tree of an expression, and once made it is not changed any more: what is given parts
or members later on is older, or of another kind (`Ir.Expresses`). The relation says so of a design
and a later one, for expressions of some property, whatever else is added.
-/

namespace Expr

variable {P Q : Expr → Prop}

mutual

/-- **Has an expression a property**, and each expression in it? -/
def Every (P : Expr → Prop) : Expr → Prop
  | constant value range => P (constant value range)
  | name x range => P (name x range)
  | call system x range => P (call system x range)
  | element x index range => P (element x index range) ∧ EveryPart P index
  | slice x left right range => P (slice x left right range) ∧ EveryPart P left ∧ EveryPart P right
  | operation operator operands range =>
    P (operation operator operands range) ∧ EveryAll P operands
  | callWith system x arguments range =>
    P (callWith system x arguments range) ∧ EveryAll P arguments

/-- `Every` for an expression that may be missing. -/
def EveryPart (P : Expr → Prop) : Option Expr → Prop
  | none => True
  | some e => e.Every P

/-- `Every` for each of a list of expressions. -/
def EveryAll (P : Expr → Prop) : List Expr → Prop
  | [] => True
  | e :: es => e.Every P ∧ EveryAll P es

end

theorem everyPart_iff {e? : Option Expr} : EveryPart P e? ↔ ∀ e, e? = some e → e.Every P := by
  cases e? <;> simp [EveryPart]

theorem everyAll_iff {es : List Expr} : EveryAll P es ↔ ∀ e ∈ es, e.Every P := by
  induction es with
  | nil => simp [EveryAll]
  | cons e es ih => simp [EveryAll, ih]

end Expr

/-- Is an object of a kind made of an expression? -/
def ObjectKind.isExpression : ObjectKind → Bool
  | .constant | .reference | .bitSelect | .partSelect => true
  | .operation | .systemCall | .functionCall => true
  | _ => false

namespace Ir

/-- The kind of an object. -/
def kind? (ir : Ir) (i : ObjectId) : Option ObjectKind := (ir.object? i).map (·.kind)

variable {ir ir₁ ir₂ later : Ir} {objects objects' : ObjectId → Prop} {lists lists' : ListId → Prop}
  {p c i : ObjectId} {l : ListId} {o : DesignObject} {k : ObjectKind} {P Q : Expr → Prop}

theorem lt_of_kind? (h : ir.kind? i = some k) : i < ir.size := by
  by_contra hi
  rw [kind?, object?, Array.getElem?_eq_none (Nat.le_of_not_lt hi)] at h
  cases h

/-! ### What is changed -/

/-- **A design that has been changed**, perhaps in some objects and lists, and added to. Objects
keep their kinds. -/
structure Changes (objects : ObjectId → Prop) (lists : ListId → Prop) (ir ir' : Ir) : Prop where
  size_le : ir.size ≤ ir'.size
  lists_le : ir.lists.size ≤ ir'.lists.size
  object : ∀ i, i < ir.size → ¬objects i → ir'.object? i = ir.object? i
  members : ∀ l, l < ir.lists.size → ¬lists l → ir'.members l = ir.members l
  kind : ∀ i, i < ir.size → ir'.kind? i = ir.kind? i

namespace Changes

theorem refl (ir : Ir) : Changes objects lists ir ir :=
  ⟨Nat.le_refl _, Nat.le_refl _, fun _ _ _ => rfl, fun _ _ _ => rfl, fun _ _ => rfl⟩

theorem trans (h : Changes objects lists ir ir₁) (h' : Changes objects' lists' ir₁ ir₂)
    (ho : ∀ i, i < ir.size → objects' i → objects i)
    (hl : ∀ l, l < ir.lists.size → lists' l → lists l) : Changes objects lists ir ir₂ := by
  have hsize {i} (hi : i < ir.size) := Nat.lt_of_lt_of_le hi h.size_le
  have hlsize {l} (hl : l < ir.lists.size) := Nat.lt_of_lt_of_le hl h.lists_le
  refine ⟨Nat.le_trans h.size_le h'.size_le, Nat.le_trans h.lists_le h'.lists_le, fun i hi hn => ?_,
    fun l hlt hn => ?_, fun i hi => ?_⟩
  · rw [h'.object i (hsize hi) fun he => hn (ho i hi he), h.object i hi hn]
  · rw [h'.members l (hlsize hlt) fun he => hn (hl l hlt he), h.members l hlt hn]
  · rw [h'.kind i (hsize hi), h.kind i hi]

theorem add (ir : Ir) (o : DesignObject) : Changes objects lists ir (ir.add o).2 := by
  have hold {i : ObjectId} (hi : i < ir.size) : (ir.add o).2.object? i = ir.object? i := by
    rw [object?_add, if_neg (Nat.ne_of_lt hi)]
  exact ⟨by simp, Nat.le_refl _, fun i hi _ => hold hi, fun l _ _ => members_add ir o l,
    fun i hi => congrArg (Option.map DesignObject.kind) (hold hi)⟩

theorem addList (ir : Ir) : Changes objects lists ir ir.addList.2 :=
  ⟨Nat.le_refl _, by simp [Ir.addList], fun _ _ _ => rfl, fun l _ _ => members_addList ir l,
    fun _ _ => rfl⟩

theorem modify (ir : Ir) (p : ObjectId) {f : DesignObject → DesignObject}
    (hf : ∀ o, (f o).kind = o.kind) : Changes (only p) lists ir (ir.modify p f) := by
  refine ⟨by simp [Ir.modify, size], Nat.le_refl _, fun i _ hn => ?_, fun _ _ _ => rfl,
    fun i _ => ?_⟩
  · rw [object?_modify, if_neg fun he => hn he.symm]
  · rw [kind?, kind?, object?_modify]
    split
    · rw [Option.map_map]
      exact Option.map_congr fun o _ => hf o
    · rfl

theorem setPart (ir : Ir) (p : ObjectId) (role : PartRole) (c : ObjectId) :
    Changes (only p) lists ir (ir.setPart p role c) := modify ir p fun _ => rfl

theorem setList (ir : Ir) (p : ObjectId) (role : ListRole) (l : ListId) :
    Changes (only p) lists ir (ir.setList p role l) := modify ir p fun _ => rfl

theorem push (ir : Ir) (l : ListId) (c : ObjectId) : Changes objects (only l) ir (ir.push l c) :=
  ⟨Nat.le_refl _, by simp [Ir.push], fun _ _ _ => rfl,
    fun k _ hn => by rw [members_push, if_neg fun he => hn he.1.symm], fun _ _ => rfl⟩

theorem pushAll (ir : Ir) (l : ListId) (ids : List ObjectId) :
    Changes objects (only l) ir (ir.pushAll l ids) := by
  induction ids generalizing ir with
  | nil => exact .refl ir
  | cons c ids ih => exact (Changes.push ir l c).trans (ih _) (fun _ _ => id) fun _ _ => id

/-- What has been changed retains what was new, if only older objects and lists have been. -/
theorem retains (h : Changes objects lists ir₁ ir₂) (ho : ∀ i, objects i → i < ir.size)
    (hl : ∀ l, lists l → l < ir.lists.size) : Retains ir ir₁ ir₂ :=
  ⟨h.size_le, h.lists_le,
    fun i hi hi₁ => h.object i hi₁ fun hn => absurd (ho i hn) (Nat.not_lt.mpr hi),
    fun l hi hi₁ => h.members l hi₁ fun hn => absurd (hl l hn) (Nat.not_lt.mpr hi)⟩

end Changes

/-- What is retained of a design is retained of an earlier one that it retains. -/
theorem Retains.before (h : Retains ir ir₂ later) (h' : Retains ir ir₁ ir₂) :
    Retains ir ir₁ later :=
  ⟨Nat.le_trans h'.size_le h.size_le, Nat.le_trans h'.lists_le h.lists_le,
    fun i hi hi₁ => (h.object i hi (Nat.lt_of_lt_of_le hi₁ h'.size_le)).trans (h'.object i hi hi₁),
    fun l hi hi₁ => (h.members l hi (Nat.lt_of_lt_of_le hi₁ h'.lists_le)).trans
      (h'.members l hi hi₁)⟩

/-! ### What is expressed -/

/-- **A design whose new expressions have a property**: it is changed in some objects and lists at
most, and every new object of a kind that is made of expressions is the tree of one with the
property, now and in any design that retains what is new. -/
structure Expresses (P : Expr → Prop) (objects : ObjectId → Prop) (lists : ListId → Prop)
    (ir ir' : Ir) : Prop where
  changes : Changes objects lists ir ir'
  expression : ∀ i, ir.size ≤ i → ∀ k, ir'.kind? i = some k → k.isExpression →
    ∃ p e, P e ∧ ∀ later, Retains ir ir' later → later.IsTree p e.tree i

namespace Expresses

/-- Nothing is expressed where nothing is added. -/
theorem of_size_le (h : Changes objects lists ir ir₁) (hs : ir₁.size ≤ ir.size) :
    Expresses P objects lists ir ir₁ :=
  ⟨h, fun _ hi _ hk => absurd (lt_of_kind? hk) (Nat.not_lt.mpr (Nat.le_trans hs hi))⟩

theorem refl (ir : Ir) : Expresses P objects lists ir ir := .of_size_le (.refl ir) (Nat.le_refl _)

theorem addList (ir : Ir) : Expresses P objects lists ir ir.addList.2 :=
  .of_size_le (.addList ir) (Nat.le_refl _)

theorem setPart (ir : Ir) (p : ObjectId) (role : PartRole) (c : ObjectId) :
    Expresses P (only p) lists ir (ir.setPart p role c) :=
  .of_size_le (.setPart ir p role c) (by simp)

theorem setList (ir : Ir) (p : ObjectId) (role : ListRole) (l : ListId) :
    Expresses P (only p) lists ir (ir.setList p role l) :=
  .of_size_le (.setList ir p role l) (by simp)

theorem pushAll (ir : Ir) (l : ListId) (ids : List ObjectId) :
    Expresses P objects (only l) ir (ir.pushAll l ids) := by
  refine .of_size_le (.pushAll ir l ids) ?_
  induction ids generalizing ir with
  | nil => exact Nat.le_refl _
  | cons c ids ih => exact ih (ir.push l c)

/-- An object of another kind is added. -/
theorem add (ir : Ir) (ho : o.kind.isExpression = false) :
    Expresses P objects lists ir (ir.add o).2 := by
  refine ⟨.add ir o, fun i hi k hk hexpr => ?_⟩
  obtain rfl : i = ir.size := Nat.le_antisymm
    (Nat.lt_succ_iff.mp (by simpa using lt_of_kind? hk)) hi
  rw [kind?, object?_add, if_pos rfl, Option.map_some, Option.some.injEq] at hk
  rw [← hk, ho] at hexpr
  cases hexpr

theorem mono (h : Expresses P objects lists ir ir₁) (hP : ∀ e, P e → Q e)
    (ho : ∀ i, i < ir.size → objects i → objects' i)
    (hl : ∀ l, l < ir.lists.size → lists l → lists' l) : Expresses Q objects' lists' ir ir₁ := by
  refine ⟨(Changes.refl ir).trans h.changes ho hl, fun i hi k hk hexpr => ?_⟩
  obtain ⟨p, e, he, htree⟩ := h.expression i hi k hk hexpr
  exact ⟨p, e, hP e he, htree⟩

/-- **One step after the other**, if the second one changes only what was there before the first. -/
theorem trans (h : Expresses P objects lists ir ir₁) (h' : Expresses P objects' lists' ir₁ ir₂)
    (ho : ∀ i, objects' i → i < ir.size ∧ objects i)
    (hl : ∀ l, lists' l → l < ir.lists.size ∧ lists l) : Expresses P objects lists ir ir₂ := by
  have hkept : Retains ir ir₁ ir₂ := h'.changes.retains (fun i hi => (ho i hi).1)
    fun l hi => (hl l hi).1
  refine ⟨h.changes.trans h'.changes (fun i _ hi => (ho i hi).2) fun l _ hi => (hl l hi).2,
    fun i hi k hk hexpr => ?_⟩
  by_cases hlt : i < ir₁.size
  · rw [h'.changes.kind i hlt] at hk
    obtain ⟨p, e, he, htree⟩ := h.expression i hi k hk hexpr
    exact ⟨p, e, he, fun later hlater => htree later (hlater.before hkept)⟩
  · obtain ⟨p, e, he, htree⟩ := h'.expression i (Nat.le_of_not_lt hlt) k hk hexpr
    exact ⟨p, e, he, fun later hlater =>
      htree later (hlater.since h.changes.size_le h.changes.lists_le)⟩

/-- **A step after another one that expresses nothing** may change what that one has added. -/
theorem after (h : Expresses (fun _ => False) objects lists ir ir₁)
    (h' : Expresses P objects' lists' ir₁ ir₂) (ho : ∀ i, i < ir.size → objects' i → objects i)
    (hl : ∀ l, l < ir.lists.size → lists' l → lists l) : Expresses P objects lists ir ir₂ := by
  refine ⟨h.changes.trans h'.changes ho hl, fun i hi k hk hexpr => ?_⟩
  by_cases hlt : i < ir₁.size
  · rw [h'.changes.kind i hlt] at hk
    obtain ⟨_, _, hnone, -⟩ := h.expression i hi k hk hexpr
    exact hnone.elim
  · obtain ⟨p, e, he, htree⟩ := h'.expression i (Nat.le_of_not_lt hlt) k hk hexpr
    exact ⟨p, e, he, fun later hlater =>
      htree later (hlater.since h.changes.size_le h.changes.lists_le)⟩

/-- Objects are added one after the other. -/
theorem adds (h : Expresses P nothing nothing ir ir₁) (h' : Expresses P nothing nothing ir₁ ir₂) :
    Expresses P nothing nothing ir ir₂ :=
  h.trans h' (fun _ hn => hn.elim) fun _ hn => hn.elim

/-- An object is given one thing after the other. -/
theorem furnishes (h : Expresses P (only p) nothing ir ir₁) (hp : p < ir.size)
    (h' : Expresses P (only p) nothing ir₁ ir₂) : Expresses P (only p) nothing ir ir₂ :=
  h.trans h' (fun _ hi => ⟨hi ▸ hp, hi⟩) fun _ hn => hn.elim

/-- A list is given one member after the other. -/
theorem fills (h : Expresses P nothing (only l) ir ir₁) (hl : l < ir.lists.size)
    (h' : Expresses P nothing (only l) ir₁ ir₂) : Expresses P nothing (only l) ir ir₂ :=
  h.trans h' (fun _ hn => hn.elim) fun _ hk => ⟨hk ▸ hl, hk⟩

/-- What has been added is put in a role. -/
theorem inRole (h : Expresses P nothing nothing ir ir₁) (hp : p < ir.size) (role : PartRole)
    (c : ObjectId) : Expresses P (only p) nothing ir (ir₁.setPart p role c) :=
  (h.mono (fun _ => id) (fun _ _ hn => hn.elim) fun _ _ => id).furnishes hp (.setPart ir₁ p role c)

/-- What has been added is given to a list. -/
theorem inMembers (h : Expresses P nothing nothing ir ir₁) (hl : l < ir.lists.size)
    (ids : List ObjectId) : Expresses P nothing (only l) ir (ir₁.pushAll l ids) :=
  (h.mono (fun _ => id) (fun _ _ => id) fun _ _ hn => hn.elim).fills hl (.pushAll ir₁ l ids)

/-- An object is added, and given what it is to hold. -/
theorem addObject (ho : o.kind.isExpression = false)
    (h : Expresses P (only ir.size) nothing (ir.add o).2 ir₁) :
    Expresses P nothing nothing ir ir₁ :=
  (Expresses.add ir ho).after h (fun _ hi he => Nat.ne_of_lt hi he) fun _ _ hn => hn.elim

/-- A list is added, and given members. -/
theorem addMembers (h : Expresses P objects (only ir.lists.size) ir.addList.2 ir₁) :
    Expresses P objects nothing ir ir₁ :=
  (Expresses.addList ir).after h (fun _ _ => id) fun _ hl he => Nat.ne_of_lt hl he

/-- Objects become the members of a new list. -/
theorem addListOf (ir : Ir) (ids : List ObjectId) :
    Expresses P objects nothing ir (ir.addListOf ids).2 := addMembers (.pushAll _ _ ids)

/-- The object of an expression is added, and given its parts. -/
theorem addHead {e : Expr} {id : ObjectId} (he : P e)
    (htree : AddsTrees p ir [id] [e.tree] ir₁) (hid : id = ir.size)
    (h : Expresses P (only ir.size) nothing (ir.add o).2 ir₁) :
    Expresses P nothing nothing ir ir₁ := by
  refine ⟨(Changes.add ir o).trans h.changes (fun _ hi he => Nat.ne_of_lt hi he)
    fun _ _ hn => hn.elim, fun i hi k hk hexpr => ?_⟩
  rcases Nat.eq_or_lt_of_le hi with heq | hlt
  · refine ⟨p, e, he, fun later hlater => ?_⟩
    cases htree.trees later hlater with
    | cons head _ => exact (hid.trans heq) ▸ head
  · obtain ⟨q, e', he', htree'⟩ := h.expression i (size_add ir o ▸ hlt) k hk hexpr
    exact ⟨q, e', he', fun later hlater =>
      htree' later (hlater.since (by simp) (Nat.le_refl _))⟩

/-- A new list is given members, and then put in a role. -/
theorem inList (h : Expresses P nothing (only ir.lists.size) ir.addList.2 ir₁) (hp : p < ir.size)
    (role : ListRole) :
    Expresses P (only p) nothing ir (ir₁.setList p role ir.lists.size) := by
  have hlist : Expresses P (only p) nothing ir ir₁ :=
    addMembers (h.mono (fun _ => id) (fun _ _ hn => hn.elim) fun _ _ => id)
  exact hlist.furnishes hp (.setList ir₁ p role ir.lists.size)

/-- A new list is put in a role, and then given members. -/
theorem ofSetList (role : ListRole) (hp : p < ir.size)
    (h : Expresses P nothing (only ir.lists.size)
      (ir.addList.2.setList p role ir.lists.size) ir₁) : Expresses P (only p) nothing ir ir₁ := by
  have hset : Expresses (fun _ => False) (only p) nothing ir
      (ir.addList.2.setList p role ir.lists.size) :=
    (Expresses.addList ir).furnishes hp (.setList _ p role _)
  exact hset.after h (fun _ _ hn => hn.elim) fun _ hl he => Nat.ne_of_lt hl he

end Expresses

/-! ### Expressions -/

mutual

/-- **An expression expresses itself** and what it is made of. -/
theorem expresses_addExpr (hP : ∀ e, P e → e.Located) (p : ObjectId) : (e : Expr) → e.Every P →
    ∀ {ir : Ir}, p < ir.size → Expresses P nothing nothing ir (addExpr (some p) e ir).2
  | .constant value range, he, ir, hp => by
    have htree := addsTrees_addExpr p _ (hP _ he) hp
    rw [addExpr] at htree ⊢
    exact .addHead he htree rfl (.refl _)
  | .name x range, he, ir, hp => by
    have htree := addsTrees_addExpr p _ (hP _ he) hp
    rw [addExpr] at htree ⊢
    exact .addHead he htree rfl (.refl _)
  | .call system x range, he, ir, hp => by
    have htree := addsTrees_addExpr p _ (hP _ he) hp
    rw [addExpr] at htree ⊢
    exact .addHead he htree rfl (.refl _)
  | .element x index range, he, ir, hp => by
    have htree := addsTrees_addExpr p _ (hP _ he.1) hp
    rw [addExpr] at htree ⊢
    let o : DesignObject := { kind := .bitSelect, parent := some p, range, name := some x }
    have hin : ir.size < (ir.add o).2.size := by simp
    exact .addHead he.1 htree rfl (expresses_addPart hP ir.size .index index he.2 hin)
  | .slice x left right range, he, ir, hp => by
    have htree := addsTrees_addExpr p _ (hP _ he.1) hp
    rw [addExpr] at htree ⊢
    let o : DesignObject := { kind := .partSelect, parent := some p, range, name := some x }
    have hin : ir.size < (ir.add o).2.size := by simp
    have hleft := expresses_addPart hP ir.size .leftBound left he.2.1 hin
    have hright := expresses_addPart hP ir.size .rightBound right he.2.2
      (Nat.lt_of_lt_of_le hin hleft.changes.size_le)
    exact .addHead he.1 htree rfl (hleft.furnishes hin hright)
  | .operation operator operands range, he, ir, hp => by
    have htree := addsTrees_addExpr p _ (hP _ he.1) hp
    rw [addExpr] at htree ⊢
    let o : DesignObject := { kind := .operation, parent := some p, range, operator }
    have hin : ir.size < (ir.add o).2.size := by simp
    have hmembers := expresses_addMembers hP ir.size (ir.add o).2.lists.size operands he.2
      (show ir.size < (ir.add o).2.addList.2.size from hin) (by simp [addList])
    exact .addHead he.1 htree rfl (hmembers.inList hin .operands)
  | .callWith system x arguments range, he, ir, hp => by
    have htree := addsTrees_addExpr p _ (hP _ he.1) hp
    rw [addExpr] at htree ⊢
    let o : DesignObject :=
      { kind := if system then .systemCall else .functionCall, parent := some p, range,
        name := some x }
    have hin : ir.size < (ir.add o).2.size := by simp
    have hmembers := expresses_addMembers hP ir.size (ir.add o).2.lists.size arguments he.2
      (show ir.size < (ir.add o).2.addList.2.size from hin) (by simp [addList])
    exact .addHead he.1 htree rfl (hmembers.inList hin .arguments)

/-- **A part** that is given to its owner. -/
theorem expresses_addPart (hP : ∀ e, P e → e.Located) (p : ObjectId) (role : PartRole) :
    (e? : Option Expr) → Expr.EveryPart P e? → ∀ {ir : Ir}, p < ir.size →
      Expresses P (only p) nothing ir (addPart p role e? ir)
  | none, _, ir, _ => by
    rw [addPart]
    exact .refl ir
  | some e, he, ir, hp => by
    rw [addPart]
    exact (expresses_addExpr hP p e he hp).inRole hp role _

/-- **Members** that are given to a list of their owner. -/
theorem expresses_addMembers (hP : ∀ e, P e → e.Located) (p : ObjectId) (l : ListId) :
    (es : List Expr) → Expr.EveryAll P es → ∀ {ir : Ir}, p < ir.size → l < ir.lists.size →
      Expresses P nothing (only l) ir (addMembers p l es ir)
  | [], _, ir, _, _ => by
    rw [addMembers]
    exact .refl ir
  | e :: es, he, ir, hp, hl => by
    rw [addMembers]
    have hpush := (expresses_addExpr hP p e he.1 hp).inMembers hl [(addExpr (some p) e ir).1]
    have htail := expresses_addMembers hP p l es he.2
      (Nat.lt_of_lt_of_le hp hpush.changes.size_le) (Nat.lt_of_lt_of_le hl hpush.changes.lists_le)
    exact hpush.fills hl htail

end

end Ir

end Verilog
