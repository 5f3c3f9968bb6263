import Mathlib.Data.List.Forall2
import Verilog.Expr.Basic
import Verilog.Proofs.Ir.Grow

/-!
# The objects of expressions

An expression whose parts all have a place adds objects below its owner and nothing else; so do its
parts, which are then put in a role or in a list.
-/

namespace Verilog

namespace Expr

mutual

/-- Does an expression have a place, and each expression in it? -/
def Located : Expr → Prop
  | constant _ range | name _ range | call _ _ range => range.isSome
  | element _ index range => range.isSome ∧ LocatedPart index
  | slice _ left right range => range.isSome ∧ LocatedPart left ∧ LocatedPart right
  | operation _ operands range => range.isSome ∧ LocatedAll operands
  | callWith _ _ arguments range => range.isSome ∧ LocatedAll arguments

/-- `Located` for an expression that may be missing. -/
def LocatedPart : Option Expr → Prop
  | none => True
  | some e => e.Located

/-- `Located` for each of a list of expressions. -/
def LocatedAll : List Expr → Prop
  | [] => True
  | e :: es => e.Located ∧ LocatedAll es

end

theorem locatedPart_iff {e? : Option Expr} : LocatedPart e? ↔ ∀ e, e? = some e → e.Located := by
  cases e? <;> simp [LocatedPart]

theorem locatedAll_iff {es : List Expr} : LocatedAll es ↔ ∀ e ∈ es, e.Located := by
  induction es with
  | nil => simp [LocatedAll]
  | cons e es ih => simp [LocatedAll, ih]

end Expr

namespace Ir

variable {ir : Ir} {p : ObjectId}

theorem addHead_eq (ir : Ir) (e : Expr) (p : ObjectId) (he : e.Located) :
    ∃ o : DesignObject, ir.addHead e (some p) = ir.add o ∧ o.parent = some p ∧ o.range.isSome ∧
      o.parts = [] ∧ o.lists = [] := by
  cases e with
  | constant | name | call => exact ⟨_, rfl, rfl, he, rfl, rfl⟩
  | element | slice | operation | callWith => exact ⟨_, rfl, rfl, he.1, rfl, rfl⟩

/-- The object of an expression is added, and what a step gives it. -/
theorem addsBelow_head {e : Expr} {ir' : Ir} (hp : p < ir.size) (he : e.Located)
    (h : ir.size < (ir.addHead e (some p)).2.size →
      Furnishes ir.size (ir.addHead e (some p)).2 ir') :
    AddsBelow p ir [(ir.addHead e (some p)).1] ir' := by
  obtain ⟨o, ho, hparent, hrange, hparts, hlists⟩ := addHead_eq ir e p he
  rw [ho] at h ⊢
  exact (h (by simp)).addsBelow hp hparent hrange hparts hlists

mutual

/-- **An expression** adds objects below its owner. -/
theorem addsBelow_addExpr (p : ObjectId) : (e : Expr) → e.Located → ∀ {ir : Ir}, p < ir.size →
    AddsBelow p ir [(addExpr (some p) e ir).1] (addExpr (some p) e ir).2
  | .constant _ _, he, _, hp | .name _ _, he, _, hp | .call _ _ _, he, _, hp => by
    rw [addExpr]
    exact addsBelow_head hp he fun _ => .refl _ _
  | .element _ index _, he, _, hp => by
    rw [addExpr]
    exact addsBelow_head hp he fun hin => furnishes_addPart _ .index index he.2 hin
  | .slice _ left right _, he, _, hp => by
    rw [addExpr]
    refine addsBelow_head hp he fun hin => ?_
    have hleft := furnishes_addPart _ .leftBound left he.2.1 hin
    exact hleft.trans (furnishes_addPart _ .rightBound right he.2.2
      (Nat.lt_of_lt_of_le hin hleft.grows.size_le))
  | .operation _ operands _, he, _, hp => by
    rw [addExpr]
    refine addsBelow_head hp he fun hin => ?_
    exact Fills.setList (fills_addMembers _ _ operands he.2 hin) .operands
  | .callWith _ _ arguments _, he, _, hp => by
    rw [addExpr]
    refine addsBelow_head hp he fun hin => ?_
    exact Fills.setList (fills_addMembers _ _ arguments he.2 hin) .arguments

/-- **A part** is given to its owner. -/
theorem furnishes_addPart (p : ObjectId) (role : PartRole) : (e? : Option Expr) →
    Expr.LocatedPart e? → ∀ {ir : Ir}, p < ir.size → Furnishes p ir (addPart p role e? ir)
  | none, _, ir, _ => by
    rw [addPart]
    exact .refl p ir
  | some e, he, ir, hp => by
    rw [addPart]
    exact (addsBelow_addExpr p e he hp).setPart hp role

/-- **Members** are given to a list of their owner. -/
theorem fills_addMembers (p : ObjectId) (l : ListId) : (es : List Expr) → Expr.LocatedAll es →
    ∀ {ir : Ir}, p < ir.size → Fills p l ir (addMembers p l es ir)
  | [], _, ir, _ => by
    rw [addMembers]
    exact .refl p l ir
  | e :: es, he, ir, hp => by
    rw [addMembers]
    have hhead := (addsBelow_addExpr p e he.1 hp).push hp l
    exact hhead.trans (fills_addMembers p l es he.2 (Nat.lt_of_lt_of_le hp hhead.grows.size_le)) hp

end

end Ir

/-!
## What has been made of an expression

The objects of an expression are changed no more once they are there: what is added or given later
concerns objects and lists that are older, or newer ones. So in every later design the object of an
operation has the operator, and a list of operands in which each operand has its object
(`Ir.Added.operation`).
-/

namespace Ir

/-- **Does a design have what another one got** since it was at some earlier state? -/
structure Retains (ir ir₁ later : Ir) : Prop where
  size_le : ir₁.size ≤ later.size
  lists_le : ir₁.lists.size ≤ later.lists.size
  object : ∀ i, ir.size ≤ i → i < ir₁.size → later.object? i = ir₁.object? i
  members : ∀ l, ir.lists.size ≤ l → l < ir₁.lists.size → later.members l = ir₁.members l

variable {ir ir₁ ir₂ later latest : Ir} {objects lists : ObjectId → Prop} {p : ObjectId}
    {l : ListId}

namespace Retains

theorem refl (ir ir₁ : Ir) : Retains ir ir₁ ir₁ :=
  ⟨Nat.le_refl _, Nat.le_refl _, fun _ _ _ => rfl, fun _ _ _ => rfl⟩

theorem trans (h : Retains ir ir₁ later) (h' : Retains {} later latest) :
    Retains ir ir₁ latest := by
  refine ⟨Nat.le_trans h.size_le h'.size_le, Nat.le_trans h.lists_le h'.lists_le,
    fun i hi hi₁ => ?_, fun l hi hi₁ => ?_⟩
  · rw [h'.object i (Nat.zero_le i) (Nat.lt_of_lt_of_le hi₁ h.size_le), h.object i hi hi₁]
  · rw [h'.members l (Nat.zero_le l) (Nat.lt_of_lt_of_le hi₁ h.lists_le), h.members l hi hi₁]

/-- What has grown retains what was new, if only older objects and lists have been changed. -/
theorem of_grows (h : Grows objects lists ir₁ ir₂) (ho : ∀ i, objects i → i < ir.size)
    (hl : ∀ l, lists l → l < ir.lists.size) : Retains ir ir₁ ir₂ :=
  ⟨h.size_le, h.lists_le,
    fun i hi hi₁ => h.object i hi₁ fun hn => absurd (ho i hn) (Nat.not_lt.mpr hi),
    fun l hi hi₁ => h.members l hi₁ fun hn => absurd (hl l hn) (Nat.not_lt.mpr hi)⟩

/-- What was new at an earlier time. -/
theorem earlier (h : Retains ir ir₂ later) (hg : Grows objects lists ir₁ ir₂)
    (ho : ∀ i, objects i → i < ir.size) (hl : ∀ l, lists l → l < ir.lists.size) :
    Retains ir ir₁ later := by
  have hold := of_grows hg ho hl
  refine ⟨Nat.le_trans hg.size_le h.size_le, Nat.le_trans hg.lists_le h.lists_le,
    fun i hi hi₁ => ?_, fun l hi hi₁ => ?_⟩
  · rw [h.object i hi (Nat.lt_of_lt_of_le hi₁ hg.size_le), hold.object i hi hi₁]
  · rw [h.members l hi (Nat.lt_of_lt_of_le hi₁ hg.lists_le), hold.members l hi hi₁]

/-- What was new since a later time. -/
theorem since (h : Retains ir ir₂ later) (hs : ir.size ≤ ir₁.size)
    (hl : ir.lists.size ≤ ir₁.lists.size) : Retains ir₁ ir₂ later :=
  ⟨h.size_le, h.lists_le, fun i hi => h.object i (Nat.le_trans hs hi),
    fun l hi => h.members l (Nat.le_trans hl hi)⟩

/-- An object more, whatever it is. -/
theorem add (ir : Ir) (o : DesignObject) : Retains {} ir (ir.add o).2 := by
  refine ⟨by simp, Nat.le_refl _, fun i _ hi => ?_, fun l _ _ => members_add ir o l⟩
  rw [object?_add, if_neg (Nat.ne_of_lt hi)]

end Retains

/-- **Has an expression been added** below an object, with a number? -/
def Added (later : Ir) (p : ObjectId) (e : Expr) (id : ObjectId) : Prop :=
  ∃ ir : Ir, p < ir.size ∧ e.Located ∧ id = (addExpr (some p) e ir).1 ∧
    Retains ir (addExpr (some p) e ir).2 later

/-- Members of a list are added one after the other. -/
theorem exists_addMembers (p : ObjectId) (l : ListId) : (es : List Expr) → Expr.LocatedAll es →
    ∀ {ir : Ir}, p < ir.size → l < ir.lists.size →
      ∃ ids, (addMembers p l es ir).members l = ir.members l ++ ids ∧
        ∀ later, Retains ir (addMembers p l es ir) later → List.Forall₂ (Added later p) es ids
  | [], _, ir, _, _ => ⟨[], by rw [addMembers, List.append_nil], fun _ _ => .nil⟩
  | e :: es, he, ir, hp, hl => by
    have hhead := addsBelow_addExpr p e he.1 hp
    generalize hr : addExpr (some p) e ir = r at hhead
    have hp' : p < (r.2.push l r.1).size := Nat.lt_of_lt_of_le hp hhead.grows.size_le
    have hl' := Nat.lt_of_lt_of_le hl hhead.grows.lists_le
    have hpush : (r.2.push l r.1).lists.size = r.2.lists.size := by simp [push]
    -- the other members only touch the list, so the first one stays what has been added
    have htail := fills_addMembers p l es he.2 hp'
    obtain ⟨ids, hids, hadded⟩ := exists_addMembers p l es he.2 hp' (hpush ▸ hl')
    refine ⟨r.1 :: ids, ?_, fun later hlater => .cons ?_ ?_⟩
    · rw [addMembers, hr, hids, members_push, if_pos ⟨rfl, hl'⟩, hhead.grows.members l hl (by simp),
        List.append_assoc, List.singleton_append]
    · rw [addMembers, hr] at hlater
      refine ⟨ir, hp, he.1, by rw [hr], ?_⟩
      rw [hr]
      exact hlater.earlier ((Grows.push r.2 l r.1).trans htail.grows (fun _ _ => id) fun _ _ => id)
        (by simp) fun _ he => he ▸ hl
    · rw [addMembers, hr] at hlater
      exact hadded later (hlater.since hhead.grows.size_le (hpush ▸ hhead.grows.lists_le))

namespace Added

variable {id : ObjectId} {range : Option SourceRange}

theorem constant {value : String} (h : later.Added p (.constant value range) id) :
    later.object? id = some
      { kind := .constant, parent := some p, range, value := some value } := by
  obtain ⟨ir, -, -, rfl, hlater⟩ := h
  rw [addExpr] at hlater ⊢
  exact (hlater.object ir.size (Nat.le_refl _) (by simp [addHead])).trans
    ((object?_add ir _ _).trans (if_pos rfl))

theorem name {name : String} (h : later.Added p (.name name range) id) :
    later.object? id = some { kind := .reference, parent := some p, range, name := some name } := by
  obtain ⟨ir, -, -, rfl, hlater⟩ := h
  rw [addExpr] at hlater ⊢
  exact (hlater.object ir.size (Nat.le_refl _) (by simp [addHead])).trans
    ((object?_add ir _ _).trans (if_pos rfl))

/-- **An operation** has its operator, and its operands in a list. -/
theorem operation {op : Option Operator} {es : List Expr}
    (h : later.Added p (.operation op es range) id) :
    ∃ list ids,
      later.object? id = some
        { kind := .operation, parent := some p, range, operator := op,
          lists := [(.operands, list)] } ∧
      later.members list = ids ∧ List.Forall₂ (later.Added id) es ids := by
  obtain ⟨ir, hp, he, rfl, hlater⟩ := h
  rw [addExpr] at hlater ⊢
  simp only [addHead] at hlater ⊢
  set o : DesignObject := { kind := .operation, parent := some p, range, operator := op } with ho
  set ir₁ := (ir.add o).2.addList.2 with hir₁
  have hsize : ir₁.size = ir.size + 1 := size_add ir o
  have hlists : ir₁.lists.size = ir.lists.size + 1 := by simp [hir₁, addList, add]
  have hin₁ : ir.size < ir₁.size := by omega
  have hlin₁ : ir.lists.size < ir₁.lists.size := by omega
  have hfill := fills_addMembers ir.size ir.lists.size es he.2 hin₁
  obtain ⟨ids, hids, hadded⟩ := exists_addMembers ir.size ir.lists.size es he.2 hin₁ hlin₁
  refine ⟨ir.lists.size, ids, ?_⟩
  change later.object? ir.size = _ ∧ _
  change Retains ir ((addMembers ir.size ir.lists.size es ir₁).setList ir.size .operands
    ir.lists.size) later at hlater
  generalize addMembers ir.size ir.lists.size es ir₁ = ir₂ at *
  have hset : Grows (only ir.size) nothing ir₂ (ir₂.setList ir.size .operands ir.lists.size) :=
    .setList ir₂ ir.size .operands ir.lists.size
  have hin := Nat.lt_of_lt_of_le hin₁ hfill.grows.size_le
  have hlin := Nat.lt_of_lt_of_le hlin₁ hfill.grows.lists_le
  refine ⟨?_, ?_, hadded later ?_⟩
  -- the operation is given its list last, when the operands are there
  · rw [hlater.object ir.size (Nat.le_refl _) (by rwa [size_setList]), setList, object?_modify,
      if_pos rfl, hfill.grows.object ir.size hin₁ (by simp)]
    exact congrArg (Option.map _) ((object?_add ir o _).trans (if_pos rfl))
  · rw [hlater.members ir.lists.size (Nat.le_refl _) hlin]
    exact hids.trans (by simp [hir₁, members, addList, add])
  · refine (hlater.since (Nat.le_of_lt hin₁) (Nat.le_of_lt hlin₁)).earlier hset (fun i hi => ?_)
      fun _ hn => hn.elim
    exact hi ▸ hin₁

end Added

end Ir

end Verilog
