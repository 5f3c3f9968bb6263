import Verilog.Generate.Compile
import Verilog.Proofs.Ir.Holding

/-!
# The modports among the objects of a design

Objects are only added and filled in, so what an object is, and below which other one it stands, is
settled when it is added (`Ir.Extends`). A modport is the object of an item of an interface; nothing
that expressions, assignments and generate constructs become is one (`Ir.KeepsModports`), so after
all of them the modports below an object are those that were there
(`Ir.Extends.modportsBelow_eq`).
-/

namespace Verilog

/-- What an object is given when it is added, and keeps: its kind, its name, its parent and its
place. -/
def DesignObject.head (o : DesignObject) :
    ObjectKind × Option String × Option ObjectId × Option SourceRange :=
  (o.kind, o.name, o.parent, o.range)

theorem DesignObject.head_eq_iff {a b : DesignObject} : a.head = b.head ↔
    a.kind = b.kind ∧ a.name = b.name ∧ a.parent = b.parent ∧ a.range = b.range := by
  simp [head]

namespace Ir

/-- The modports below an object, each with its number, its name and its place. -/
def modportsBelow (ir : Ir) (p : ObjectId) :
    List (ObjectId × Option String × Option SourceRange) :=
  (List.range ir.size).filterMap fun id => (ir.object? id).bind fun o =>
    if o.kind = .modport ∧ o.parent = some p then some (id, o.name, o.range) else none

/-- **A design with more objects**: those that were there have kept what they are, and a new one
that is a modport stands below an object of a certain sort. -/
structure Extends (below : ObjectId → Prop) (ir ir' : Ir) : Prop where
  size_le : ir.size ≤ ir'.size
  head : ∀ i, i < ir.size →
    (ir'.object? i).map DesignObject.head = (ir.object? i).map DesignObject.head
  modport : ∀ i o p, ir.size ≤ i → ir'.object? i = some o → o.kind = .modport →
    o.parent = some p → below p

/-- Objects may be added, but no modports. -/
abbrev KeepsModports : Ir → Ir → Prop := Extends fun _ => False

variable {below below' : ObjectId → Prop} {ir ir₁ ir₂ : Ir} {p : ObjectId}

namespace Extends

/-- Only lists change. -/
theorem of_objects (h : ir₁.objects = ir.objects) : ir.Extends below ir₁ := by
  have hobject (i : ObjectId) : ir₁.object? i = ir.object? i := by rw [object?, h, object?]
  refine ⟨Nat.le_of_eq (congrArg Array.size h.symm), fun i _ => by rw [hobject],
    fun i o p hi ho => ?_⟩
  rw [hobject, object?, Array.getElem?_eq_none hi] at ho
  cases ho

theorem refl (ir : Ir) : ir.Extends below ir := of_objects rfl

theorem trans (h : ir.Extends below ir₁) (h' : ir₁.Extends below ir₂) : ir.Extends below ir₂ := by
  refine ⟨Nat.le_trans h.size_le h'.size_le, fun i hi => ?_, fun i o p hi ho hk hp => ?_⟩
  · rw [h'.head i (Nat.lt_of_lt_of_le hi h.size_le), h.head i hi]
  · by_cases hlt : i < ir₁.size
    · -- the object was there in between, and was the same kind of object then
      have hhead := h'.head i hlt
      rw [ho] at hhead
      obtain ⟨o', ho', heq⟩ := Option.map_eq_some_iff.mp hhead.symm
      obtain ⟨hkind, -, hparent, -⟩ := DesignObject.head_eq_iff.mp heq
      exact h.modport i o' p hi ho' (hkind.trans hk) (hparent.trans hp)
    · exact h'.modport i o p (Nat.le_of_not_lt hlt) ho hk hp

theorem mono (h : ir.Extends below ir₁) (hbelow : ∀ p, below p → below' p) :
    ir.Extends below' ir₁ :=
  ⟨h.size_le, h.head, fun i o p hi ho hk hp => hbelow p (h.modport i o p hi ho hk hp)⟩

/-- An object more. -/
theorem add (ir : Ir) {o : DesignObject}
    (ho : o.kind = .modport → ∀ p, o.parent = some p → below p) :
    ir.Extends below (ir.add o).2 := by
  refine ⟨by simp, fun i hi => by rw [object?_add, if_neg (Nat.ne_of_lt hi)],
    fun i o' p hi hnew hk hp => ?_⟩
  rw [object?_add] at hnew
  split at hnew
  · obtain rfl := Option.some.inj hnew
    exact ho hk p hp
  · rw [object?, Array.getElem?_eq_none hi] at hnew
    cases hnew

/-- An object is changed, but not in what it is. -/
theorem modify (ir : Ir) (id : ObjectId) {f : DesignObject → DesignObject}
    (hf : ∀ o, (f o).head = o.head) : ir.Extends below (ir.modify id f) := by
  have hsize : (ir.modify id f).size = ir.size := Array.size_modify
  refine ⟨Nat.le_of_eq hsize.symm, fun i _ => ?_, fun i o p hi ho => ?_⟩
  · rw [object?_modify]
    split
    · rw [Option.map_map]
      exact congrArg (Option.map · _) (funext hf)
    · rfl
  · rw [object?, Array.getElem?_eq_none (Nat.le_trans (Nat.le_of_eq hsize) hi)] at ho
    cases ho

theorem setPart (ir : Ir) (id : ObjectId) (role : PartRole) (part : ObjectId) :
    ir.Extends below (ir.setPart id role part) := modify ir id fun _ => rfl

theorem setList (ir : Ir) (id : ObjectId) (role : ListRole) (list : ListId) :
    ir.Extends below (ir.setList id role list) := modify ir id fun _ => rfl

theorem addList (ir : Ir) : ir.Extends below ir.addList.2 := of_objects rfl

theorem push (ir : Ir) (list : ListId) (id : ObjectId) : ir.Extends below (ir.push list id) :=
  of_objects rfl

theorem pushAll (ir : Ir) (list : ListId) (ids : List ObjectId) :
    ir.Extends below (ir.pushAll list ids) := by
  induction ids generalizing ir with
  | nil => exact refl ir
  | cons id ids ih => exact (push ir list id).trans (ih _)

theorem addListOf (ir : Ir) (ids : List ObjectId) : ir.Extends below (ir.addListOf ids).2 :=
  (addList ir).trans (pushAll _ _ ids)

/-- The modports below an object of another sort are those that were there. -/
theorem modportsBelow_eq (h : ir.Extends below ir₁) (hp : ¬below p) :
    ir₁.modportsBelow p = ir.modportsBelow p := by
  obtain ⟨n, hn⟩ := Nat.exists_eq_add_of_le h.size_le
  rw [modportsBelow, hn, List.range_add, List.filterMap_append, modportsBelow]
  have hnew : ((List.range n).map (ir.size + ·)).filterMap (fun id => (ir₁.object? id).bind
      fun o => if o.kind = .modport ∧ o.parent = some p then some (id, o.name, o.range)
        else none) = [] := by
    refine List.filterMap_eq_nil_iff.mpr fun id hid => Option.bind_eq_none_iff.mpr fun o ho =>
      if_neg fun hmodport => hp ?_
    obtain ⟨k, -, rfl⟩ := List.mem_map.mp hid
    exact h.modport _ o p (Nat.le_add_right _ _) ho hmodport.1 hmodport.2
  rw [hnew, List.append_nil]
  refine List.filterMap_congr fun id hid => ?_
  have hhead := h.head id (List.mem_range.mp hid)
  cases ho : ir.object? id with
  | none =>
    rw [ho, Option.map_none, Option.map_eq_none_iff] at hhead
    rw [hhead]
  | some o =>
    rw [ho] at hhead
    obtain ⟨o', ho', heq⟩ := Option.map_eq_some_iff.mp hhead
    obtain ⟨hkind, hname, hparent, hrange⟩ := DesignObject.head_eq_iff.mp heq
    rw [ho', Option.bind_some, Option.bind_some, hkind, hname, hparent, hrange]

end Extends

/-- A modport that is added comes behind the others below its parent. -/
theorem modportsBelow_add {o : DesignObject} (hk : o.kind = .modport) (hp : o.parent = some p)
    (ir : Ir) :
    (ir.add o).2.modportsBelow p = ir.modportsBelow p ++ [(ir.size, o.name, o.range)] := by
  rw [modportsBelow, size_add, List.range_succ, List.filterMap_append, modportsBelow]
  congr 1
  · refine List.filterMap_congr fun id hid => ?_
    rw [object?_add, if_neg (Nat.ne_of_lt (List.mem_range.mp hid))]
  · simp [hk, hp]

/-- Where no object has this one as its parent, there are no modports below it. -/
theorem modportsBelow_eq_nil (h : ∀ i, ir.parent? i ≠ some p) : ir.modportsBelow p = [] := by
  refine List.filterMap_eq_nil_iff.mpr fun id _ => Option.bind_eq_none_iff.mpr fun o ho =>
    if_neg fun hmodport => h id ?_
  rw [parent?, ho, Option.bind_some, hmodport.2]

/-! ### What expressions, assignments and loops become -/

theorem keepsModports_addHead (ir : Ir) (e : Expr) (p : Option ObjectId) :
    ir.KeepsModports (ir.addHead e p).2 := by
  refine .add ir fun hk => ?_
  cases e with
  | call system | callWith system => cases system <;> cases hk
  | _ => cases hk

mutual

/-- **An expression** adds no modports. -/
theorem keepsModports_addExpr (p : Option ObjectId) : (e : Expr) → (ir : Ir) →
    ir.KeepsModports (addExpr p e ir).2
  | .constant _ _, ir | .name _ _, ir | .call _ _ _, ir => by
    rw [addExpr]
    exact keepsModports_addHead ir _ p
  | .element _ index _, ir => by
    rw [addExpr]
    exact (keepsModports_addHead ir _ p).trans (keepsModports_addPart _ .index index _)
  | .slice _ left right _, ir => by
    rw [addExpr]
    exact ((keepsModports_addHead ir _ p).trans (keepsModports_addPart _ .leftBound left _)).trans
      (keepsModports_addPart _ .rightBound right _)
  | .operation _ operands _, ir => by
    rw [addExpr]
    exact (((keepsModports_addHead ir _ p).trans (.addList _)).trans
      (keepsModports_addMembers _ _ operands _)).trans (.setList _ _ _ _)
  | .callWith _ _ arguments _, ir => by
    rw [addExpr]
    exact (((keepsModports_addHead ir _ p).trans (.addList _)).trans
      (keepsModports_addMembers _ _ arguments _)).trans (.setList _ _ _ _)

theorem keepsModports_addPart (p : ObjectId) (role : PartRole) : (e? : Option Expr) → (ir : Ir) →
    ir.KeepsModports (addPart p role e? ir)
  | none, ir => by
    rw [addPart]
    exact .refl ir
  | some e, ir => by
    rw [addPart]
    exact (keepsModports_addExpr (some p) e ir).trans (.setPart _ _ _ _)

theorem keepsModports_addMembers (p : ObjectId) (l : ListId) : (es : List Expr) → (ir : Ir) →
    ir.KeepsModports (addMembers p l es ir)
  | [], ir => by
    rw [addMembers]
    exact .refl ir
  | e :: es, ir => by
    rw [addMembers]
    exact ((keepsModports_addExpr (some p) e ir).trans (.push _ _ _)).trans
      (keepsModports_addMembers p l es _)

end

theorem keepsModports_addNetAssign (p : ObjectId) (a : NetAssign) (ir : Ir) :
    ir.KeepsModports (ir.addNetAssign p a).2 :=
  ((Extends.add ir fun hk => (by cases hk)).trans (keepsModports_addPart _ .left a.left _)).trans
    (keepsModports_addPart _ .right a.right _)

theorem keepsModports_addNetAssigns (p : ObjectId) (as : List NetAssign) (ir : Ir) :
    ir.KeepsModports (addNetAssigns p as ir).2 := by
  induction as generalizing ir with
  | nil => exact .refl ir
  | cons a as ih => exact (keepsModports_addNetAssign p a ir).trans (ih _)

theorem keepsModports_addLoopStart (loop : ObjectId) (s : LoopStart) (ir : Ir) :
    ir.KeepsModports (ir.addLoopStart loop s) := by
  let o : DesignObject := { kind := .assignment, parent := some loop, range := s.range }
  -- what comes behind the variable of the loop, which may be missing
  have hrest (ir₁ : Ir) : ir₁.KeepsModports
      (((addPart ir.size .right s.value ir₁).addListOf [ir.size]).2.setList loop .inits
        ((addPart ir.size .right s.value ir₁).addListOf [ir.size]).1) :=
    ((keepsModports_addPart _ .right s.value ir₁).trans (.addListOf _ _)).trans (.setList _ _ _ _)
  have hadd : ir.KeepsModports (ir.add o).2 := .add ir fun hk => by cases hk
  rw [addLoopStart]
  cases s.variable_ with
  | none => exact hadd.trans (hrest _)
  | some v =>
    exact ((hadd.trans (.add _ fun hk => (by cases hk))).trans (.setPart _ _ _ _)).trans (hrest _)

end Ir

end Verilog
