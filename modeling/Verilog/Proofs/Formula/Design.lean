import Verilog.Proofs.Design.Compile
import Verilog.Proofs.Formula.Read
import Verilog.Proofs.Ir.Added
import Verilog.Proofs.Syntax.Declarations

/-!
# The objects of formulas

In a design a name is a reference, a number a constant that fits a word, and an operation an object
with its operator and a list of its operands, first to last (`Ir.Shows`). What has been added of an
expression that means a formula shows the formula (`Ir.shows_of_added`).
-/

namespace Verilog

namespace Ir

/-- Is an object an operation on the objects of a list? -/
def IsOperation (ir : Ir) (id : ObjectId) (op : Operator) (ids : List ObjectId) : Prop :=
  ∃ o list, ir.object? id = some o ∧ o.kind = .operation ∧ o.operator = some op ∧
    o.list? .operands = some list ∧ ir.members list = ids

/-- **Does an object show a formula?** -/
def Shows (ir : Ir) : Formula → ObjectId → Prop
  | .name x, id => ∃ o, ir.object? id = some o ∧ o.kind = .reference ∧ o.name = some x.text
  | .number n, id => ∃ o, ir.object? id = some o ∧ o.kind = .constant ∧
    o.value = some s!"UINT:{n.toNat}"
  | .unary op f, id => ∃ a, ir.IsOperation id op.meaning [a] ∧ ir.Shows f a
  | .binary op f g, id => ∃ a b, ir.IsOperation id op.meaning [a, b] ∧ ir.Shows f a ∧ ir.Shows g b
  | .choose c f g, id => ∃ a b d, ir.IsOperation id .condition [a, b, d] ∧ ir.Shows c a ∧
    ir.Shows f b ∧ ir.Shows g d
  | .parens f, id => ir.Shows f id

variable {ir : Ir} {p id : ObjectId} {e : Expr} {f : Formula}

/-- An operation that has been added is one, on the objects of its operands. -/
theorem isOperation_of_added {op : Operator} {es : List Expr} {range : Option SourceRange}
    (h : ir.Added p (.operation (some op) es range) id) :
    ∃ ids, ir.IsOperation id op ids ∧ List.Forall₂ (ir.Added id) es ids := by
  obtain ⟨list, ids, ho, hids, hall⟩ := h.operation
  exact ⟨ids, ⟨_, list, ho, rfl, rfl, rfl, hids⟩, hall⟩

/-- **What has been added of an expression shows what it means.** -/
theorem shows_of_added (h : ir.Added p e id) (hm : e.Means f) : ir.Shows f id := by
  induction hm generalizing p id with
  | name x range => exact ⟨_, h.name, rfl, rfl⟩
  | number n range => exact ⟨_, h.constant, rfl, rfl⟩
  | unary range _ ih =>
    obtain ⟨ids, hop, hall⟩ := isOperation_of_added h
    rcases hall with _ | ⟨ha, _ | _⟩
    exact ⟨_, hop, ih ha⟩
  | binary range _ _ ih ih' =>
    obtain ⟨ids, hop, hall⟩ := isOperation_of_added h
    rcases hall with _ | ⟨ha, _ | ⟨hb, _ | _⟩⟩
    exact ⟨_, _, hop, ih ha, ih' hb⟩
  | choose range _ _ _ ihc ihy ihn =>
    obtain ⟨ids, hop, hall⟩ := isOperation_of_added h
    rcases hall with _ | ⟨ha, _ | ⟨hb, _ | ⟨hd, _ | _⟩⟩⟩
    exact ⟨_, _, _, hop, ihc ha, ihy hb, ihn hd⟩
  | parens _ ih => exact ih h

/-! ### What is shown stays -/

section Retains

variable {later : Ir} (h : Retains {} ir later)

include h

theorem Retains.object?_eq {o : DesignObject} (ho : ir.object? id = some o) :
    later.object? id = some o :=
  (h.object id (Nat.zero_le id) (Array.getElem?_eq_some_iff.mp ho).1).trans ho

theorem Retains.members_eq {l : ListId} {ids : List ObjectId} (hl : ir.members l = ids)
    (hne : ids ≠ []) : later.members l = ids := by
  have hlt : l < ir.lists.size := by
    by_contra hlt
    rw [Ir.members, Array.getElem?_eq_none (Nat.le_of_not_lt hlt)] at hl
    exact hne hl.symm
  exact (h.members l (Nat.zero_le l) hlt).trans hl

theorem IsOperation.retained {op : Operator} {ids : List ObjectId} (hop : ir.IsOperation id op ids)
    (hne : ids ≠ []) : later.IsOperation id op ids := by
  obtain ⟨o, list, ho, hk, hoperator, hlist, hids⟩ := hop
  exact ⟨o, list, h.object?_eq ho, hk, hoperator, hlist, h.members_eq hids hne⟩

/-- A formula that is shown is shown in later designs. -/
theorem Shows.retained (hs : ir.Shows f id) : later.Shows f id := by
  induction f generalizing id with
  | name | number =>
    obtain ⟨o, ho, hfields⟩ := hs
    exact ⟨o, h.object?_eq ho, hfields⟩
  | unary op f ih =>
    obtain ⟨a, hop, ha⟩ := hs
    exact ⟨a, hop.retained h (by simp), ih ha⟩
  | binary op f g ihf ihg =>
    obtain ⟨a, b, hop, ha, hb⟩ := hs
    exact ⟨a, b, hop.retained h (by simp), ihf ha, ihg hb⟩
  | choose c f g ihc ihf ihg =>
    obtain ⟨a, b, d, hop, ha, hb, hd⟩ := hs
    exact ⟨a, b, d, hop.retained h (by simp), ihc ha, ihf hb, ihg hd⟩
  | parens f ih => exact ih hs

end Retains

/-! ### An assignment -/

theorem find?_setRole {ρ : Type} [DecidableEq ρ] (role : ρ) (n : Nat) (es : List (ρ × Nat)) :
    (setRole role n es).find? (·.1 == role) = some (role, n) := by
  induction es with
  | nil => simp [setRole]
  | cons e es ih =>
    rw [setRole]
    split
    · simp
    · rename_i hne
      rw [List.find?_cons_of_neg (by simpa using hne), ih]

/-- A part that is put in a role is there, and is what has been added. -/
theorem exists_part_addPart {p : ObjectId} (role : PartRole) (he : e.Located) (hp : p < ir.size)
    {o : DesignObject} (ho : ir.object? p = some o) :
    ∃ parts c, (addPart p role (some e) ir).object? p = some { o with parts } ∧
      DesignObject.part? { o with parts } role = some c ∧
      (addPart p role (some e) ir).Added p e c := by
  have hadd := addsBelow_addExpr p e he hp
  rw [addPart]
  generalize hr : addExpr (some p) e ir = r at hadd
  have hset : Grows (only p) nothing r.2 (r.2.setPart p role r.1) := .setPart r.2 p role r.1
  refine ⟨setRole role r.1 o.parts, r.1, ?_, ?_, ir, hp, he, by rw [hr], ?_⟩
  · refine (object?_modify r.2 p _ p).trans ?_
    rw [if_pos rfl, hadd.grows.object p hp (by simp), ho]
    rfl
  · rw [DesignObject.part?, find?_setRole]
    rfl
  · rw [hr]
    exact .of_grows hset (fun i hi => hi ▸ hp) fun _ hn => hn.elim

/-- Putting a part in a role changes nothing but the parts of the owner. -/
theorem exists_parts_addPart {p : ObjectId} (role : PartRole) {e? : Option Expr}
    (he : Expr.LocatedPart e?) (hp : p < ir.size) {o : DesignObject} (ho : ir.object? p = some o) :
    ∃ parts, (addPart p role e? ir).object? p = some { o with parts } := by
  cases e? with
  | none => exact ⟨o.parts, by rw [addPart, ho]⟩
  | some e =>
    obtain ⟨parts, _, ho, -⟩ := exists_part_addPart role he hp ho
    exact ⟨parts, ho⟩

/-- **Does an object assign a formula to a net?** -/
def Assigns (ir : Ir) (f : Formula) (id : ObjectId) : Prop :=
  ∃ o value, ir.object? id = some o ∧ o.kind = .continuousAssign ∧ o.part? .right = some value ∧
    ir.Shows f value

/-- **An assignment of an expression** is one of what the expression means. -/
theorem assigns_addNetAssign {a : NetAssign} (ha : a.Located) (hright : a.right = some e)
    (hm : e.Means f) (p : ObjectId) (ir : Ir) :
    (ir.addNetAssign p a).2.Assigns f (ir.addNetAssign p a).1 := by
  have hlocated : e.Located := Expr.locatedPart_iff.mp ha.2.2 e hright
  set o : DesignObject := { kind := .continuousAssign, parent := p, range := a.range } with ho
  have hobject : (ir.add o).2.object? ir.size = some o := (object?_add ir o _).trans (if_pos rfl)
  have hin : ir.size < (ir.add o).2.size := Nat.lt_of_lt_of_eq (Nat.lt_succ_self _)
    (size_add ir o).symm
  obtain ⟨parts, hleft⟩ := exists_parts_addPart .left ha.2.1 hin hobject
  have hfurnish := furnishes_addPart ir.size .left a.left ha.2.1 hin
  obtain ⟨parts', c, hc, hpart, hadded⟩ := exists_part_addPart .right hlocated
    (Nat.lt_of_lt_of_le hin hfurnish.grows.size_le) hleft
  rw [addNetAssign, hright]
  exact ⟨_, c, hc, rfl, hpart, shows_of_added hadded hm⟩

/-- A list of one object. -/
theorem addListOf_singleton (ir : Ir) (id : ObjectId) :
    (ir.addListOf [id]).2.members (ir.addListOf [id]).1 = [id] ∧
      Retains {} ir (ir.addListOf [id]).2 := by
  have hgrows : Grows nothing nothing ir (ir.addListOf [id]).2 :=
    (Grows.addList ir).trans (.push _ ir.lists.size id) (fun _ _ hn => hn)
      fun l hl he => absurd he (Nat.ne_of_lt hl)
  refine ⟨?_, .of_grows hgrows (by simp) (by simp)⟩
  refine (members_push ir.addList.2 ir.lists.size id ir.lists.size).trans ?_
  rw [if_pos ⟨rfl, by simp [addList]⟩]
  simp [Ir.members, addList]

theorem Assigns.retained {later : Ir} (h : Retains {} ir later) (ha : ir.Assigns f id) :
    later.Assigns f id := by
  obtain ⟨o, value, ho, hk, hvalue, hs⟩ := ha
  exact ⟨o, value, h.object?_eq ho, hk, hvalue, hs.retained h⟩

end Ir

/-!
## Designs of one assignment

A module whose only item is an assignment of one net is compiled without a word: nothing is
reported, and of the session nothing is changed. The definition has one list of assignments, with
one object in it (`Compiling.makes_addComponent`).
-/

namespace Compiling

/-! ### Programs that only add to the design -/

/-- **Does a program end with a result, and change nothing but the design?** -/
def Makes {α : Type} (c : Compilation) (x : Compiling α) (Q : α → Ir → Prop) : Prop :=
  ∃ a ir, x c = .ok a { c with ir } ∧ Q a ir

namespace Makes

variable {α β : Type} {c : Compilation} {x : Compiling α} {Q R : α → Ir → Prop} {S : β → Ir → Prop}

theorem pure {a : α} (h : Q a c.ir) : Makes c (pure a) Q := ⟨a, c.ir, rfl, h⟩

theorem bind {f : α → Compiling β} (hx : Makes c x Q)
    (hf : ∀ a ir, Q a ir → Makes { c with ir } (f a) S) : Makes c (x >>= f) S := by
  obtain ⟨a, ir, hrun, hq⟩ := hx
  obtain ⟨b, ir', hrun', hs⟩ := hf a ir hq
  exact ⟨b, ir', (Step.bind_of_ok hrun).trans hrun', hs⟩

theorem onIr {f : Ir → α × Ir} (h : Q (f c.ir).1 (f c.ir).2) : Makes c (onIr f) Q :=
  ⟨(f c.ir).1, (f c.ir).2, rfl, h⟩

end Makes

/-! ### Definitions -/

variable {c : Compilation} {t : NodeTable} {root : NodeId} {f : Formula} {e : Expr}

/-- **Has a definition the assignment of a formula, and no other?** -/
def OnlyAssigns (f : Formula) (d : Definition) (ir : Ir) : Prop :=
  ∃ list id, d.handle? .assigns = some list ∧ ir.members list = [id] ∧ ir.Assigns f id

/-- The gates of a module are added to what there is. -/
theorem makes_addGates (gates : List String) (design : Design) (c : Compilation) :
    Makes c (addGates design gates) fun _ ir => Ir.Retains {} c.ir ir := by
  induction gates generalizing design c with
  | nil => exact .pure (.refl _ _)
  | cons gate gates ih =>
    rw [addGates]
    split
    · exact ih design c
    · refine .bind (Q := fun _ ir => Ir.Retains {} c.ir ir) (.onIr (.add c.ir _)) fun d ir h => ?_
      obtain ⟨design', ir', hrun, h'⟩ := ih { design with
        definitions := design.definitions.insert gate d } { c with ir }
      exact ⟨design', ir', hrun, h.trans h'⟩

theorem makes_addAssigns (d : Definition) {a : NetAssign} (ha : a.Located)
    (hright : a.right = some e) (hm : e.Means f) (c : Compilation) :
    Makes c (addAssigns d [a]) (OnlyAssigns f) := by
  refine .bind (Q := fun ids ir => ∃ id, ids = [id] ∧ ir.Assigns f id)
    (.onIr ⟨_, rfl, Ir.assigns_addNetAssign ha hright hm d.object c.ir⟩) ?_
  rintro _ ir ⟨id, rfl, h⟩
  obtain ⟨hmembers, hretains⟩ := Ir.addListOf_singleton ir id
  refine .bind (Q := fun list ir' => ir'.members list = [id] ∧ ir'.Assigns f id)
    (.onIr ⟨hmembers, h.retained hretains⟩) fun list ir' h' => .pure ?_
  refine ⟨list, id, ?_, h'⟩
  rw [Definition.handle?, Definition.withHandle, Ir.find?_setRole]
  rfl

/-- **A module with one assignment** becomes a definition with one. -/
theorem makes_addDefinition {a : NetAssign} (name : String)
    (hassigns : ((t.shape root).filter fun id => t.kind id == .paContinuousAssign).flatMap
      t.netAssigns = [a])
    (hgenerates : ((t.shape root).filter fun id => (t.kind id).isGenerate) = [])
    (hright : a.right = some e) (hm : e.Means f) (c : Compilation) :
    Makes c (addDefinition name t root) (OnlyAssigns f) := by
  have ha : a.Located := by
    obtain ⟨item, -, ha⟩ := List.mem_flatMap.mp (hassigns ▸ List.mem_singleton_self a)
    exact NodeTable.located_netAssigns t item a ha
  refine .bind (Q := fun _ _ => True) (.onIr trivial) fun d ir _ => ?_
  refine .bind (Q := fun _ _ => True) (.onIr trivial) fun d ir _ => ?_
  simp only [hassigns, hgenerates]
  refine (makes_addAssigns d ha hright hm _).bind fun d ir h => ?_
  exact .pure h

theorem OnlyAssigns.retained {d : Definition} {ir later : Ir} (h : Ir.Retains {} ir later)
    (hd : OnlyAssigns f d ir) : OnlyAssigns f d later := by
  obtain ⟨list, id, hlist, hmembers, ha⟩ := hd
  exact ⟨list, id, hlist, h.members_eq hmembers (by simp), ha.retained h⟩

/-- A definition that is not there yet is there in the end. -/
theorem makes_addComponent {design : Design} {name : String}
    (hnew : design.definitions.contains name = false)
    (hd : ∀ c, Makes c (addDefinition name t root) (OnlyAssigns f)) (c : Compilation) :
    Makes c (addComponent design t name root) fun design' ir =>
      ∃ d, design'.definitions.get? name = some d ∧ OnlyAssigns f d ir := by
  rw [addComponent, hnew]
  refine (hd c).bind fun d ir h => ?_
  refine (makes_addGates _ design _).bind fun design' ir' hgates => .pure ?_
  exact ⟨d, by simp, h.retained hgates⟩

end Compiling

/-- **What it means that a table holds a module that assigns a formula** and has no other items. -/
structure NodeTable.HoldsAssign (t : NodeTable) (name : String) (f : Formula) : Prop where
  /-- The module is the only element. -/
  element : t.declared = [(.module, some name)]
  /-- All there is to compile in a module is one assignment, with the formula on its right side. -/
  items : ∀ id, t.Below t.root id → t.kind id = .paModuleDeclaration →
    ((t.shape id).filter fun q => (t.kind q).isGenerate) = [] ∧
      ∃ a e, ((t.shape id).filter fun q => t.kind q == .paContinuousAssign).flatMap t.netAssigns =
      [a] ∧
        a.right = some e ∧ e.Means f

namespace Compiling

/-- **The design of a file with one module** that assigns a formula. -/
theorem makes_addFiles {file : SourceFile} {name : String} {f : Formula} (c : Compilation)
    (ht : file.nodes.Declares) (h : file.nodes.HoldsAssign name f) :
    Makes c (addFiles [file] {}) fun design ir =>
      ∃ d, design.definitions.get? name = some d ∧ OnlyAssigns f d ir := by
  obtain ⟨e, he, hkind, hname⟩ : ∃ e, file.nodes.elements.toList = [e] ∧ e.kind = .module ∧
      e.name = some name := by
    obtain ⟨e, es, he, hfields, hnil⟩ := List.map_eq_cons_iff.mp h.element
    rw [List.map_eq_nil_iff] at hnil
    exact ⟨e, hnil ▸ he, congrArg Prod.fst hfields, congrArg Prod.snd hfields⟩
  obtain ⟨hbelow, -, hnode⟩ := ht.declared e (Array.mem_toList_iff.mp (he ▸ List.mem_cons_self))
  have hmodule : file.nodes.kind e.node = .paModuleDeclaration := by
    rw [hkind] at hnode
    unfold ElementKind.ofNode? at hnode
    split at hnode <;> first | assumption | cases hnode
  obtain ⟨hgenerates, a, ex, hassigns, hright, hm⟩ := h.items e.node hbelow hmodule
  have hrun : addFiles [file] {} = addComponent {} file.nodes name e.node := by
    simp [addFiles, addElements, addElement, he, hkind, hname, nameText]
  rw [hrun]
  exact makes_addComponent rfl (makes_addDefinition name hassigns hgenerates hright hm) c

end Compiling

/-- **Compiling a file with one module** that assigns a formula reports nothing, and the module has
the assignment. -/
theorem compileDesign_of_holdsAssign {file : SourceFile} {name : String} {f : Formula} (s : Session)
    (ht : file.nodes.Declares) (h : file.nodes.HoldsAssign name f) :
    ∃ design ir d, compileDesign [file] s = .ok (design, ir) s ∧
      design.definitions.get? name = some d ∧ Compiling.OnlyAssigns f d ir := by
  obtain ⟨design, ir, hrun, d, hd, ha⟩ :=
    Compiling.makes_addFiles { session := s, limit := Compilation.defaultLimit } ht h
  refine ⟨design, ir, d, ?_, hd, ha⟩
  rw [compileDesign, hrun]

end Verilog
