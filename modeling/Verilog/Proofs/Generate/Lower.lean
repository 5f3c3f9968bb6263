import Verilog.Proofs.Design.Steps
import Verilog.Proofs.Ir.ExprTree

/-!
# Generate constructs read back as trees

A construct is translated into trees without a design: a block into one that lists what its items
are, with the items of blocks in it among them, a conditional construct into one that has its blocks
in their roles, and so on (`GenerateConstruct.trees`). What compiles a construct adds objects that
are read back as just these trees, as long as nothing is nested too deeply
(`Compiling.shallowly_addConstruct`): one statement for each program, along the recursion over
constructs.
-/

namespace Verilog

/-! ### Trees of constructs -/

open Verilog.Expr (partTrees)

/-- What an assignment of a net is. -/
def NetAssign.tree (a : NetAssign) : DesignTree :=
  .node { kind := .continuousAssign, range := a.range }
    (partTrees .left a.left ++ partTrees .right a.right) []

/-- What an instance is. -/
def Instantiation.tree (i : Instantiation) : DesignTree :=
  .node { kind := .moduleReference, definition := some i.definition, name := i.name,
          range := i.range } [] []

/-- What a declared name is. -/
def DeclaredName.tree (d : DeclaredName) : DesignTree :=
  .node { kind := .declared, name := some d.name, range := d.range } [] []

/-- What the variable of a loop is in the assignment that the loop begins with. -/
def DeclaredName.startTrees : Option DeclaredName → List (PartRole × DesignTree)
  | none => []
  | some v => [(.left, v.tree)]

/-- What the beginning of a loop is. -/
def LoopStart.tree (s : LoopStart) : DesignTree :=
  .node { kind := .assignment, range := s.range }
    (DeclaredName.startTrees s.variable_ ++ partTrees .right s.value) []

/-- What the beginning of a loop is in the loop, if there is one. -/
def LoopStart.loopTrees : Option LoopStart → List (ListRole × List DesignTree)
  | none => []
  | some s => [(.inits, [s.tree])]

/-- What a loop does after each turn. -/
def LoopStep.trees : LoopStep → List (PartRole × DesignTree)
  | assign operator left right range =>
    [(.increment, .node { kind := .assignment, range, operator := some operator }
      (partTrees .left left ++ partTrees .right right) [])]
  | malformed _ left _ => partTrees .increment left
  | expr e => partTrees .increment e

/-- What a loop does after each turn, if that is said. -/
def LoopStep.loopTrees : Option LoopStep → List (PartRole × DesignTree)
  | none => []
  | some s => s.trees

mutual

/-- What a block is. -/
def GenerateBlock.tree : GenerateBlock → DesignTree
  | .mk label range items =>
    .node { kind := .block, name := label, range } [] [(.statements, GenerateItem.allTrees items)]

/-- What the block of a construct is, if there is one. -/
def GenerateBlock.bodyTrees : Option GenerateBlock → List (PartRole × DesignTree)
  | none => []
  | some body => [(.statement, body.tree)]

/-- What a branch of a case construct is. -/
def CaseBranch.tree : CaseBranch → DesignTree
  | .mk values range body =>
    .node { kind := .caseItem, range } (GenerateBlock.bodyTrees body)
      [(.matches, Expr.trees values)]

/-- What each of a list of branches is. -/
def CaseBranch.allTrees : List CaseBranch → List DesignTree
  | [] => []
  | branch :: branches => branch.tree :: CaseBranch.allTrees branches

/-- What an item is among the items of its block. -/
def GenerateItem.trees : GenerateItem → List DesignTree
  | .assign a => [a.tree]
  | .instantiate i => [i.tree]
  | .declare d => [d.tree]
  | .splice items => GenerateItem.allTrees items
  | .construct c => c.trees

/-- What a list of items is. -/
def GenerateItem.allTrees : List GenerateItem → List DesignTree
  | [] => []
  | item :: items => item.trees ++ GenerateItem.allTrees items

/-- **What a construct is**; nothing if it is not supported. -/
def GenerateConstruct.trees : GenerateConstruct → List DesignTree
  | .region _ range body =>
    [.node { kind := .generateRegion, range } [(.statement, body.tree)] []]
  | .ifElse _ _ range condition yes no =>
    [.node { kind := .generateIfElse, range }
      (partTrees .condition condition ++ [(.statement, yes.tree)] ++ [(.elseStatement, no.tree)])
      []]
  | .ifOnly _ _ range _ condition body =>
    [.node { kind := .generateIf, range }
      (partTrees .condition condition ++ [(.statement, body.tree)]) []]
  | .choice _ _ range selector branches =>
    [.node { kind := .generateCase, range } (partTrees .condition selector)
      [(.items, CaseBranch.allTrees branches)]]
  | .loop _ _ range start condition step body =>
    [.node { kind := .generateFor, range }
      (partTrees .condition condition ++ LoopStep.loopTrees step ++ GenerateBlock.bodyTrees body)
      (LoopStart.loopTrees start)]
  | .unsupported .. => []

end

/-! ### The roles in a tree -/

theorem GenerateBlock.roles_bodyTrees (body : Option GenerateBlock) :
    ((bodyTrees body).map (·.1)).Sublist [.statement] := by
  cases body with
  | none => exact List.nil_sublist _
  | some b => exact List.Sublist.refl _

theorem LoopStep.roles_trees (s : LoopStep) : (s.trees.map (·.1)).Sublist [.increment] := by
  cases s with
  | assign => exact List.Sublist.refl _
  | malformed _ left _ => exact Expr.roles_partTrees _ left
  | expr e => exact Expr.roles_partTrees _ e

theorem LoopStep.roles_loopTrees (s? : Option LoopStep) :
    ((loopTrees s?).map (·.1)).Sublist [.increment] := by
  cases s? with
  | none => exact List.nil_sublist _
  | some s => exact s.roles_trees

theorem LoopStart.roles_loopTrees (s? : Option LoopStart) :
    ((loopTrees s?).map (·.1)).Sublist [.inits] := by
  cases s? with
  | none => exact List.nil_sublist _
  | some s => exact List.Sublist.refl _

theorem DeclaredName.roles_startTrees (v? : Option DeclaredName) :
    ((startTrees v?).map (·.1)).Sublist [.left] := by
  cases v? with
  | none => exact List.nil_sublist _
  | some v => exact List.Sublist.refl _

/-! ### Designs -/

namespace Ir

variable {ir : Ir} {p : ObjectId}

theorem lt_lists_addList (ir : Ir) : ir.lists.size < ir.addList.2.lists.size := by simp [addList]

theorem lt_lists_setList (ir : Ir) (p : ObjectId) (role : ListRole) :
    ir.lists.size < (ir.addList.2.setList p role ir.lists.size).lists.size := lt_lists_addList ir

theorem distinctRoles_sides {left right : List (PartRole × DesignTree)}
    (hleft : (left.map (·.1)).Sublist [.left]) (hright : (right.map (·.1)).Sublist [.right]) :
    DistinctRoles (left ++ right) [] := by
  refine .of_sublist ?_ (List.nil_sublist [])
    (by decide : [PartRole.left, PartRole.right].Nodup) .nil
  rw [List.map_append]
  exact hleft.append hright

theorem addsTrees_addNetAssign {a : NetAssign} (ha : a.Located) (hp : p < ir.size) :
    AddsTrees p ir [(ir.addNetAssign p a).1] [a.tree] (ir.addNetAssign p a).2 := by
  let o : DesignObject := { kind := .continuousAssign, parent := some p, range := a.range }
  have hin : ir.size < (ir.add o).2.size := by simp
  have hleft := givesTrees_addPart ir.size .left a.left ha.2.1 hin
  have hright := givesTrees_addPart ir.size .right a.right ha.2.2
    (Nat.lt_of_lt_of_le hin hleft.furnishes.grows.size_le)
  exact (hleft.trans hright hin).addsTrees hp rfl ha.1 rfl rfl
    (distinctRoles_sides (Expr.roles_partTrees _ _) (Expr.roles_partTrees _ _))

theorem addsTrees_addInstantiation {i : Instantiation} (hi : i.range.isSome) (hp : p < ir.size) :
    AddsTrees p ir [(ir.addInstantiation p i).1] [i.tree] (ir.addInstantiation p i).2 := by
  let o : DesignObject :=
    { kind := .moduleReference, parent := some p, definition := some i.definition, name := i.name,
      range := i.range }
  exact addsTrees_add (o := o) hp rfl hi rfl rfl

theorem addsTrees_addDeclared {d : DeclaredName} (hd : d.range.isSome) (hp : p < ir.size) :
    AddsTrees p ir [(ir.addDeclared p d).1] [d.tree] (ir.addDeclared p d).2 := by
  let o : DesignObject :=
    { kind := .declared, parent := some p, name := some d.name, range := d.range }
  exact addsTrees_add (o := o) hp rfl hd rfl rfl

theorem givesTrees_addLoopStart {s : LoopStart} (hs : s.Located) (hp : p < ir.size) :
    GivesTrees p ir [] (LoopStart.loopTrees (some s)) (ir.addLoopStart p s) := by
  obtain ⟨hrange, hvariable, hvalue⟩ := hs
  let o : DesignObject := { kind := .assignment, parent := some p, range := s.range }
  have hin : ir.size < (ir.add o).2.size := by simp
  obtain ⟨ir₁, hir₁, hleft⟩ : ∃ ir₁, ir₁ = (s.variable_.elim (ir.add o).2 fun v =>
      ((ir.add o).2.addDeclared ir.size v).2.setPart ir.size .left
        ((ir.add o).2.addDeclared ir.size v).1) ∧
      GivesTrees ir.size (ir.add o).2 (DeclaredName.startTrees s.variable_) [] ir₁ := by
    refine ⟨_, rfl, ?_⟩
    cases hv : s.variable_ with
    | none => exact .refl _ _
    | some v => exact (addsTrees_addDeclared (hvariable v hv) hin).setPart hin .left
  have hright := givesTrees_addPart ir.size .right s.value hvalue
    (Nat.lt_of_lt_of_le hin hleft.furnishes.grows.size_le)
  have hadd := (hleft.trans hright hin).addsTrees hp rfl hrange rfl rfl
    (distinctRoles_sides (DeclaredName.roles_startTrees _) (Expr.roles_partTrees _ _))
  have heq : ir.addLoopStart p s = ((addPart ir.size .right s.value ir₁).addListOf
    [ir.size]).2.setList
      p .inits ((addPart ir.size .right s.value ir₁).addListOf [ir.size]).1 := by
    rw [hir₁, addLoopStart]
    cases s.variable_ <;> rfl
  rw [heq]
  exact hadd.setListOf hp .inits

end Ir

/-! ### Programs -/

/-- How often it has been reported that constructs are nested too deeply. -/
def Compilation.depthReports (c : Compilation) : Nat :=
  c.session.diagnostics.toList.countP (·.kind = .loopDepth)

/-- A report of the depth counts, whether or not it ends the run. -/
theorem Compilation.depthReports_report (c : Compilation) (place : FilePlace) (message : String) :
    (Ending.state (Compiling.report .loopDepth place message c)).depthReports =
      c.depthReports + 1 := by
  let d : Diagnostic := { kind := .loopDepth, message, place := some place }
  have hdiagnostics : (c.session.add d).diagnostics = c.session.diagnostics.push d := rfl
  have hadd : Compilation.depthReports { c with session := c.session.add d } =
      c.depthReports + 1 := by
    rw [depthReports, depthReports, hdiagnostics, Array.toList_push, List.countP_append]
    rfl
  unfold Compiling.report Step.onPart
  rw [report_eq]
  split <;> rename_i heq <;> split at heq <;> cases heq <;> exact hadd

namespace Compiling

/-- Does a program take nothing back that has been reported of the depth? -/
class Telling {α : Type} (x : Compiling α) : Prop where
  told : ∀ c a c', x c = .ok a c' → c.depthReports ≤ c'.depthReports

namespace Telling

variable {α β : Type} {x : Compiling α}

theorem of_composed {Q : Compilation → Compilation → Prop}
    (hx : Step.Composed (fun _ _ => True) Q x) : Telling x where
  told c a c' hrun := by
    obtain ⟨ds, hds⟩ := (hx.reports fun _ _ _ _ => trivial).exists_addAll (fun _ => trivial) hrun
    have hsession : c'.session = c.session.addAll ds := hds
    rw [Compilation.depthReports, Compilation.depthReports, hsession, Session.diagnostics_addAll,
      Array.toList_append, List.countP_append]
    exact Nat.le_add_right _ _

instance bind {f : α → Compiling β} [hx : Telling x] [hf : ∀ a, Telling (f a)] :
    Telling (x >>= f) where
  told c b c' hrun := by
    obtain ⟨a, mid, hmid, hrun⟩ := Step.exists_of_bind hrun
    exact Nat.le_trans (hx.told c a mid hmid) ((hf a).told mid b c' hrun)

instance nested [hx : Telling x] : Telling (nested x) where
  told c a c' hrun := by
    rw [Compiling.nested] at hrun
    split at hrun
    · rename_i b after heq
      obtain ⟨rfl, rfl⟩ := EStateM.Result.ok.inj hrun
      exact hx.told c.enter _ after heq
    · cases hrun

instance pure (a : α) : Telling (pure a) := of_composed (Q := KeepsLevel) (.pure a)

instance onIr (f : Ir → α × Ir) : Telling (onIr f) := of_composed (composed_onIr f)

instance change (f : Ir → Ir) : Telling (change f) := of_composed (composed_change f)

instance report (kind : DiagnosticKind) (place : FilePlace) (message : String) :
    Telling (report kind place message) :=
  of_composed (Q := KeepsLevel) (composed_report kind place message)

instance addBlockHead (p : ObjectId) (label : Option String) (range : Option SourceRange) :
    Telling (addBlockHead p label range) := onIr _

instance addPart (p : ObjectId) (role : PartRole) (e : Option Expr) :
    Telling (addPart p role e) := of_composed (composed_addPart p role e)

instance addCondition (p : ObjectId) (place : FilePlace) (e : Option Expr) :
    Telling (addCondition p place e) := of_composed (composed_addCondition p place e)

instance addLoopStep (p : ObjectId) (s : LoopStep) : Telling (addLoopStep p s) :=
  of_composed (composed_addLoopStep p s)

instance addStatement (p : ObjectId) {block : Compiling ObjectId} [Telling block] :
    Telling (addStatement p block) := bind

instance fillBlock (block : ObjectId) {items : ListId → Compiling Unit}
    [∀ l, Telling (items l)] : Telling (fillBlock block items) := bind

instance addBlock (component : String) (p : ObjectId) (b : GenerateBlock) :
    Telling (addBlock component p b) := of_composed (composed_addBlock component p b)

instance addBody (component : String) (p : ObjectId) (b : Option GenerateBlock) :
    Telling (addBody component p b) := of_composed (composed_addBody component p b)

instance addItem (component : String) (p : ObjectId) (l : ListId) (item : GenerateItem) :
    Telling (addItem component p l item) := of_composed (composed_addItem component p l item)

instance addItems (component : String) (p : ObjectId) (l : ListId) (items : List GenerateItem) :
    Telling (addItems component p l items) := of_composed (composed_addItems component p l items)

instance addBranch (component : String) (p : ObjectId) (l : ListId) (b : CaseBranch) :
    Telling (addBranch component p l b) := of_composed (composed_addBranch component p l b)

instance addBranches (component : String) (p : ObjectId) (l : ListId) (bs : List CaseBranch) :
    Telling (addBranches component p l bs) := of_composed (composed_addBranches component p l bs)

instance addConstruct (component : String) (p : ObjectId) (c : GenerateConstruct) :
    Telling (addConstruct component p c) := of_composed (composed_addConstruct component p c)

end Telling

/-- **What a program makes of a design**, if it comes to an end without reporting that constructs
are nested too deeply. -/
def Shallowly {α : Type} (ir : Ir) (x : Compiling α) (Q : α → Ir → Prop) : Prop :=
  ∀ c a c', c.ir = ir → x c = .ok a c' → c'.depthReports ≤ c.depthReports → Q a c'.ir

namespace Shallowly

variable {α β : Type} {ir ir₁ : Ir} {p : ObjectId} {x : Compiling α} {Q R : α → Ir → Prop}
  {S : β → Ir → Prop}

theorem pure {a : α} (h : Q a ir) : Shallowly ir (pure a) Q := by
  rintro c a' c' rfl hrun -
  cases hrun
  exact h

/-- Neither of two programs has reported anything of the depth if both together have not. -/
theorem bind {f : α → Compiling β} [htx : Telling x] [htf : ∀ a, Telling (f a)]
    (hx : Shallowly ir x Q) (hf : ∀ a ir', Q a ir' → Shallowly ir' (f a) S) :
    Shallowly ir (x >>= f) S := by
  intro c b c' hc hrun hdepth
  obtain ⟨a, mid, hmid, hrun⟩ := Step.exists_of_bind hrun
  have hq := hx c a mid hc hmid (Nat.le_trans ((htf a).told mid b c' hrun) hdepth)
  exact hf a mid.ir hq mid b c' rfl hrun (Nat.le_trans hdepth (htx.told c a mid hmid))

theorem mono (hx : Shallowly ir x Q) (h : ∀ a ir', Q a ir' → R a ir') : Shallowly ir x R :=
  fun c a c' hc hrun hdepth => h a c'.ir (hx c a c' hc hrun hdepth)

theorem of_from (hx : From ir x Q) : Shallowly ir x Q := fun c a c' hc hrun _ => hx c a c' hc hrun

/-- The design is changed first. -/
theorem changed {f : Ir → Ir} {g : Unit → Compiling β} [∀ u, Telling (g u)]
    (h : Shallowly (f ir) (g ()) S) : Shallowly ir (Compiling.change f >>= g) S :=
  bind (Q := fun _ ir' => ir' = f ir) (.of_from (.change rfl)) fun _ _ he => he ▸ h

theorem nested (hx : Shallowly ir x Q) : Shallowly ir (nested x) Q := by
  intro c a c' hc hrun hdepth
  rw [Compiling.nested] at hrun
  split at hrun
  · rename_i b after heq
    obtain ⟨rfl, rfl⟩ := EStateM.Result.ok.inj hrun
    exact hx c.enter _ after hc heq hdepth
  · cases hrun

/-- A construct that is nested too deeply is reported. -/
theorem unlessTooDeep {x : Compiling (List ObjectId)} {Q : List ObjectId → Ir → Prop}
    (hx : Shallowly ir x Q) (component : String) (place : FilePlace) :
    Shallowly ir (unlessTooDeep component place x) Q := by
  refine nested fun c ids c' hc hrun hdepth => ?_
  change (if c.tooDeep then _ else x) c = _ at hrun
  split at hrun
  · obtain ⟨_, mid, hreport, hrun⟩ := Step.exists_of_bind hrun
    cases hrun
    have hmore := Compilation.depthReports_report c place
      s!"generate constructs of {component} nested too deeply"
    rw [hreport, Ending.state] at hmore
    omega
  · exact hx c ids c' hc hrun hdepth

/-- An object is added first. -/
theorem object {o : DesignObject} {f : ObjectId → Compiling β} [∀ id, Telling (f id)]
    (hf : ir.size < (ir.add o).2.size → Shallowly (ir.add o).2 (f ir.size) S) :
    Shallowly ir ((Compiling.onIr fun ir => ir.add o) >>= f) S := by
  refine bind (Q := fun id ir' => id = ir.size ∧ ir' = (ir.add o).2) (.of_from (.onIr ⟨rfl, rfl⟩))
    ?_
  rintro _ _ ⟨rfl, rfl⟩
  exact hf (by simp)

/-- A list is added first. -/
theorem list {f : ListId → Compiling β} [∀ l, Telling (f l)]
    (hf : Shallowly ir.addList.2 (f ir.lists.size) S) :
    Shallowly ir (Compiling.onIr Ir.addList >>= f) S := by
  refine bind (Q := fun l ir' => l = ir.lists.size ∧ ir' = ir.addList.2)
    (.of_from (.onIr ⟨rfl, rfl⟩)) ?_
  rintro _ _ ⟨rfl, rfl⟩
  exact hf

/-- A new object becomes a member of a list. -/
theorem push {f : Ir → ObjectId × Ir} {tree : DesignTree} {l : ListId}
    (h : ir.AddsTrees p [(f ir).1] [tree] (f ir).2) (hp : p < ir.size) (hl : l < ir.lists.size) :
    Shallowly ir (do
      let id ← Compiling.onIr f
      Compiling.change fun ir => ir.push l id) fun _ ir' => ir.FillsTrees p l [tree] ir' :=
  bind (Q := fun id ir' => ir.AddsTrees p [id] [tree] ir') (.of_from (.onIr h))
    fun _ _ h => .of_from (.change (h.push hp hl))

variable {parts parts' : List (PartRole × DesignTree)}
  {lists lists' : List (ListRole × List DesignTree)}

/-- Something is given to an object, and then more. -/
theorem give {x : Compiling Unit} {f : Unit → Compiling β} [Telling x] [∀ u, Telling (f u)]
    (hp : p < ir.size)
    (h : ir.GivesTrees p parts lists ir₁)
    (hx : p < ir₁.size → Shallowly ir₁ x fun _ ir' => ir₁.GivesTrees p parts' lists' ir')
    (hf : ∀ ir', p < ir'.size → ir.GivesTrees p (parts ++ parts') (lists ++ lists') ir' →
      Shallowly ir' (f ()) S) : Shallowly ir₁ (x >>= f) S := by
  refine (hx (Nat.lt_of_lt_of_le hp h.furnishes.grows.size_le)).bind fun _ ir' h' => ?_
  have h' := h.trans h' hp
  exact hf ir' (Nat.lt_of_lt_of_le hp h'.furnishes.grows.size_le) h'

end Shallowly

variable {ir : Ir} {p : ObjectId} {l : ListId}

theorem shallowly_addPart {e : Option Expr} (he : Expr.LocatedPart e) (hp : p < ir.size)
    (role : PartRole) : Shallowly ir (addPart p role e) fun _ ir' =>
      ir.GivesTrees p (partTrees role e) [] ir' :=
  .of_from (.change (Ir.givesTrees_addPart p role e he hp))

theorem shallowly_addCondition {e : Option Expr} (he : Expr.LocatedPart e) (hp : p < ir.size)
    (place : FilePlace) : Shallowly ir (addCondition p place e) fun _ ir' =>
      ir.GivesTrees p (partTrees .condition e) [] ir' := by
  cases e with
  | none => exact .of_from (.report (.refl p ir) _ _ _)
  | some e => exact shallowly_addPart he hp .condition

theorem shallowly_addLoopStep {s : LoopStep} (hs : s.Located) (hp : p < ir.size) :
    Shallowly ir (addLoopStep p s) fun _ ir' => ir.GivesTrees p s.trees [] ir' := by
  cases s with
  | assign operator left right range =>
    obtain ⟨hrange, hleft, hright⟩ := hs
    refine .object fun hin => ?_
    refine .give hin (.refl _ _) (shallowly_addPart hleft · _) fun ir₁ _ h₁ => ?_
    refine .give hin h₁ (shallowly_addPart hright · _) fun ir₂ _ h₂ => ?_
    have hadd := h₂.addsTrees hp rfl hrange rfl rfl
      (Ir.distinctRoles_sides (Expr.roles_partTrees _ _) (Expr.roles_partTrees _ _))
    exact .of_from (.change (hadd.setPart hp .increment))
  | malformed operator left place =>
    refine .give hp (.refl p ir) (fun _ => .of_from (.report (.refl p ir) _ _ _))
      fun ir₁ hin h₁ => ?_
    exact (shallowly_addPart hs hin .increment).mono fun _ _ h => h₁.trans h hp
  | expr e => exact shallowly_addPart hs hp .increment

/-- Adds the beginning of a loop, if there is one. -/
def addStart (loop : ObjectId) : Option LoopStart → Compiling Unit
  | none => pure ()
  | some s => change (Ir.addLoopStart loop s)

/-- Adds what a loop does after each turn, if that is said. -/
def addStep (loop : ObjectId) : Option LoopStep → Compiling Unit
  | none => pure ()
  | some s => addLoopStep loop s

instance (loop : ObjectId) (start : Option LoopStart) : Telling (addStart loop start) := by
  cases start <;> unfold addStart <;> infer_instance

instance (loop : ObjectId) (step : Option LoopStep) : Telling (addStep loop step) := by
  cases step <;> unfold addStep <;> infer_instance

theorem addConstruct_loop (component : String) (p : ObjectId) (place inner : FilePlace)
    (range : Option SourceRange) (start : Option LoopStart) (condition : Option Expr)
    (step : Option LoopStep) (body : Option GenerateBlock) :
    addConstruct component p (.loop place inner range start condition step body) =
      unlessTooDeep component place (do
        let id ← onIr fun ir => ir.add { kind := .generateFor, parent := some p, range }
        addStart id start
        addCondition id inner condition
        addStep id step
        addBody component id body
        return [id]) := by
  rw [addConstruct]
  cases start <;> cases step <;> rfl

theorem shallowly_addStart {start : Option LoopStart} (hs : ∀ s, start = some s → s.Located)
    (hp : p < ir.size) : Shallowly ir (addStart p start) fun _ ir' =>
      ir.GivesTrees p [] (LoopStart.loopTrees start) ir' := by
  cases start with
  | none => exact .pure (.refl p ir)
  | some s => exact .of_from (.change (Ir.givesTrees_addLoopStart (hs s rfl) hp))

theorem shallowly_addStep {step : Option LoopStep} (hs : ∀ s, step = some s → s.Located)
    (hp : p < ir.size) : Shallowly ir (addStep p step) fun _ ir' =>
      ir.GivesTrees p (LoopStep.loopTrees step) [] ir' := by
  cases step with
  | none => exact .pure (.refl p ir)
  | some s => exact shallowly_addLoopStep (hs s rfl) hp

/-- A block that a step adds below an object becomes its statement. -/
theorem shallowly_addStatement {block : Compiling ObjectId} [Telling block] {tree : DesignTree}
    (hp : p < ir.size) (hb : Shallowly ir block fun id ir' => ir.AddsTrees p [id] [tree] ir') :
    Shallowly ir (addStatement p block) fun _ ir' => ir.GivesTrees p [(.statement, tree)] [] ir' :=
  hb.bind fun _ _ h => .of_from (.change (h.setPart hp .statement))

/-- A block is given statements. -/
theorem shallowly_fillBlock {items : ListId → Compiling Unit} [∀ l, Telling (items l)]
    {block : ObjectId} {trees : List DesignTree} (hb : block < ir.size)
    (hi : ∀ l, ∀ ir : Ir, block < ir.size → l < ir.lists.size →
      Shallowly ir (items l) fun _ ir' => ir.FillsTrees block l trees ir') :
    Shallowly ir (fillBlock block items) fun _ ir' =>
      ir.GivesTrees block [] [(.statements, trees)] ir' :=
  .list ((hi _ ir.addList.2 hb (Ir.lt_lists_addList _)).nested.bind fun _ _ h =>
    .of_from (.change (h.setList hb .statements)))

mutual

/-- **A block** is added below its owner and read back as its tree. -/
theorem shallowly_addBlock (component : String) (p : ObjectId) : (b : GenerateBlock) → b.Located →
    ∀ {ir : Ir}, p < ir.size →
      Shallowly ir (addBlock component p b) fun id ir' => ir.AddsTrees p [id] [b.tree] ir'
  | .mk label range items, hb, ir, hp => by
    rw [addBlock]
    refine Shallowly.object fun hin => ?_
    refine (shallowly_fillBlock hin fun l ir' hin hl =>
      shallowly_addItems component _ l items hb.2 hin hl).bind fun _ _ h => .pure ?_
    exact h.addsTrees hp rfl hb.1 rfl rfl ⟨.nil, by simp⟩

/-- **The block of a construct** is given to the construct and read back as its tree. -/
theorem shallowly_addBody (component : String) (p : ObjectId) : (b : Option GenerateBlock) →
    GenerateBlock.LocatedBody b → ∀ {ir : Ir}, p < ir.size →
      Shallowly ir (addBody component p b) fun _ ir' =>
        ir.GivesTrees p (GenerateBlock.bodyTrees b) [] ir'
  | none, _, ir, _ => by
    rw [addBody]
    exact .pure (.refl p ir)
  | some body, hb, ir, hp => by
    rw [addBody]
    exact shallowly_addStatement hp (shallowly_addBlock component p body hb hp)

/-- **Items** fill a list of their owner and are read back as their trees. -/
theorem shallowly_addItems (component : String) (p : ObjectId) (l : ListId) :
    (items : List GenerateItem) → GenerateItem.LocatedAll items → ∀ {ir : Ir}, p < ir.size →
      l < ir.lists.size → Shallowly ir (addItems component p l items) fun _ ir' =>
        ir.FillsTrees p l (GenerateItem.allTrees items) ir'
  | [], _, ir, _, _ => by
    rw [addItems]
    exact .pure (.refl p l ir)
  | item :: items, hi, ir, hp, hl => by
    rw [addItems]
    refine (shallowly_addItem component p l item hi.1 hp hl).bind fun _ ir₁ h₁ => ?_
    have hgrows := h₁.fills.grows
    exact (shallowly_addItems component p l items hi.2 (Nat.lt_of_lt_of_le hp hgrows.size_le)
      (Nat.lt_of_lt_of_le hl hgrows.lists_le)).mono fun _ _ h => h₁.trans h hp hl

/-- **An item** fills a list of its owner and is read back as its trees. -/
theorem shallowly_addItem (component : String) (p : ObjectId) (l : ListId) :
    (item : GenerateItem) → item.Located → ∀ {ir : Ir}, p < ir.size → l < ir.lists.size →
      Shallowly ir (addItem component p l item) fun _ ir' => ir.FillsTrees p l item.trees ir'
  | .assign a, ha, ir, hp, hl => by
    rw [addItem]
    exact .push (Ir.addsTrees_addNetAssign ha hp) hp hl
  | .instantiate i, hi, ir, hp, hl => by
    rw [addItem]
    exact .push (Ir.addsTrees_addInstantiation hi hp) hp hl
  | .declare d, hd, ir, hp, hl => by
    rw [addItem]
    exact .push (Ir.addsTrees_addDeclared hd hp) hp hl
  | .splice items, hi, ir, hp, hl => by
    rw [addItem]
    refine .list ?_
    have hp' : p < ir.addList.2.size := hp
    exact (shallowly_addItems component p _ items hi hp' (Ir.lt_lists_addList _)).nested.bind
      fun _ _ h => .of_from (.change (h.splice hp hl))
  | .construct c, hc, ir, hp, hl => by
    rw [addItem]
    exact (shallowly_addConstruct component p c hc hp).bind
      fun _ _ h => .of_from (.change (h.pushAll hp hl))

/-- **Branches** fill a list of their construct and are read back as their trees. -/
theorem shallowly_addBranches (component : String) (p : ObjectId) (l : ListId) :
    (branches : List CaseBranch) → CaseBranch.LocatedAll branches → ∀ {ir : Ir}, p < ir.size →
      l < ir.lists.size → Shallowly ir (addBranches component p l branches) fun _ ir' =>
        ir.FillsTrees p l (CaseBranch.allTrees branches) ir'
  | [], _, ir, _, _ => by
    rw [addBranches]
    exact .pure (.refl p l ir)
  | branch :: branches, hb, ir, hp, hl => by
    rw [addBranches]
    refine (shallowly_addBranch component p l branch hb.1 hp hl).bind fun _ ir₁ h₁ => ?_
    have hgrows := h₁.fills.grows
    exact (shallowly_addBranches component p l branches hb.2
      (Nat.lt_of_lt_of_le hp hgrows.size_le) (Nat.lt_of_lt_of_le hl hgrows.lists_le)).mono
      fun _ _ h => h₁.trans h hp hl

/-- **A branch** fills a list of its construct and is read back as its tree. It is put there before
it is given anything itself. -/
theorem shallowly_addBranch (component : String) (p : ObjectId) (l : ListId) :
    (branch : CaseBranch) → branch.Located → ∀ {ir : Ir}, p < ir.size → l < ir.lists.size →
      Shallowly ir (addBranch component p l branch) fun _ ir' =>
        ir.FillsTrees p l [branch.tree] ir'
  | .mk values range body, ⟨hrange, hvalues, hbody⟩, ir, hp, hl => by
    rw [addBranch]
    refine .object fun hin => ?_
    let item : DesignObject := { kind := .caseItem, parent := some p, range }
    have hin : ir.size < ((ir.add item).2.push l ir.size).size := hin
    refine .changed (.list (.changed ?_))
    have hmatches := Ir.FillsTrees.ofSetList .matches
      (Ir.fillsTrees_addMembers ir.size _ values hvalues (by simp) (Ir.lt_lists_setList _ _ _)) hin
    refine (shallowly_addBody component _ body hbody
      (Nat.lt_of_lt_of_le hin hmatches.furnishes.grows.size_le)).mono fun _ _ h => ?_
    exact (hmatches.trans h hin).inList hp hl rfl hrange rfl rfl
      ⟨(GenerateBlock.roles_bodyTrees body).nodup (by simp), by simp⟩

/-- **A construct** is added below its owner and read back as its tree. -/
theorem shallowly_addConstruct (component : String) (p : ObjectId) :
    (c : GenerateConstruct) → c.Located → ∀ {ir : Ir}, p < ir.size →
      Shallowly ir (addConstruct component p c) fun ids ir' => ir.AddsTrees p ids c.trees ir'
  | .region place range (.mk label blockRange items), ⟨hrange, hblock, hitems⟩, ir, hp => by
    rw [addConstruct]
    refine .unlessTooDeep (.object fun hin => .object fun hblock' => ?_) _ _
    let block : DesignObject :=
      { kind := .block, name := label, parent := some ir.size, range := blockRange }
    refine .changed ?_
    refine (shallowly_fillBlock (by simp) fun l ir' hin hl =>
      shallowly_addItems component _ l items hitems hin hl).bind fun _ _ h => .pure ?_
    have hstatement := Ir.GivesTrees.inRole (o := block) h hin rfl hblock rfl rfl ⟨.nil, by simp⟩
    exact hstatement.addsTrees hp rfl hrange rfl rfl ⟨by simp, .nil⟩
  | .ifElse place inner range condition yes no, ⟨hrange, hcondition, hyes, hno⟩, ir, hp => by
    rw [addConstruct]
    refine .unlessTooDeep (.object fun hin => ?_) _ _
    refine .give hin (.refl _ _) (shallowly_addCondition hcondition · _) fun ir₁ hin₁ h₁ => ?_
    refine .give hin h₁ (fun hin => shallowly_addStatement hin
      (shallowly_addBlock component _ yes hyes hin)) fun ir₂ hin₂ h₂ => ?_
    refine (shallowly_addBlock component _ no hno hin₂).bind fun _ ir₃ h₃ => .changed (.pure ?_)
    refine (h₂.trans (h₃.setPart hin₂ .elseStatement) hin).addsTrees hp rfl hrange rfl rfl
      (.of_sublist ?_ (List.nil_sublist [])
        (by decide : [PartRole.condition, .statement, .elseStatement].Nodup) .nil)
    rw [List.map_append, List.map_append]
    exact ((Expr.roles_partTrees .condition condition).append (.refl _)).append (.refl _)
  | .ifOnly place inner range shape condition body, ⟨hrange, hcondition, hbody⟩, ir, hp => by
    rw [addConstruct]
    have hrest : Shallowly ir (do
        let id ← onIr fun ir => ir.add { kind := .generateIf, parent := some p, range }
        addCondition id inner condition
        addStatement id (addBlock component id body)
        return [id]) fun ids ir' =>
          ir.AddsTrees p ids (GenerateConstruct.ifOnly place inner range shape condition body).trees
            ir' := by
      refine .object fun hin => ?_
      refine .give hin (.refl _ _) (shallowly_addCondition hcondition · _) fun ir₁ hin₁ h₁ => ?_
      refine .give hin h₁ (fun hin => shallowly_addStatement hin
        (shallowly_addBlock component _ body hbody hin)) fun ir₂ _ h₂ => .pure ?_
      refine h₂.addsTrees hp rfl hrange rfl rfl (.of_sublist ?_ (List.nil_sublist [])
        (by decide : [PartRole.condition, .statement].Nodup) .nil)
      rw [List.map_append]
      exact (Expr.roles_partTrees .condition condition).append (.refl _)
    refine .unlessTooDeep ?_ _ _
    dsimp only
    split
    · refine .bind (Q := fun _ ir' => ir' = ir) (.of_from (.report rfl _ _ _)) ?_
      rintro _ _ rfl
      exact hrest
    · exact hrest
  | .choice place inner range selector branches, ⟨hrange, hselector, hbranches⟩, ir, hp => by
    rw [addConstruct]
    refine .unlessTooDeep (.object fun hin => ?_) _ _
    refine .give hin (.refl _ _) (shallowly_addCondition hselector · _) fun ir₁ hin₁ h₁ => ?_
    refine .list (.changed ?_)
    refine (shallowly_addBranches component _ _ branches hbranches (by simpa using hin₁)
      (Ir.lt_lists_setList _ _ _)).bind fun _ _ h => .pure ?_
    have hall := h₁.trans (h.ofSetList .items hin₁) hin
    rw [List.append_nil] at hall
    exact hall.addsTrees hp rfl hrange rfl rfl
      ⟨(Expr.roles_partTrees .condition selector).nodup (by simp), by simp⟩
  | .loop place inner range start condition step body,
    ⟨hrange, hstart, hcondition, hstep, hbody⟩, ir, hp => by
    rw [addConstruct_loop]
    refine .unlessTooDeep (.object fun hin => ?_) _ _
    refine .give hin (.refl _ _) (shallowly_addStart hstart ·) fun ir₁ hin₁ h₁ => ?_
    refine .give hin h₁ (shallowly_addCondition hcondition · _) fun ir₂ hin₂ h₂ => ?_
    refine .give hin h₂ (shallowly_addStep hstep ·) fun ir₃ hin₃ h₃ => ?_
    refine .give hin h₃ (shallowly_addBody component _ body hbody ·) fun ir₄ _ h₄ => .pure ?_
    simp only [List.nil_append, List.append_nil] at h₄
    refine h₄.addsTrees hp rfl hrange rfl rfl (.of_sublist ?_ (LoopStart.roles_loopTrees start)
      (by decide : [PartRole.condition, .increment, .statement].Nodup) (by simp))
    rw [List.map_append, List.map_append]
    exact ((Expr.roles_partTrees .condition condition).append
      (LoopStep.roles_loopTrees step)).append
      (GenerateBlock.roles_bodyTrees body)
  | .unsupported place kind, _, ir, hp => by
    rw [addConstruct]
    refine .unlessTooDeep ?_ _ _
    exact (Shallowly.of_from (.report (Q := fun _ ir' => ir.AddsTrees p [] [] ir')
      (.nil ir p) _ _ _)).bind fun _ _ h => .pure h

end

end Compiling

end Verilog
