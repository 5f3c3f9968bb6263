import Verilog.Generate.Compile
import Verilog.Proofs.Ir.Added
import Verilog.Proofs.Session

/-!
# The objects of generate constructs

What compiles a part of a generate construct is a program of one of the three forms in which a
design grows, as long as everything in the construct has a place: a construct and a block add
objects below their owner, a condition, a step or a body furnishes its owner, and items and branches
fill a list. So one statement is made for each function, along the recursion over constructs.

Programs may stop, at the first error; nothing is said of how a design looks then.
-/

namespace Verilog

/-! ### Places -/

namespace NetAssign

/-- Has an assignment a place, and everything in it? -/
def Located (a : NetAssign) : Prop :=
  a.range.isSome ∧ Expr.LocatedPart a.left ∧ Expr.LocatedPart a.right

end NetAssign

/-- Has the beginning of a loop a place, and everything in it? -/
def LoopStart.Located (s : LoopStart) : Prop :=
  s.range.isSome ∧ (∀ v, s.variable_ = some v → v.range.isSome) ∧ Expr.LocatedPart s.value

/-- Has what a loop does after each turn a place, and everything in it? -/
def LoopStep.Located : LoopStep → Prop
  | assign _ left right range => range.isSome ∧ Expr.LocatedPart left ∧ Expr.LocatedPart right
  | malformed _ left _ => Expr.LocatedPart left
  | expr e => Expr.LocatedPart e

mutual

/-- Has a block a place, and everything in it? -/
def GenerateBlock.Located : GenerateBlock → Prop
  | .mk _ range items => range.isSome ∧ GenerateItem.LocatedAll items

/-- `Located` for a block that may be missing. -/
def GenerateBlock.LocatedBody : Option GenerateBlock → Prop
  | none => True
  | some body => body.Located

/-- Has a branch a place, and everything in it? -/
def CaseBranch.Located : CaseBranch → Prop
  | .mk values range body =>
    range.isSome ∧ Expr.LocatedAll values ∧ GenerateBlock.LocatedBody body

/-- `Located` for each of a list of branches. -/
def CaseBranch.LocatedAll : List CaseBranch → Prop
  | [] => True
  | branch :: branches => branch.Located ∧ CaseBranch.LocatedAll branches

/-- Has an item a place, and everything in it? -/
def GenerateItem.Located : GenerateItem → Prop
  | .assign a => a.Located
  | .instantiate i => i.range.isSome
  | .declare d => d.range.isSome
  | .splice items => GenerateItem.LocatedAll items
  | .construct c => c.Located

/-- `Located` for each of a list of items. -/
def GenerateItem.LocatedAll : List GenerateItem → Prop
  | [] => True
  | item :: items => item.Located ∧ GenerateItem.LocatedAll items

/-- Has a construct a place, and everything in it? -/
def GenerateConstruct.Located : GenerateConstruct → Prop
  | .region _ range body => range.isSome ∧ body.Located
  | .ifElse _ _ range condition yes no =>
    range.isSome ∧ Expr.LocatedPart condition ∧ yes.Located ∧ no.Located
  | .ifOnly _ _ range _ condition body =>
    range.isSome ∧ Expr.LocatedPart condition ∧ body.Located
  | .choice _ _ range selector branches =>
    range.isSome ∧ Expr.LocatedPart selector ∧ CaseBranch.LocatedAll branches
  | .loop _ _ range start condition step body =>
    range.isSome ∧ (∀ s, start = some s → s.Located) ∧ Expr.LocatedPart condition ∧
      (∀ s, step = some s → s.Located) ∧ GenerateBlock.LocatedBody body
  | .unsupported _ _ => True

end

theorem GenerateItem.locatedAll_iff {items : List GenerateItem} :
    GenerateItem.LocatedAll items ↔ ∀ item ∈ items, item.Located := by
  induction items with
  | nil => simp [GenerateItem.LocatedAll]
  | cons item items ih => simp [GenerateItem.LocatedAll, ih]

theorem CaseBranch.locatedAll_iff {branches : List CaseBranch} :
    CaseBranch.LocatedAll branches ↔ ∀ branch ∈ branches, branch.Located := by
  induction branches with
  | nil => simp [CaseBranch.LocatedAll]
  | cons branch branches ih => simp [CaseBranch.LocatedAll, ih]

theorem GenerateBlock.locatedBody_iff {body : Option GenerateBlock} :
    GenerateBlock.LocatedBody body ↔ ∀ b, body = some b → b.Located := by
  cases body <;> simp [GenerateBlock.LocatedBody]

/-! ### Steps on a design -/

namespace Ir

variable {ir : Ir} {p : ObjectId}

theorem addsBelow_addNetAssign {a : NetAssign} (ha : a.Located) (hp : p < ir.size) :
    AddsBelow p ir [(ir.addNetAssign p a).1] (ir.addNetAssign p a).2 := by
  let o : DesignObject := { kind := .continuousAssign, parent := some p, range := a.range }
  have hin : ir.size < (ir.add o).2.size := by simp
  have hleft := furnishes_addPart ir.size .left a.left ha.2.1 hin
  have hright := furnishes_addPart ir.size .right a.right ha.2.2
    (Nat.lt_of_lt_of_le hin hleft.grows.size_le)
  exact (hleft.trans hright).addsBelow hp rfl ha.1 rfl rfl

theorem addsBelow_addNetAssigns {as : List NetAssign} (has : ∀ a ∈ as, a.Located)
    (hp : p < ir.size) : AddsBelow p ir (addNetAssigns p as ir).1 (addNetAssigns p as ir).2 := by
  induction as generalizing ir with
  | nil => exact .nil ir p
  | cons a as ih =>
    rw [List.forall_mem_cons] at has
    have hhead := addsBelow_addNetAssign has.1 hp
    exact hhead.append (ih has.2 (Nat.lt_of_lt_of_le hp hhead.grows.size_le))

theorem addsBelow_add {o : DesignObject} (hp : p < ir.size) (hparent : o.parent = some p)
    (hrange : o.range.isSome) (hparts : o.parts = []) (hlists : o.lists = []) :
    AddsBelow p ir [ir.size] (ir.add o).2 :=
  (Furnishes.refl ir.size _).addsBelow hp hparent hrange hparts hlists

theorem addsBelow_addInstantiation {i : Instantiation} (hi : i.range.isSome) (hp : p < ir.size) :
    AddsBelow p ir [(ir.addInstantiation p i).1] (ir.addInstantiation p i).2 :=
  addsBelow_add hp rfl hi rfl rfl

theorem addsBelow_addDeclared {d : DeclaredName} (hd : d.range.isSome) (hp : p < ir.size) :
    AddsBelow p ir [(ir.addDeclared p d).1] (ir.addDeclared p d).2 :=
  addsBelow_add hp rfl hd rfl rfl

/-- The beginning of a loop is the only member of a list of the loop. -/
theorem furnishes_addLoopStart {s : LoopStart} (hs : s.Located) (hp : p < ir.size) :
    Furnishes p ir (ir.addLoopStart p s) := by
  obtain ⟨hrange, hvariable, hvalue⟩ := hs
  let o : DesignObject := { kind := .assignment, parent := some p, range := s.range }
  have hin : ir.size < (ir.add o).2.size := by simp
  obtain ⟨ir₁, hir₁, hleft⟩ : ∃ ir₁, ir₁ = (s.variable_.elim (ir.add o).2 fun v =>
      ((ir.add o).2.addDeclared ir.size v).2.setPart ir.size .left
        ((ir.add o).2.addDeclared ir.size v).1) ∧ Furnishes ir.size (ir.add o).2 ir₁ := by
    refine ⟨_, rfl, ?_⟩
    cases hv : s.variable_ with
    | none => exact .refl _ _
    | some v => exact (addsBelow_addDeclared (hvariable v hv) hin).setPart hin .left
  have hright := furnishes_addPart ir.size .right s.value hvalue
    (Nat.lt_of_lt_of_le hin hleft.grows.size_le)
  have hadd : AddsBelow p ir [ir.size] (addPart ir.size .right s.value ir₁) :=
    (hleft.trans hright).addsBelow hp rfl hrange rfl rfl
  have heq : ir.addLoopStart p s = ((addPart ir.size .right s.value ir₁).addListOf
    [ir.size]).2.setList
      p .inits ((addPart ir.size .right s.value ir₁).addListOf [ir.size]).1 := by
    rw [hir₁, addLoopStart]
    cases s.variable_ <;> rfl
  rw [heq]
  exact hadd.setListOf hp .inits

end Ir

/-! ### Programs -/

namespace Compiling

/-- **What a program makes of a design**, if it comes to an end. -/
def From {α : Type} (ir : Ir) (x : Compiling α) (Q : α → Ir → Prop) : Prop :=
  ∀ c a c', c.ir = ir → x c = .ok a c' → Q a c'.ir

namespace From

variable {α β : Type} {ir ir₁ : Ir} {p : ObjectId} {x : Compiling α} {Q R : α → Ir → Prop}
  {S : β → Ir → Prop}

theorem pure {a : α} (h : Q a ir) : From ir (pure a) Q := by
  rintro c a' c' rfl hrun
  cases hrun
  exact h

theorem bind {f : α → Compiling β} (hx : From ir x Q)
    (hf : ∀ a ir', Q a ir' → From ir' (f a) S) : From ir (x >>= f) S := by
  intro c b c' hc hrun
  obtain ⟨a, mid, hmid, hrun⟩ := Step.exists_of_bind hrun
  exact hf a mid.ir (hx c a mid hc hmid) mid b c' rfl hrun

theorem mono (hx : From ir x Q) (h : ∀ a ir', Q a ir' → R a ir') : From ir x R :=
  fun c a c' hc hrun => h a c'.ir (hx c a c' hc hrun)

theorem onIr {f : Ir → α × Ir} (h : Q (f ir).1 (f ir).2) : From ir (onIr f) Q := by
  rintro c a c' rfl hrun
  cases hrun
  exact h

theorem change {f : Ir → Ir} {Q : Unit → Ir → Prop} (h : Q () (f ir)) : From ir (change f) Q := by
  rintro c a c' rfl hrun
  cases hrun
  exact h

/-- The design is changed first. -/
theorem changed {f : Ir → Ir} {g : Unit → Compiling β} (h : From (f ir) (g ()) S) :
    From ir (Compiling.change f >>= g) S :=
  bind (Q := fun _ ir' => ir' = f ir) (change rfl) fun _ _ he => he ▸ h

theorem report {Q : Unit → Ir → Prop} (h : Q () ir) (kind : DiagnosticKind) (place : FilePlace)
    (message : String) : From ir (report kind place message) Q := by
  intro c a c' hc hrun
  rw [Compiling.report, Step.onPart] at hrun
  split at hrun
  · cases hrun
    exact hc ▸ h
  · cases hrun

theorem get_bind {f : Compilation → Compiling α} (h : ∀ c, From ir (f c) Q) :
    From ir (get >>= f) Q := fun c a c' hc hrun => h c c a c' hc hrun

theorem nested (hx : From ir x Q) : From ir (nested x) Q := by
  intro c a c' hc hrun
  rw [Compiling.nested] at hrun
  split at hrun
  · rename_i b after heq
    obtain ⟨rfl, rfl⟩ := EStateM.Result.ok.inj hrun
    exact hx c.enter _ after hc heq
  · cases hrun

/-- A construct that is nested too deeply is left out. -/
theorem unlessTooDeep {x : Compiling (List ObjectId)} {Q : List ObjectId → Ir → Prop}
    (hnone : Q [] ir) (hx : From ir x Q) (component : String) (place : FilePlace) :
    From ir (unlessTooDeep component place x) Q := by
  refine nested (get_bind fun c => ?_)
  split
  · exact (report (Q := fun _ ir' => Q [] ir') hnone _ _ _).bind fun _ _ h => .pure h
  · exact hx

/-- An object is added first. -/
theorem object {o : DesignObject} {f : ObjectId → Compiling β}
    (hf : ir.size < (ir.add o).2.size → From (ir.add o).2 (f ir.size) S) :
    From ir ((Compiling.onIr fun ir => ir.add o) >>= f) S := by
  refine bind (Q := fun id ir' => id = ir.size ∧ ir' = (ir.add o).2) (onIr ⟨rfl, rfl⟩) ?_
  rintro _ _ ⟨rfl, rfl⟩
  exact hf (by simp)

/-- A list is added first. -/
theorem list {f : ListId → Compiling β} (hf : From ir.addList.2 (f ir.lists.size) S) :
    From ir (Compiling.onIr Ir.addList >>= f) S := by
  refine bind (Q := fun l ir' => l = ir.lists.size ∧ ir' = ir.addList.2) (onIr ⟨rfl, rfl⟩) ?_
  rintro _ _ ⟨rfl, rfl⟩
  exact hf

/-- A new object becomes a member of a list. -/
theorem push {f : Ir → ObjectId × Ir} (h : ir.AddsBelow p [(f ir).1] (f ir).2) (hp : p < ir.size)
    (l : ListId) : From ir (do
      let id ← Compiling.onIr f
      Compiling.change fun ir => ir.push l id) fun _ ir' => ir.Fills p l ir' :=
  bind (Q := fun id ir' => ir.AddsBelow p [id] ir') (onIr h) fun _ _ h => change (h.push hp l)

/-- Something is given to an object, and then more. -/
theorem furnish {x : Compiling Unit} {f : Unit → Compiling β} (hp : p < ir.size)
    (h : ir.Furnishes p ir₁) (hx : p < ir₁.size → From ir₁ x fun _ ir' => ir₁.Furnishes p ir')
    (hf : ∀ ir', p < ir'.size → ir.Furnishes p ir' → From ir' (f ()) S) :
    From ir₁ (x >>= f) S := by
  refine (hx (Nat.lt_of_lt_of_le hp h.grows.size_le)).bind fun _ ir' h' => ?_
  have h' := h.trans h'
  exact hf ir' (Nat.lt_of_lt_of_le hp h'.grows.size_le) h'

end From

variable {ir : Ir} {p : ObjectId}

theorem from_addPart {e : Option Expr} (he : Expr.LocatedPart e) (hp : p < ir.size)
    (role : PartRole) : From ir (addPart p role e) fun _ ir' => ir.Furnishes p ir' :=
  .change (Ir.furnishes_addPart p role e he hp)

theorem from_addCondition {e : Option Expr} (he : Expr.LocatedPart e) (hp : p < ir.size)
    (place : FilePlace) : From ir (addCondition p place e) fun _ ir' => ir.Furnishes p ir' := by
  cases e with
  | none => exact .report (.refl p ir) _ _ _
  | some e => exact from_addPart he hp .condition

theorem from_addLoopStep {s : LoopStep} (hs : s.Located) (hp : p < ir.size) :
    From ir (addLoopStep p s) fun _ ir' => ir.Furnishes p ir' := by
  cases s with
  | assign operator left right range =>
    obtain ⟨hrange, hleft, hright⟩ := hs
    refine .object fun hin => ?_
    refine .furnish hin (.refl _ _) (from_addPart hleft · _) fun ir₁ _ h₁ => ?_
    refine .furnish hin h₁ (from_addPart hright · _) fun ir₂ _ h₂ => ?_
    exact .change ((h₂.addsBelow hp rfl hrange rfl rfl).setPart hp .increment)
  | malformed operator left place =>
    refine .furnish hp (.refl p ir) (fun _ => .report (.refl p ir) _ _ _) fun ir₁ hin h₁ => ?_
    exact (from_addPart hs hin .increment).mono fun _ _ h => h₁.trans h
  | expr e => exact from_addPart hs hp .increment

/-- A block that a step adds below an object becomes its statement. -/
theorem from_addStatement {block : Compiling ObjectId} (hp : p < ir.size)
    (hb : From ir block fun id ir' => ir.AddsBelow p [id] ir') :
    From ir (addStatement p block) fun _ ir' => ir.Furnishes p ir' :=
  hb.bind fun _ _ h => .change (h.setPart hp .statement)

/-- A block is given statements. -/
theorem from_fillBlock {items : ListId → Compiling Unit} {block : ObjectId} (hb : block < ir.size)
    (hi : ∀ l, ∀ ir : Ir, block < ir.size → From ir (items l) fun _ ir' => ir.Fills block l ir') :
    From ir (fillBlock block items) fun _ ir' => ir.Furnishes block ir' :=
  .list ((hi _ ir.addList.2 hb).nested.bind fun _ _ h => .change (h.setList .statements))

mutual

/-- **A block** is added below its owner. -/
theorem from_addBlock (component : String) (p : ObjectId) : (b : GenerateBlock) → b.Located →
    ∀ {ir : Ir}, p < ir.size →
      From ir (addBlock component p b) fun id ir' => ir.AddsBelow p [id] ir'
  | .mk label range items, hb, ir, hp => by
    rw [addBlock]
    refine From.object fun hin => ?_
    refine (from_fillBlock hin fun l ir' hin => from_addItems component _ l items hb.2 hin).bind
      fun _ _ h => .pure (h.addsBelow hp rfl hb.1 rfl rfl)

/-- **The block of a construct** furnishes the construct. -/
theorem from_addBody (component : String) (p : ObjectId) : (b : Option GenerateBlock) →
    GenerateBlock.LocatedBody b → ∀ {ir : Ir}, p < ir.size →
      From ir (addBody component p b) fun _ ir' => ir.Furnishes p ir'
  | none, _, ir, _ => by
    rw [addBody]
    exact .pure (.refl p ir)
  | some body, hb, ir, hp => by
    rw [addBody]
    exact from_addStatement hp (from_addBlock component p body hb hp)

/-- **Items** fill a list of their owner. -/
theorem from_addItems (component : String) (p : ObjectId) (l : ListId) :
    (items : List GenerateItem) → GenerateItem.LocatedAll items → ∀ {ir : Ir}, p < ir.size →
      From ir (addItems component p l items) fun _ ir' => ir.Fills p l ir'
  | [], _, ir, _ => by
    rw [addItems]
    exact .pure (.refl p l ir)
  | item :: items, hi, ir, hp => by
    rw [addItems]
    refine (from_addItem component p l item hi.1 hp).bind fun _ ir₁ h₁ => ?_
    exact (from_addItems component p l items hi.2 (Nat.lt_of_lt_of_le hp h₁.grows.size_le)).mono
      fun _ _ h => h₁.trans h hp

/-- **An item** fills a list of its owner. -/
theorem from_addItem (component : String) (p : ObjectId) (l : ListId) :
    (item : GenerateItem) → item.Located → ∀ {ir : Ir}, p < ir.size →
      From ir (addItem component p l item) fun _ ir' => ir.Fills p l ir'
  | .assign a, ha, ir, hp => by
    rw [addItem]
    exact .push (Ir.addsBelow_addNetAssign ha hp) hp l
  | .instantiate i, hi, ir, hp => by
    rw [addItem]
    exact .push (Ir.addsBelow_addInstantiation hi hp) hp l
  | .declare d, hd, ir, hp => by
    rw [addItem]
    exact .push (Ir.addsBelow_addDeclared hd hp) hp l
  | .splice items, hi, ir, hp => by
    rw [addItem]
    refine .list ?_
    have hp' : p < ir.addList.2.size := hp
    exact (from_addItems component p _ items hi hp').nested.bind
      fun _ _ h => .change (h.splice hp l)
  | .construct c, hc, ir, hp => by
    rw [addItem]
    exact (from_addConstruct component p c hc hp).bind fun _ _ h => .change (h.pushAll hp l)

/-- **Branches** fill a list of their construct. -/
theorem from_addBranches (component : String) (p : ObjectId) (l : ListId) :
    (branches : List CaseBranch) → CaseBranch.LocatedAll branches → ∀ {ir : Ir}, p < ir.size →
      From ir (addBranches component p l branches) fun _ ir' => ir.Fills p l ir'
  | [], _, ir, _ => by
    rw [addBranches]
    exact .pure (.refl p l ir)
  | branch :: branches, hb, ir, hp => by
    rw [addBranches]
    refine (from_addBranch component p l branch hb.1 hp).bind fun _ ir₁ h₁ => ?_
    exact (from_addBranches component p l branches hb.2
      (Nat.lt_of_lt_of_le hp h₁.grows.size_le)).mono fun _ _ h => h₁.trans h hp

/-- **A branch** fills a list of its construct. It is put there before it is furnished itself. -/
theorem from_addBranch (component : String) (p : ObjectId) (l : ListId) :
    (branch : CaseBranch) → branch.Located → ∀ {ir : Ir}, p < ir.size →
      From ir (addBranch component p l branch) fun _ ir' => ir.Fills p l ir'
  | .mk values range body, ⟨hrange, hvalues, hbody⟩, ir, hp => by
    rw [addBranch]
    refine .object fun hin => ?_
    let item : DesignObject := { kind := .caseItem, parent := some p, range }
    have hitem : ir.Fills p l ((ir.add item).2.push l ir.size) :=
      (Ir.addsBelow_add (o := item) hp rfl hrange rfl rfl).push hp l
    have hin : ir.size < ((ir.add item).2.push l ir.size).size := hin
    refine .changed (.list (.changed ?_))
    have hmatches := Ir.Fills.ofSetList .matches
      (Ir.fills_addMembers ir.size _ values hvalues (by simp)) hin
    refine (from_addBody component _ body hbody
      (Nat.lt_of_lt_of_le hin hmatches.grows.size_le)).mono fun _ _ h => ?_
    exact hitem.transNew (hmatches.trans h) (Nat.le_refl _)

/-- **A construct** is added below its owner, or left out. -/
theorem from_addConstruct (component : String) (p : ObjectId) :
    (c : GenerateConstruct) → c.Located → ∀ {ir : Ir}, p < ir.size →
      From ir (addConstruct component p c) fun ids ir' => ir.AddsBelow p ids ir'
  | .region place range (.mk label blockRange items), ⟨hrange, hblock, hitems⟩, ir, hp => by
    rw [addConstruct]
    refine .unlessTooDeep (.nil ir p) (.object fun hin => .object fun hblock' => ?_) _ _
    let block : DesignObject :=
      { kind := .block, name := label, parent := some ir.size, range := blockRange }
    have hstatement := (Ir.addsBelow_add (o := block) hin rfl hblock rfl rfl).setPart hin .statement
    refine .changed ?_
    refine (from_fillBlock (by simp) fun l ir' hin =>
      from_addItems component _ l items hitems hin).bind fun _ _ h => .pure ?_
    exact (hstatement.transNew h (by simp)).addsBelow hp rfl hrange rfl rfl
  | .ifElse place inner range condition yes no, ⟨hrange, hcondition, hyes, hno⟩, ir, hp => by
    rw [addConstruct]
    refine .unlessTooDeep (.nil ir p) (.object fun hin => ?_) _ _
    refine .furnish hin (.refl _ _) (from_addCondition hcondition · _) fun ir₁ hin₁ h₁ => ?_
    refine .furnish hin h₁ (fun hin => from_addStatement hin
      (from_addBlock component _ yes hyes hin))
      fun ir₂ hin₂ h₂ => ?_
    refine (from_addBlock component _ no hno hin₂).bind fun _ ir₃ h₃ => ?_
    exact .changed (.pure ((h₂.trans (h₃.setPart hin₂ .elseStatement)).addsBelow hp rfl hrange rfl
      rfl))
  | .ifOnly place inner range shape condition body, ⟨hrange, hcondition, hbody⟩, ir, hp => by
    rw [addConstruct]
    have hrest : From ir (do
        let id ← onIr fun ir => ir.add { kind := .generateIf, parent := some p, range }
        addCondition id inner condition
        addStatement id (addBlock component id body)
        return [id]) fun ids ir' => ir.AddsBelow p ids ir' := by
      refine .object fun hin => ?_
      refine .furnish hin (.refl _ _) (from_addCondition hcondition · _) fun ir₁ hin₁ h₁ => ?_
      refine .furnish hin h₁
        (fun hin => from_addStatement hin (from_addBlock component _ body hbody hin)) fun ir₂ _
        h₂ => ?_
      exact .pure (h₂.addsBelow hp rfl hrange rfl rfl)
    refine .unlessTooDeep (.nil ir p) ?_ _ _
    dsimp only
    split
    · refine .bind (Q := fun _ ir' => ir' = ir) (.report rfl _ _ _) ?_
      rintro _ _ rfl
      exact hrest
    · exact hrest
  | .choice place inner range selector branches, ⟨hrange, hselector, hbranches⟩, ir, hp => by
    rw [addConstruct]
    refine .unlessTooDeep (.nil ir p) (.object fun hin => ?_) _ _
    refine .furnish hin (.refl _ _) (from_addCondition hselector · _) fun ir₁ hin₁ h₁ => ?_
    refine .list (.changed ?_)
    refine (from_addBranches component _ _ branches hbranches (by simpa using hin₁)).bind
      fun _ _ h => .pure ?_
    exact (h₁.trans (h.ofSetList .items hin₁)).addsBelow hp rfl hrange rfl rfl
  | .loop place inner range start condition step body,
    ⟨hrange, hstart, hcondition, hstep, hbody⟩, ir, hp => by
    rw [addConstruct]
    refine .unlessTooDeep (.nil ir p) (.object fun hin => ?_) _ _
    let loop : DesignObject := { kind := .generateFor, parent := some p, range }
    have hlast {ir₃ : Ir} (h : (ir.add loop).2.Furnishes ir.size ir₃) : From ir₃ (do
        addBody component ir.size body
        return [ir.size]) fun ids ir' => ir.AddsBelow p ids ir' :=
      .furnish hin h (from_addBody component _ body hbody ·) fun _ _ h =>
        .pure (h.addsBelow hp rfl hrange rfl rfl)
    have hrest {ir₁ : Ir} (h : (ir.add loop).2.Furnishes ir.size ir₁) : From ir₁ (do
        addCondition ir.size inner condition
        match step with
        | some s => addLoopStep ir.size s
        | none => pure ()
        addBody component ir.size body
        return [ir.size]) fun ids ir' => ir.AddsBelow p ids ir' := by
      refine .furnish hin h (from_addCondition hcondition · _) fun ir₂ _ h₂ => ?_
      cases step with
      | none => exact hlast h₂
      | some s => exact .furnish hin h₂ (from_addLoopStep (hstep s rfl) ·) fun _ _ h => hlast h
    cases start with
    | none => exact hrest (.refl _ _)
    | some s => exact .changed (hrest (Ir.furnishes_addLoopStart (hstart s rfl) hin))
  | .unsupported place kind, _, ir, hp => by
    rw [addConstruct]
    exact .unlessTooDeep (.nil ir p)
      ((From.report (.nil ir p) _ _ _).bind fun _ _ h => .pure h) _ _

end

end Compiling

end Verilog
