import Verilog.Proofs.Generate.Lower

/-!
# Constructs that lack nothing

A construct that lacks no condition and no part is compiled without a report, unless constructs are
nested too deeply (`Compiling.onlyDeep_addConstruct`). So the depth is all that can stop it.
-/

namespace Verilog

/-! ### Whole constructs -/

/-- Is a step of a loop one that is compiled as it stands? -/
def LoopStep.Whole : LoopStep → Prop
  | assign .. | expr _ => True
  | malformed .. => False

mutual

/-- Does a block hold nothing that lacks anything? -/
def GenerateBlock.Whole : GenerateBlock → Prop
  | .mk _ _ items => GenerateItem.WholeAll items

/-- `Whole` for a block that may be missing. -/
def GenerateBlock.WholeBody : Option GenerateBlock → Prop
  | none => True
  | some body => body.Whole

/-- Does a branch hold nothing that lacks anything? -/
def CaseBranch.Whole : CaseBranch → Prop
  | .mk _ _ body => GenerateBlock.WholeBody body

/-- `Whole` for each of a list of branches. -/
def CaseBranch.WholeAll : List CaseBranch → Prop
  | [] => True
  | branch :: branches => branch.Whole ∧ CaseBranch.WholeAll branches

/-- Does an item hold nothing that lacks anything? -/
def GenerateItem.Whole : GenerateItem → Prop
  | .assign _ | .instantiate _ | .declare _ => True
  | .splice items => GenerateItem.WholeAll items
  | .construct c => c.Whole

/-- `Whole` for each of a list of items. -/
def GenerateItem.WholeAll : List GenerateItem → Prop
  | [] => True
  | item :: items => item.Whole ∧ GenerateItem.WholeAll items

/-- **Does a construct lack nothing**, neither itself nor in its blocks? -/
def GenerateConstruct.Whole : GenerateConstruct → Prop
  | .region _ _ body => body.Whole
  | .ifElse _ _ _ condition yes no => condition.isSome ∧ yes.Whole ∧ no.Whole
  | .ifOnly _ _ _ shape condition body => shape = .complete ∧ condition.isSome ∧ body.Whole
  | .choice _ _ _ selector branches => selector.isSome ∧ CaseBranch.WholeAll branches
  | .loop _ _ _ _ condition step body =>
    condition.isSome ∧ (∀ s, step = some s → s.Whole) ∧ GenerateBlock.WholeBody body
  | .unsupported .. => False

end

theorem GenerateItem.wholeAll_iff {items : List GenerateItem} :
    GenerateItem.WholeAll items ↔ ∀ item ∈ items, item.Whole := by
  induction items with
  | nil => simp [GenerateItem.WholeAll]
  | cons item items ih => simp [GenerateItem.WholeAll, ih]

theorem CaseBranch.wholeAll_iff {branches : List CaseBranch} :
    CaseBranch.WholeAll branches ↔ ∀ branch ∈ branches, branch.Whole := by
  induction branches with
  | nil => simp [CaseBranch.WholeAll]
  | cons branch branches ih => simp [CaseBranch.WholeAll, ih]

namespace Compiling

/-! ### Programs -/

variable {α β : Type} {x : Compiling α}

/-- **A program that nothing stops but the depth**: where it fails, that constructs are nested too
deeply has been reported. -/
def OnlyDeep (x : Compiling α) : Prop :=
  ∀ c e c', x c = .error e c' → c.depthReports < c'.depthReports

namespace OnlyDeep

theorem of_ok (h : ∀ c, ∃ a c', x c = .ok a c') : OnlyDeep x := by
  intro c e c' hrun
  obtain ⟨a, c'', hok⟩ := h c
  rw [hok] at hrun
  cases hrun

theorem pure (a : α) : OnlyDeep (pure a) := .of_ok fun c => ⟨a, c, rfl⟩

theorem onIr (f : Ir → α × Ir) : OnlyDeep (onIr f) := .of_ok fun _ => ⟨_, _, rfl⟩

theorem change (f : Ir → Ir) : OnlyDeep (change f) := .of_ok fun _ => ⟨_, _, rfl⟩

theorem bind {f : α → Compiling β} [htx : Telling x] (hx : OnlyDeep x) (hf : ∀ a, OnlyDeep (f a)) :
    OnlyDeep (x >>= f) := by
  intro c e c' hrun
  cases hmid : x c with
  | error e' mid =>
    rw [Step.bind_eq, hmid] at hrun
    cases hrun
    exact hx c e c' hmid
  | ok a mid =>
    rw [Step.bind_eq, hmid] at hrun
    exact Nat.lt_of_le_of_lt (htx.told c a mid hmid) (hf a mid e c' hrun)

theorem nested (hx : OnlyDeep x) : OnlyDeep (nested x) := by
  intro c e c' hrun
  rw [Compiling.nested] at hrun
  split at hrun
  · cases hrun
  · rename_i e' after heq
    obtain ⟨rfl, rfl⟩ := EStateM.Result.error.inj hrun
    exact hx c.enter _ after heq

/-- What is nested too deeply is reported; otherwise it is as with the program itself. -/
theorem unlessTooDeep {x : Compiling (List ObjectId)} (hx : OnlyDeep x) (component : String)
    (place : FilePlace) : OnlyDeep (unlessTooDeep component place x) := by
  refine nested fun c e c' hrun => ?_
  change (if c.tooDeep then _ else x) c = _ at hrun
  split at hrun
  · rw [Step.bind_eq] at hrun
    split at hrun
    · cases hrun
    · rename_i e' mid heq
      cases hrun
      have hmore := Compilation.depthReports_report c place
        s!"generate constructs of {component} nested too deeply"
      rw [heq, Ending.state] at hmore
      exact Nat.lt_of_lt_of_eq (Nat.lt_succ_self _) hmore.symm
  · exact hx c e c' hrun

theorem addPart (p : ObjectId) (role : PartRole) (e : Option Expr) :
    OnlyDeep (addPart p role e) := change _

theorem addCondition {e : Option Expr} (he : e.isSome) (p : ObjectId) (place : FilePlace) :
    OnlyDeep (addCondition p place e) := by
  obtain ⟨e, rfl⟩ := Option.isSome_iff_exists.mp he
  exact addPart _ _ _

theorem addStart (p : ObjectId) (start : Option LoopStart) : OnlyDeep (addStart p start) := by
  cases start with
  | none => exact pure _
  | some s => exact change _

theorem addStep {step : Option LoopStep} (hs : ∀ s, step = some s → s.Whole) (p : ObjectId) :
    OnlyDeep (addStep p step) := by
  cases step with
  | none => exact pure _
  | some s =>
    cases s with
    | assign operator left right range =>
      exact (onIr _).bind fun _ => (addPart _ _ _).bind fun _ => (addPart _ _ _).bind fun _ =>
        change _
    | malformed operator left place => exact (hs _ rfl).elim
    | expr e => exact addPart _ _ _

theorem fillBlock (block : ObjectId) {items : ListId → Compiling Unit} [∀ l, Telling (items l)]
    (hi : ∀ l, OnlyDeep (items l)) : OnlyDeep (fillBlock block items) :=
  (onIr _).bind fun l => (hi l).nested.bind fun _ => change _

end OnlyDeep

mutual

/-- **A block** that lacks nothing. -/
theorem onlyDeep_addBlock (component : String) (p : ObjectId) :
    (b : GenerateBlock) → b.Whole → OnlyDeep (addBlock component p b)
  | .mk label range items, hb => by
    rw [addBlock]
    refine (OnlyDeep.onIr _).bind fun block => ?_
    exact (OnlyDeep.fillBlock block fun l => onlyDeep_addItems component block l items hb).bind
      fun _ => .pure _

theorem onlyDeep_addBody (component : String) (p : ObjectId) :
    (b : Option GenerateBlock) → GenerateBlock.WholeBody b → OnlyDeep (addBody component p b)
  | none, _ => by
    rw [addBody]
    exact .pure _
  | some body, hb => by
    rw [addBody]
    exact (onlyDeep_addBlock component p body hb).bind fun _ => .change _

theorem onlyDeep_addItems (component : String) (p : ObjectId) (l : ListId) :
    (items : List GenerateItem) → GenerateItem.WholeAll items →
      OnlyDeep (addItems component p l items)
  | [], _ => by
    rw [addItems]
    exact .pure _
  | item :: items, hi => by
    rw [addItems]
    exact (onlyDeep_addItem component p l item hi.1).bind fun _ =>
      onlyDeep_addItems component p l items hi.2

theorem onlyDeep_addItem (component : String) (p : ObjectId) (l : ListId) :
    (item : GenerateItem) → item.Whole → OnlyDeep (addItem component p l item)
  | .assign a, _ => by
    rw [addItem]
    exact (OnlyDeep.onIr _).bind fun _ => .change _
  | .instantiate i, _ => by
    rw [addItem]
    exact (OnlyDeep.onIr _).bind fun _ => .change _
  | .declare d, _ => by
    rw [addItem]
    exact (OnlyDeep.onIr _).bind fun _ => .change _
  | .splice items, hi => by
    rw [addItem]
    exact (OnlyDeep.onIr _).bind fun inner =>
      (onlyDeep_addItems component p inner items hi).nested.bind fun _ => .change _
  | .construct c, hc => by
    rw [addItem]
    exact (onlyDeep_addConstruct component p c hc).bind fun _ => .change _

theorem onlyDeep_addBranches (component : String) (p : ObjectId) (l : ListId) :
    (branches : List CaseBranch) → CaseBranch.WholeAll branches →
      OnlyDeep (addBranches component p l branches)
  | [], _ => by
    rw [addBranches]
    exact .pure _
  | branch :: branches, hb => by
    rw [addBranches]
    exact (onlyDeep_addBranch component p l branch hb.1).bind fun _ =>
      onlyDeep_addBranches component p l branches hb.2

theorem onlyDeep_addBranch (component : String) (p : ObjectId) (l : ListId) :
    (branch : CaseBranch) → branch.Whole → OnlyDeep (addBranch component p l branch)
  | .mk values range body, hb => by
    rw [addBranch]
    refine (OnlyDeep.onIr _).bind fun id => (OnlyDeep.change _).bind fun _ => ?_
    refine (OnlyDeep.onIr _).bind fun inner => (OnlyDeep.change _).bind fun _ => ?_
    exact onlyDeep_addBody component id body hb

/-- **A construct that lacks nothing** is compiled, or stopped where it is nested too deeply. -/
theorem onlyDeep_addConstruct (component : String) (p : ObjectId) :
    (c : GenerateConstruct) → c.Whole → OnlyDeep (addConstruct component p c)
  | .region place range (.mk label blockRange items), hitems => by
    rw [addConstruct]
    refine .unlessTooDeep ((OnlyDeep.onIr _).bind fun id => ?_) _ _
    refine (OnlyDeep.onIr _).bind fun block => (OnlyDeep.change _).bind fun _ => ?_
    exact (OnlyDeep.fillBlock block fun l => onlyDeep_addItems component block l items hitems).bind
      fun _ => .pure _
  | .ifElse place inner range condition yes no, ⟨hcondition, hyes, hno⟩ => by
    rw [addConstruct]
    refine .unlessTooDeep ((OnlyDeep.onIr _).bind fun id => ?_) _ _
    refine (OnlyDeep.addCondition hcondition _ _).bind fun _ => ?_
    refine ((onlyDeep_addBlock component id yes hyes).bind fun _ => .change _).bind fun _ => ?_
    exact (onlyDeep_addBlock component id no hno).bind fun _ => (OnlyDeep.change _).bind fun _ =>
      .pure _
  | .ifOnly place inner range _ condition body, ⟨rfl, hcondition, hbody⟩ => by
    rw [addConstruct]
    refine .unlessTooDeep ((OnlyDeep.onIr _).bind fun id => ?_) _ _
    refine (OnlyDeep.addCondition hcondition _ _).bind fun _ => ?_
    exact ((onlyDeep_addBlock component id body hbody).bind fun _ => .change _).bind fun _ =>
      .pure _
  | .choice place inner range selector branches, ⟨hselector, hbranches⟩ => by
    rw [addConstruct]
    refine .unlessTooDeep ((OnlyDeep.onIr _).bind fun id => ?_) _ _
    refine (OnlyDeep.addCondition hselector _ _).bind fun _ => (OnlyDeep.onIr _).bind fun list => ?_
    refine (OnlyDeep.change _).bind fun _ => ?_
    exact (onlyDeep_addBranches component id list branches hbranches).bind fun _ => .pure _
  | .loop place inner range start condition step body, ⟨hcondition, hstep, hbody⟩ => by
    rw [addConstruct_loop]
    refine .unlessTooDeep ((OnlyDeep.onIr _).bind fun id => ?_) _ _
    refine (OnlyDeep.addStart _ _).bind fun _ => (OnlyDeep.addCondition hcondition _ _).bind
      fun _ => ?_
    refine (OnlyDeep.addStep hstep _).bind fun _ => ?_
    exact (onlyDeep_addBody component id body hbody).bind fun _ => .pure _

end

end Compiling

end Verilog
