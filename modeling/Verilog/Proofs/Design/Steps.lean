import Verilog.Proofs.Design.Compile
import Verilog.Proofs.Ir.Modport
import Verilog.Proofs.Step

/-!
# The steps of compiling files

Of the programs that compile files it is shown how they are put together, as it is of those that
preprocess and read them (`Verilog.Proofs.Preprocess.Steps`, `Verilog.Proofs.Syntax.Steps`). So all
of them do nothing with the session but report, and they fail only where a report stops them. Work
that is nested is undone as a whole (`Compiling.KeepsLevel`), and what is compiled of assignments
and generate constructs is no modport (`Compiling.KeepsModports`).
-/

namespace Verilog

open Step Session

/-! ### Designs -/

instance : HasSession Compilation where
  sessionOf c := c.session
  putSession s c := { c with session := s }
  sessionOf_putSession _ _ := rfl
  putSession_sessionOf _ := rfl
  putSession_putSession _ _ _ := rfl

namespace Compiling

/-- Is the work nested as deeply as before, and may it be nested as deeply? -/
structure KeepsLevel (before after : Compilation) : Prop where
  depth : after.depth = before.depth
  limit : after.limit = before.limit

/-- Besides, are the modports in the design those that were there before? -/
structure KeepsModports (before after : Compilation) : Prop extends KeepsLevel before after where
  modports : before.ir.KeepsModports after.ir

theorem frame_keepsModports : Frame KeepsModports where
  refl c := ⟨⟨rfl, rfl⟩, .refl c.ir⟩
  trans h h' := ⟨⟨h'.depth.trans h.depth, h'.limit.trans h.limit⟩, h.modports.trans h'.modports⟩
  session c _ := ⟨⟨rfl, rfl⟩, .refl c.ir⟩

variable {F : Session → Session → Prop} {α β : Type} {x : Compiling α}

theorem composed_onIr (f : Ir → α × Ir) : Composed F KeepsLevel (onIr f) :=
  .modifyGet (fun _ _ => rfl) fun _ => ⟨rfl, rfl⟩

theorem composed_change (f : Ir → Ir) : Composed F KeepsLevel (change f) :=
  .modify (fun _ _ => rfl) fun _ => ⟨rfl, rfl⟩

/-- A step on the design that adds no modports. -/
theorem keeps_onIr {f : Ir → α × Ir} (hf : ∀ ir : Ir, ir.KeepsModports (f ir).2) :
    Composed F KeepsModports (onIr f) :=
  .modifyGet (fun _ _ => rfl) fun c => ⟨⟨rfl, rfl⟩, hf c.ir⟩

/-- A change of the design that adds no modports. -/
theorem keeps_change {f : Ir → Ir} (hf : ∀ ir : Ir, ir.KeepsModports (f ir)) :
    Composed F KeepsModports (change f) :=
  .modify (fun _ _ => rfl) fun c => ⟨⟨rfl, rfl⟩, hf c.ir⟩

/-- An object that is no modport is added. -/
theorem keeps_add {o : DesignObject} (ho : (o.kind == .modport) = false) :
    Composed F KeepsModports (onIr fun ir => ir.add o) :=
  keeps_onIr fun ir => .add ir fun hk => by simp [hk] at ho

theorem keeps_addList : Composed F KeepsModports (onIr Ir.addList) :=
  keeps_onIr fun ir => .addList ir

theorem keeps_setPart (id : ObjectId) (role : PartRole) (part : ObjectId) :
    Composed F KeepsModports (change fun ir => ir.setPart id role part) :=
  keeps_change fun ir => .setPart ir id role part

theorem keeps_setList (id : ObjectId) (role : ListRole) (list : ListId) :
    Composed F KeepsModports (change fun ir => ir.setList id role list) :=
  keeps_change fun ir => .setList ir id role list

theorem keeps_push (list : ListId) (id : ObjectId) :
    Composed F KeepsModports (change fun ir => ir.push list id) :=
  keeps_change fun ir => .push ir list id

theorem composed_report {Q : Compilation → Compilation → Prop} (kind : DiagnosticKind)
    (place : FilePlace) (message : String) : Composed F Q (report kind place message) := .report _

theorem composed_nested (hx : Composed F KeepsModports x) :
    Composed F KeepsModports (nested x) := by
  have heq : nested x = elsewhere Compilation.enter (fun _ after => after.leave)
      (fun a _ => a) x := by
    funext c
    rw [nested, elsewhere]
    cases x c.enter <;> rfl
  rw [heq]
  refine .elsewhere ⟨fun _ => rfl, fun _ _ _ => rfl, fun _ _ _ _ _ => rfl, fun _ _ _ => rfl⟩
    frame_keepsModports hx fun c after h => ⟨⟨?_, h.limit⟩, h.modports⟩
  have hdepth : after.depth = c.depth + 1 := h.depth
  exact Nat.sub_eq_of_eq_add hdepth

theorem composed_unlessTooDeep {x : Compiling (List ObjectId)} (hx : Composed F KeepsModports x)
    (component : String) (place : FilePlace) :
    Composed F KeepsModports (unlessTooDeep component place x) := by
  refine composed_nested (.look (fun _ _ _ => rfl) fun c => ?_)
  split
  · exact (composed_report _ _ _).bind fun _ => .pure _
  · exact hx

theorem composed_addPart (owner : ObjectId) (role : PartRole) (e : Option Expr) :
    Composed F KeepsModports (addPart owner role e) :=
  keeps_change fun ir => ir.keepsModports_addPart owner role e

theorem composed_addCondition (owner : ObjectId) (place : FilePlace) (e : Option Expr) :
    Composed F KeepsModports (addCondition owner place e) := by
  cases e with
  | none => exact composed_report _ _ _
  | some e => exact composed_addPart _ _ _

theorem composed_addLoopStep (loop : ObjectId) (s : LoopStep) :
    Composed F KeepsModports (addLoopStep loop s) := by
  cases s with
  | assign operator left right range =>
    refine (keeps_add rfl).bind fun id => (composed_addPart _ _ _).bind fun _ => ?_
    exact (composed_addPart _ _ _).bind fun _ => keeps_setPart _ _ _
  | malformed operator left place =>
    exact (composed_report _ _ _).bind fun _ => composed_addPart _ _ _
  | expr e => exact composed_addPart _ _ _

theorem composed_addStatement (owner : ObjectId) {block : Compiling ObjectId}
    (hb : Composed F KeepsModports block) : Composed F KeepsModports (addStatement owner block) :=
  hb.bind fun _ => keeps_setPart _ _ _

theorem composed_fillBlock (block : ObjectId) {items : ListId → Compiling Unit}
    (hi : ∀ l, Composed F KeepsModports (items l)) :
    Composed F KeepsModports (fillBlock block items) :=
  keeps_addList.bind fun l => (composed_nested (hi l)).bind fun _ => keeps_setList _ _ _

mutual

theorem composed_addBlock (component : String) (p : ObjectId) :
    (b : GenerateBlock) → Composed F KeepsModports (addBlock component p b)
  | .mk label range items => by
    rw [addBlock]
    refine (keeps_add rfl).bind fun block => ?_
    exact (composed_fillBlock block fun l => composed_addItems component block l items).bind
      fun _ => .pure _

theorem composed_addBody (component : String) (p : ObjectId) :
    (b : Option GenerateBlock) → Composed F KeepsModports (addBody component p b)
  | none => by
    rw [addBody]
    exact .pure _
  | some body => by
    rw [addBody]
    exact composed_addStatement p (composed_addBlock component p body)

theorem composed_addItems (component : String) (p : ObjectId) (l : ListId) :
    (items : List GenerateItem) → Composed F KeepsModports (addItems component p l items)
  | [] => by
    rw [addItems]
    exact .pure _
  | item :: items => by
    rw [addItems]
    exact (composed_addItem component p l item).bind fun _ => composed_addItems component p l items

theorem composed_addItem (component : String) (p : ObjectId) (l : ListId) :
    (item : GenerateItem) → Composed F KeepsModports (addItem component p l item)
  | .assign a => by
    rw [addItem]
    exact (keeps_onIr fun ir => ir.keepsModports_addNetAssign p a).bind fun _ => keeps_push _ _
  | .instantiate i => by
    rw [addItem]
    exact (keeps_add rfl).bind fun _ => keeps_push _ _
  | .declare d => by
    rw [addItem]
    exact (keeps_add rfl).bind fun _ => keeps_push _ _
  | .splice items => by
    rw [addItem]
    exact keeps_addList.bind fun inner =>
      (composed_nested (composed_addItems component p inner items)).bind fun _ =>
        keeps_change fun ir => .pushAll ir l _
  | .construct c => by
    rw [addItem]
    exact (composed_addConstruct component p c).bind fun ids =>
      keeps_change fun ir => .pushAll ir l ids

theorem composed_addBranches (component : String) (p : ObjectId) (l : ListId) :
    (branches : List CaseBranch) → Composed F KeepsModports (addBranches component p l branches)
  | [] => by
    rw [addBranches]
    exact .pure _
  | branch :: branches => by
    rw [addBranches]
    exact (composed_addBranch component p l branch).bind fun _ =>
      composed_addBranches component p l branches

theorem composed_addBranch (component : String) (p : ObjectId) (l : ListId) :
    (branch : CaseBranch) → Composed F KeepsModports (addBranch component p l branch)
  | .mk values range body => by
    rw [addBranch]
    refine (keeps_add rfl).bind fun id => (keeps_push _ _).bind fun _ => ?_
    refine keeps_addList.bind fun inner => (keeps_change fun ir => ?_).bind fun _ =>
      composed_addBody component id body
    exact (Ir.Extends.setList ir _ _ _).trans (Ir.keepsModports_addMembers _ _ values _)

theorem composed_addConstruct (component : String) (p : ObjectId) :
    (c : GenerateConstruct) → Composed F KeepsModports (addConstruct component p c)
  | .region place range (.mk label blockRange items) => by
    rw [addConstruct]
    refine composed_unlessTooDeep ((keeps_add rfl).bind fun id => ?_) _ _
    refine (keeps_add rfl).bind fun block => (keeps_setPart _ _ _).bind fun _ => ?_
    exact (composed_fillBlock block fun l => composed_addItems component block l items).bind
      fun _ => .pure _
  | .ifElse place inner range condition yes no => by
    rw [addConstruct]
    refine composed_unlessTooDeep ((keeps_add rfl).bind fun id => ?_) _ _
    refine (composed_addCondition _ _ _).bind fun _ => ?_
    refine (composed_addStatement _ (composed_addBlock component id yes)).bind fun _ => ?_
    exact (composed_addBlock component id no).bind fun _ => (keeps_setPart _ _ _).bind fun _ =>
      .pure _
  | .ifOnly place inner range shape condition body => by
    rw [addConstruct]
    have hrest : Composed F KeepsModports (do
        let id ← onIr fun ir => ir.add { kind := .generateIf, parent := some p, range }
        addCondition id inner condition
        addStatement id (addBlock component id body)
        return [id]) :=
      (keeps_add rfl).bind fun id => (composed_addCondition _ _ _).bind fun _ =>
        (composed_addStatement _ (composed_addBlock component id body)).bind fun _ => .pure _
    refine composed_unlessTooDeep ?_ _ _
    dsimp only
    split
    · exact (composed_report _ _ _).bind fun _ => hrest
    · exact hrest
  | .choice place inner range selector branches => by
    rw [addConstruct]
    refine composed_unlessTooDeep ((keeps_add rfl).bind fun id => ?_) _ _
    refine (composed_addCondition _ _ _).bind fun _ => keeps_addList.bind fun list => ?_
    refine (keeps_setList _ _ _).bind fun _ => ?_
    exact (composed_addBranches component id list branches).bind fun _ => .pure _
  | .loop place inner range start condition step body => by
    rw [addConstruct]
    refine composed_unlessTooDeep ((keeps_add rfl).bind fun id => ?_) _ _
    -- the parts of a loop may be missing, so what comes behind each is put together first
    have hlast : Composed F KeepsModports (do addBody component id body; return [id]) :=
      (composed_addBody component id body).bind fun _ => .pure _
    have hrest : Composed F KeepsModports (do
        addCondition id inner condition
        match step with
        | some s => addLoopStep id s
        | none => pure ()
        addBody component id body
        return [id]) := by
      refine (composed_addCondition _ _ _).bind fun _ => ?_
      cases step with
      | none => exact hlast
      | some s => exact (composed_addLoopStep id s).bind fun _ => hlast
    cases start with
    | none => exact hrest
    | some s =>
      exact (keeps_change fun ir => ir.keepsModports_addLoopStart id s).bind fun _ => hrest
  | .unsupported place kind => by
    rw [addConstruct]
    exact composed_unlessTooDeep ((composed_report _ _ _).bind fun _ => .pure _) _ _

end

theorem composed_addConstructs (component : String) (p : ObjectId) (cs : List GenerateConstruct) :
    Composed F KeepsModports (addConstructs component p cs) := by
  induction cs with
  | nil => exact .pure _
  | cons c cs ih =>
    exact (composed_addConstruct component p c).bind fun _ => ih.bind fun _ => .pure _

theorem composed_addAssigns (d : Definition) (assigns : List NetAssign) :
    Composed F KeepsModports (addAssigns d assigns) := by
  refine (keeps_onIr fun ir => ir.keepsModports_addNetAssigns d.object assigns).bind fun ids => ?_
  split
  · exact .pure _
  · exact (keeps_onIr fun ir => .addListOf ir ids).bind fun _ => .pure _

theorem composed_addGenerates (d : Definition) (constructs : List GenerateConstruct) :
    Composed F KeepsModports (addGenerates d constructs) := by
  refine (composed_addConstructs _ _ _).bind fun ids => ?_
  split
  · exact (keeps_onIr fun ir => .addListOf ir ids).bind fun _ => keeps_setList _ _ _
  · exact .pure _

theorem composed_addDefinition (name : String) (t : NodeTable) (root : NodeId) :
    Composed F KeepsLevel (addDefinition name t root) := by
  refine (composed_onIr _).bind fun d => (composed_onIr _).bind fun d => ?_
  refine Composed.bind ?_ fun d => Composed.bind ?_ fun _ => .pure _
  · exact (composed_addAssigns _ _).mono fun _ _ h => h.toKeepsLevel
  · exact (composed_addGenerates _ _).mono fun _ _ h => h.toKeepsLevel

theorem composed_addGates (design : Design) (gates : List String) :
    Composed F KeepsLevel (addGates design gates) := by
  induction gates generalizing design with
  | nil => exact .pure _
  | cons gate gates ih =>
    rw [addGates]
    split
    · exact ih design
    · exact (composed_onIr _).bind fun d => ih _

theorem composed_addComponent (design : Design) (t : NodeTable) (name : String) (node : NodeId) :
    Composed F KeepsLevel (addComponent design t name node) := by
  unfold addComponent
  split
  · exact (composed_report _ _ _).bind fun _ => .pure _
  · exact (composed_addDefinition name t node).bind fun d =>
      (composed_addGates design _).bind fun _ => .pure _

theorem composed_addElements (t : NodeTable) (es : List DesignElement) (design : Design) :
    Composed F KeepsLevel (addElements t es design) := by
  induction es generalizing design with
  | nil => exact .pure _
  | cons e es ih =>
    refine Composed.bind ?_ fun design => ih design
    unfold addElement
    dsimp only
    split
    case h_1 | h_2 | h_3 => exact composed_addComponent design t _ _
    all_goals exact .pure _

theorem composed_addFiles (files : List SourceFile) (design : Design) :
    Composed F KeepsLevel (addFiles files design) := by
  induction files generalizing design with
  | nil => exact .pure _
  | cons f files ih => exact (composed_addElements _ _ _).bind fun _ => ih _

end Compiling

theorem reports_compileDesign {F : Session → Session → Prop} {X : Failure → Prop} (hF : Alike F)
    (files : List SourceFile) : Reports F X (compileDesign files) := by
  have heq : compileDesign files = elsewhere
      (fun session => { session, limit := Compilation.defaultLimit : Compilation })
      (fun _ c => c.session) (fun design c => (design, c.ir)) (Compiling.addFiles files {}) := by
    funext s
    rw [compileDesign, elsewhere]
    cases Compiling.addFiles files {} { session := s, limit := Compilation.defaultLimit } <;> rfl
  rw [heq]
  refine .elsewhere ⟨fun _ => rfl, fun _ _ _ => rfl, fun _ _ _ _ _ => rfl, fun _ _ _ => rfl⟩ ?_
  exact ((Compiling.composed_addFiles files {}).reports hF).mono fun _ => False.elim

end Verilog
