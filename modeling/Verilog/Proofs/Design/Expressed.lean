import Verilog.Proofs.Design.Generates
import Verilog.Proofs.Expr.Operation
import Verilog.Proofs.Generate.Expressed

/-!
# The operations of a design

Whatever is compiled of files, objects of expressions are made of what is read in the trees of the
files, and of nothing else (`Ir.expresses_compileDesign`). An operation that is read there has an
operand for each one that is written, in the same order, and so has the object of every operation in
a design (`completes_operations`).

All of them have an operator but those between whose operands one of two operators is written: the
grammar accepts `~&` and `~|` there, which denote something only before an operand.
-/

namespace Verilog

open Compiling Ir

variable {P : Expr → Prop} {ir ir₁ : Ir} {d : Definition} {t : NodeTable} {root : NodeId}

/-! ### One definition -/

namespace Definition

theorem isExpression_headOf (kind : NodeKind) (name : String) :
    (headOf kind name).1.kind.isExpression = false := by
  unfold headOf
  simp only
  split <;> rfl

/-- The object of a definition stays the same, and nothing is added of which more than an expression
of a property is known. -/
structure Expresses (P : Expr → Prop) (before after : Definition × Ir) : Prop where
  object : after.1.object = before.1.object
  expresses : Ir.Expresses P nothing nothing before.2 after.2

variable {before after later : Definition × Ir}

theorem Expresses.refl (before : Definition × Ir) : Expresses P before before := ⟨rfl, .refl _⟩

theorem Expresses.trans (h : Expresses P before after) (h' : Expresses P after later) :
    Expresses P before later := ⟨h'.object.trans h.object, h.expresses.adds h'.expresses⟩

/-- Steps one after the other. -/
theorem expresses_foldl {α : Type} {f : Definition × Ir → α → Definition × Ir}
    (hf : ∀ acc a, Expresses P acc (f acc a)) (as : List α) (acc : Definition × Ir) :
    Expresses P acc (as.foldl f acc) := by
  induction as generalizing acc with
  | nil => exact .refl acc
  | cons a as ih => exact (hf acc a).trans (ih (f acc a))

theorem expresses_addModportPort (d : Definition) (name : String) (s : Signal) (node : NodeId)
    (ir : Ir) : Expresses P (d, ir) (d.addModportPort name s node ir) := by
  unfold addModportPort
  simp only
  split
  · exact ⟨rfl, .refl ir⟩
  · split
    · exact ⟨rfl, .refl ir⟩
    · exact ⟨rfl, .add ir rfl⟩

/-- The modports of a definition are no expressions. -/
theorem expresses_addModports (d : Definition) (t : NodeTable) (root : NodeId) (ir : Ir) :
    Expresses P (d, ir) (d.addModports t root ir) := by
  refine expresses_foldl (fun acc item => expresses_foldl (fun acc e => ?_) _ acc) _ (d, ir)
  cases e with
  | port s => exact expresses_addModportPort acc.1 _ s item acc.2
  | clocking b => exact ⟨rfl, .refl _⟩

end Definition

namespace Compiling

variable (hP : ∀ e, P e → e.Located)

include hP

theorem expresses_addConstructs (component : String) {p : ObjectId} {cs : List GenerateConstruct}
    (hcs : ∀ c ∈ cs, c.Every P) (hp : p < ir.size) :
    From ir (addConstructs component p cs) fun _ ir' => Expresses P nothing nothing ir ir' := by
  induction cs generalizing ir with
  | nil => exact .pure (.refl ir)
  | cons c cs ih =>
    rw [List.forall_mem_cons] at hcs
    refine (expresses_addConstruct hP component p c hcs.1 hp).bind fun _ ir₁ h₁ => ?_
    refine (ih hcs.2 (Nat.lt_of_lt_of_le hp h₁.changes.size_le)).bind fun _ ir₂ h₂ => ?_
    exact .pure (h₁.adds h₂)

theorem expresses_addAssigns (d : Definition) {assigns : List NetAssign}
    (ha : ∀ a ∈ assigns, a.Every P) :
    From ir (addAssigns d assigns) fun d' ir' => Definition.Expresses P (d, ir) (d', ir') := by
  refine .bind (Q := fun _ ir' => Expresses P nothing nothing ir ir')
    (.onIr (expresses_addNetAssigns hP ha)) fun ids ir₁ h₁ => ?_
  split
  · exact .pure ⟨rfl, h₁⟩
  · exact .bind (Q := fun _ ir' => Expresses P nothing nothing ir₁ ir') (.onIr (.addListOf ir₁ ids))
      fun _ _ h₂ => .pure ⟨rfl, h₁.adds h₂⟩

theorem expresses_addGenerates {constructs : List GenerateConstruct}
    (hc : ∀ c ∈ constructs, c.Every P) (hd : d.object < ir.size) :
    From ir (addGenerates d constructs) fun _ ir' =>
      Expresses P (only d.object) nothing ir ir' := by
  refine (expresses_addConstructs hP d.name hc hd).bind fun ids ir₁ h₁ => ?_
  have h₁ : Expresses P (only d.object) nothing ir ir₁ :=
    h₁.mono (fun _ => id) (fun _ _ hn => hn.elim) fun _ _ => id
  split
  · refine .bind (Q := fun _ ir' => Expresses P (only d.object) nothing ir₁ ir')
      (.onIr (.addListOf ir₁ ids)) fun l ir₂ h₂ => ?_
    exact .change ((h₁.furnishes hd h₂).furnishes hd (.setList ir₂ d.object .generates l))
  · exact .pure h₁

/-- **A definition is compiled** to an object, and to objects of the expressions that are read in
it. -/
theorem expresses_addDefinition (ht : t.ReadsEvery P) (hroot : t.Below t.root root)
    (name : String) :
    From ir (addDefinition name t root) fun _ ir' => Expresses P nothing nothing ir ir' := by
  let o : DesignObject := { (Definition.headOf (t.kind root) name).1 with
    range := t.range? (t.first root (Definition.headOf (t.kind root) name).2) root }
  have ho : o.kind.isExpression = false := Definition.isExpression_headOf _ name
  refine .bind (Q := fun d ir' => d.object = ir.size ∧ ir' = (ir.add o).2) (.onIr ⟨rfl, rfl⟩)
    fun d ir₁ h₁ => ?_
  obtain ⟨hobject, rfl⟩ := h₁
  have hmodports (d' : Definition) :=
    Definition.expresses_addModports (P := P) d' t root (ir.add o).2
  refine .bind (Q := fun d' ir' => d'.object = ir.size ∧
    Expresses P nothing nothing (ir.add o).2 ir')
    (.onIr ⟨by rw [(hmodports _).object]; exact hobject, (hmodports _).expresses⟩)
    fun d ir₂ h₂ => ?_
  refine (expresses_addAssigns hP d fun a ha => ?_).bind fun d' ir₃ h₃ => ?_
  · obtain ⟨item, hitem, ha⟩ := List.mem_flatMap.mp ha
    exact NodeTable.every_netAssigns ht (hroot.child (List.mem_filter.mp hitem).1) a ha
  obtain ⟨hobject, h₂⟩ := h₂
  have hobject : d'.object = ir.size := h₃.object.trans hobject
  have h₃ : Expresses P nothing nothing (ir.add o).2 ir₃ := h₂.adds h₃.expresses
  have hin : ir.size < (ir.add o).2.size := by simp
  refine (expresses_addGenerates hP (fun c hc => ?_)
    (hobject ▸ Nat.lt_of_lt_of_le hin h₃.changes.size_le)).bind fun _ ir₄ h₄ => ?_
  · obtain ⟨id, hid, rfl⟩ := List.mem_map.mp hc
    exact NodeTable.every_construct ht (hroot.child (List.mem_filter.mp hid).1)
  rw [hobject] at h₄
  have h₃ : Expresses P (only ir.size) nothing (ir.add o).2 ir₃ :=
    h₃.mono (fun _ => id) (fun _ _ hn => hn.elim) fun _ _ => id
  exact .pure ((h₃.furnishes hin h₄).addObject ho)

omit hP in
/-- Gates are no expressions. -/
theorem expresses_addGates (gates : List String) (design : Design) :
    From ir (addGates design gates) fun _ ir' => Expresses P nothing nothing ir ir' := by
  induction gates generalizing ir design with
  | nil => exact .pure (.refl ir)
  | cons gate gates ih =>
    rw [addGates]
    split
    · exact ih design
    · refine .bind (Q := fun _ ir' => Expresses P nothing nothing ir ir') (.onIr (.add ir rfl))
        fun d ir₁ h₁ => ?_
      exact (ih _).mono fun _ _ h => h₁.adds h

theorem expresses_addComponent (ht : t.ReadsEvery P) (hroot : t.Below t.root root)
    (design : Design) (name : String) :
    From ir (addComponent design t name root) fun _ ir' => Expresses P nothing nothing ir ir' := by
  unfold addComponent
  split
  · exact .bind (Q := fun _ ir' => Expresses P nothing nothing ir ir') (.report (.refl ir) _ _ _)
      fun _ _ h => .pure h
  · refine (expresses_addDefinition hP ht hroot name).bind fun d ir₁ h₁ => ?_
    exact (expresses_addGates (gatesOf t root) design).bind fun _ ir₂ h₂ => .pure (h₁.adds h₂)

theorem expresses_addElements (ht : t.ReadsEvery P) (hd : t.Declares) {es : List DesignElement}
    (hes : ∀ e ∈ es, e ∈ t.elements) (design : Design) :
    From ir (addElements t es design) fun _ ir' => Expresses P nothing nothing ir ir' := by
  induction es generalizing ir design with
  | nil => exact .pure (.refl ir)
  | cons e es ih =>
    rw [List.forall_mem_cons] at hes
    have he : From ir (addElement t design e) fun _ ir' => Expresses P nothing nothing ir ir' := by
      have hroot := (hd.declared e hes.1).1
      unfold addElement
      dsimp only
      split
      case h_1 | h_2 | h_3 => exact expresses_addComponent hP ht hroot design _
      case h_4 | h_5 | h_6 | h_7 => exact .pure (.refl ir)
    exact he.bind fun design₁ ir₁ h₁ => (ih hes.2 design₁).mono fun _ _ h => h₁.adds h

/-- **Files are compiled** to objects of the expressions that are read in them. -/
theorem expresses_addFiles {files : List SourceFile}
    (hfiles : ∀ f ∈ files, f.nodes.Declares ∧ f.nodes.ReadsEvery P) (design : Design) :
    From ir (addFiles files design) fun _ ir' => Expresses P nothing nothing ir ir' := by
  induction files generalizing ir design with
  | nil => exact .pure (.refl ir)
  | cons f files ih =>
    rw [List.forall_mem_cons] at hfiles
    refine (expresses_addElements hP hfiles.1.2 hfiles.1.1 (fun e he => Array.mem_toList_iff.mp he)
      design).bind fun design₁ ir₁ h₁ => ?_
    exact (ih hfiles.2 design₁).mono fun _ _ h => h₁.adds h

end Compiling

/-! ### Designs -/

/-- Has a file been read from a text that is given as it is? -/
def SourceFile.IsOfText (f : SourceFile) : Prop :=
  ∃ path text s s', SourceFile.ofText path text s = .ok f s'

/-- Is an expression read in one of some files? -/
def ToldIn (files : List SourceFile) (e : Expr) : Prop := ∃ f ∈ files, f.nodes.Tells e

theorem located_of_toldIn {files : List SourceFile} {e : Expr} (h : ToldIn files e) :
    e.Located := by
  obtain ⟨f, -, id, -, he⟩ := h
  exact f.nodes.readsLocated_expr? id e he

/-- **The objects of expressions in a design** are made of what is read in the files. -/
theorem Ir.expresses_compileDesign {files : List SourceFile} (hfiles : ∀ f ∈ files, f.IsOfText)
    {s s' : Session} {design : Design} (h : compileDesign files s = .ok (design, ir) s') :
    Expresses (ToldIn files) nothing nothing {} ir := by
  have hreads : ∀ f ∈ files, f.nodes.Declares ∧ f.nodes.ReadsEvery (ToldIn files) := by
    intro f hf
    obtain ⟨path, text, s, s', htext⟩ := hfiles f hf
    have hread := SourceFile.isRead_ofText htext
    exact ⟨hread.declares, fun id hid e he => hread.wellMade.every_expr?
      (SourceFile.quiet_ofText htext) (fun e' he' => ⟨f, hf, he'⟩) hid he⟩
  rw [compileDesign] at h
  split at h
  · rename_i design' c hrun
    obtain ⟨⟨rfl, rfl⟩, rfl⟩ : (design' = design ∧ c.ir = ir) ∧ c.session = s' := by
      simpa using h
    exact expresses_addFiles (fun _ => located_of_toldIn) hreads {} _ _ _ rfl hrun
  · cases h

theorem Ir.forall₂_of_areTrees {p : ObjectId} {es : List Expr} {cs : List ObjectId}
    (h : ir.AreTrees p (Expr.trees es) cs) :
    List.Forall₂ (fun e c => ir.IsTree p e.tree c) es cs := by
  induction es generalizing cs with
  | nil =>
    cases h
    exact .nil
  | cons e es ih =>
    cases h with
    | cons head tail => exact .cons head (ih tail)

/-- **An object that is an operation written in a table**: it has the operator that is written, if
not one of two, and one list, of an operand for each one that is written, in order. -/
def Ir.Completes (ir : Ir) (t : NodeTable) (i : ObjectId) : Prop :=
  ∃ o id ids l, ir.object? i = some o ∧ o.kind = .operation ∧ t.Below t.root id ∧
    t.Operates id o.operator ids ∧ o.range = t.range? id id ∧
    (o.operator = none → ∃ left leaf right, t.shape id = [left, leaf, right] ∧
      (t.kind leaf = .paBinOpReductNand ∨ t.kind leaf = .paBinOpReductNor)) ∧
    o.parts = [] ∧ o.lists = [(.operands, l)] ∧
    List.Forall₂ (fun q c => ∃ e, t.expr? q = some e ∧ ir.IsTree i e.tree c) ids (ir.members l)

/-- Of the trees of expressions, only those of operations have objects that are operations. -/
theorem Ir.exists_operation {p i : ObjectId} {e : Expr} (h : ir.IsTree p e.tree i)
    (hk : ir.kind? i = some .operation) : ∃ operator operands range,
      e = .operation operator operands range ∧ ∃ o l, ir.object? i = some o ∧ o.kind = .operation ∧
        o.operator = operator ∧ o.range = range ∧ o.parts = [] ∧ o.lists = [(.operands, l)] ∧
        List.Forall₂ (fun e c => ir.IsTree i e.tree c) operands (ir.members l) := by
  generalize htree : e.tree = tree at h
  obtain ⟨ho, -, hparts, hlists⟩ := h
  rename_i o parts lists
  rw [kind?, ho, Option.map_some, Option.some.injEq] at hk
  have hlabel : o.label.kind = .operation := hk
  cases e with
  | operation operator operands range =>
    rw [Expr.tree, DesignTree.node.injEq] at htree
    obtain ⟨heq, rfl, rfl⟩ := htree
    generalize hps : o.parts = ps at hparts
    generalize hls : o.lists = ls at hlists
    cases hparts
    cases hlists with
    | cons head tail =>
      cases tail
      exact ⟨operator, operands, range, rfl, o, _, ho, hk, (congrArg (·.operator) heq).symm,
        (congrArg (·.range) heq).symm, hps, hls, forall₂_of_areTrees head⟩
  | constant | name | element | slice =>
    rw [Expr.tree, DesignTree.node.injEq] at htree
    rw [← htree.1] at hlabel
    cases hlabel
  | call system | callWith system =>
    rw [Expr.tree, DesignTree.node.injEq] at htree
    rw [← htree.1] at hlabel
    cases system <;> cases hlabel

/-- What is related to things that are related to others is related to those through them. -/
theorem forall₂_comp {α β γ : Type} {R : α → β → Prop} {S : β → γ → Prop} {as : List α}
    {bs : List β} {cs : List γ} (h : List.Forall₂ R as bs) (h' : List.Forall₂ S bs cs) :
    List.Forall₂ (fun a c => ∃ b, R a b ∧ S b c) as cs := by
  induction h generalizing cs with
  | nil =>
    cases h'
    exact .nil
  | cons head _ ih =>
    cases h' with
    | cons head' tail' => exact .cons ⟨_, head, head'⟩ (ih tail')

/-- **Every operation of a design is complete.** Of whatever texts, with or without faults, the
object of every operation in their design is that of an operation written in one of them, at some
node of its tree. The object has the operator that is written there, and its only list holds one
object for each operand that is written, in the order in which they are written: one for an operator
before its operand or for a step by one, two for an operator between operands, three for a
condition, and as many as there are elements for braces. Only where `~&` or `~|` is written between
two operands, the object has no operator. -/
theorem completes_operations (files : List SourceFile) (hfiles : ∀ f ∈ files, f.IsOfText)
    (s s' : Session) (design : Design) (ir : Ir) (h : compileDesign files s = .ok (design, ir) s')
    (i : ObjectId) (hi : ir.kind? i = some .operation) :
    ∃ f ∈ files, ir.Completes f.nodes i := by
  obtain ⟨p, e, ⟨f, hf, htold⟩, htree⟩ :=
    (expresses_compileDesign hfiles h).expression i (Nat.zero_le i) _ hi rfl
  obtain ⟨operator, operands, range, rfl, o, l, ho, hk, rfl, hrange, hparts, hlists, hmembers⟩ :=
    exists_operation (htree ir (.refl _ _)) hi
  obtain ⟨path, text, s₀, s₁, htext⟩ := hfiles f hf
  have hmade := (SourceFile.isRead_ofText htext).wellMade
  obtain ⟨id, ids, hid, hop, hwritten, hreads⟩ :=
    hmade.operates_of_tells (SourceFile.quiet_ofText htext) htold
  refine ⟨f, hf, o, id, ids, l, ho, hk, hid, hop, hrange.trans hwritten, fun hnone => ?_, hparts,
    hlists, forall₂_comp hreads hmembers⟩
  obtain ⟨left, leaf, right, hs, -, hleaf⟩ := hop.eq_none hnone
  exact ⟨left, leaf, right, hs, hleaf⟩

/-- A module with operations in an operation. -/
def choosingAssign : String := "module m; assign y = c ? a + b : -a; endmodule\n"

theorem completes_operations_choosingAssign : ∃ f s design ir s',
    SourceFile.ofText "m.sv" choosingAssign bareSession = .ok f s ∧
      compileDesign [f] s = .ok (design, ir) s' ∧ ir.kind? 3 = some .operation ∧
      ∃ g ∈ [f], ir.Completes g.nodes 3 := by
  have h : (SourceFile.ofText "m.sv" choosingAssign).endsIn
      (fun f => (compileDesign [f]).endsIn fun r _ => r.2.kind? 3 == some .operation)
      bareSession = true := by
    rw [Step.endsIn, SourceFile.ofText_of_plain ⟨by decide +kernel, by decide +kernel⟩]
    decide +kernel
  obtain ⟨f, s, hf, h⟩ := Step.exists_of_endsIn h
  obtain ⟨⟨design, ir⟩, s', hd, hk⟩ := Step.exists_of_endsIn h
  have hk := beq_iff_eq.mp hk
  have hread : ∀ g ∈ [f], g.IsOfText := List.forall_mem_singleton.mpr ⟨_, _, _, _, hf⟩
  exact ⟨f, s, design, ir, s', hf, hd, hk, completes_operations [f] hread s s' design ir hd 3 hk⟩

/-- An operator that the grammar accepts between two operands, and that denotes nothing there. -/
def nandAssign : String := "module m; assign y = a ~& b; endmodule\n"

/-- A text is read and compiled without a report, to an operation without an operator. -/
theorem lacks_operator_nandAssign : ∃ f s design ir s' o,
    SourceFile.ofText "m.sv" nandAssign bareSession = .ok f s ∧
      compileDesign [f] s = .ok (design, ir) s' ∧ s'.diagnostics.toList = [] ∧
      ir.object? 3 = some o ∧ o.kind = .operation ∧ o.operator = none := by
  have h : (SourceFile.ofText "m.sv" nandAssign).endsIn
      (fun f => (compileDesign [f]).endsIn fun r s => s.diagnostics.isEmpty &&
        (r.2.object? 3).any fun o => o.kind == .operation && o.operator.isNone)
      bareSession = true := by
    rw [Step.endsIn, SourceFile.ofText_of_plain ⟨by decide +kernel, by decide +kernel⟩]
    decide +kernel
  obtain ⟨f, s, hf, h⟩ := Step.exists_of_endsIn h
  obtain ⟨⟨design, ir⟩, s', hd, h⟩ := Step.exists_of_endsIn h
  rw [Bool.and_eq_true, Option.any_eq_true] at h
  obtain ⟨hquiet, o, ho, h⟩ := h
  rw [Bool.and_eq_true, beq_iff_eq, Option.isNone_iff_eq_none] at h
  exact ⟨f, s, design, ir, s', o, hf, hd, by simpa using hquiet, ho, h⟩

end Verilog
